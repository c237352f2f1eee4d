import Mathlib.Data.Rat.Cast.Order
import Ironbind.Cache
import Ironbind.Config
import Ironbind.Lib.Run
import Ironbind.Lib.TokenBucket

/- The rate limiter (`ratelimit.rs`), per source: `check_source` under concurrency, in
   rational arithmetic. A call reads the clock, waits for its shard, and then decides
   and updates in one step; between the two, other calls may do the same. Readings may
   so reach a bucket out of order, and one from before the last refill takes the time of
   the refill back (`lateRun_exceeds`). As long as they reach it in order, a bucket is
   one of `TokenBucket`, and its bound holds (`source_rate_le`). -/
namespace Ironbind

/-! The limiter. -/

def SHARDS : Nat := 64

structure Bucket where
  tokens : ℚ
  lastRefill : Nat

structure Shard where
  buckets : AList fun _ : IpAddr => Bucket
  lastPrune : Nat

/-- What the limiter is set up with: tokens a source has at most, tokens it gains in a second, sources a shard
    tracks, and queries a second for all sources. -/
structure RateLimiter where
  capacity : ℚ
  rate : ℚ
  maxSourcesPerShard : Nat
  globalLimit : UInt64
  started : Nat
  capacity_nonneg : 0 ≤ capacity
  rate_nonneg : 0 ≤ rate

def RateLimiter.new (queriesPerSecond globalQueriesPerSecond : UInt32) (maxTrackedSources now : Nat) : RateLimiter where
  capacity := queriesPerSecond.toNat
  rate := queriesPerSecond.toNat
  maxSourcesPerShard := max (maxTrackedSources / SHARDS) 1
  globalLimit := globalQueriesPerSecond.toUInt64
  started := now
  capacity_nonneg := Nat.cast_nonneg _
  rate_nonneg := Nat.cast_nonneg _

/-- `now.duration_since(earlier)` in seconds: nothing for an instant that is later. -/
def secondsSince (now earlier : Nat) : ℚ := ((now - earlier : Nat) : ℚ) / nanosPerSec

namespace RateLimiter
variable (l : RateLimiter)

def refilled (b : Bucket) (now : Nat) : ℚ := b.tokens + secondsSince now b.lastRefill * l.rate

/-- The refill of a bucket, and a token from it. -/
def take (b : Bucket) (now : Nat) : Bool × Bucket :=
  let tokens := min (l.refilled b now) l.capacity
  if 1 ≤ tokens then (true, ⟨tokens - 1, now⟩) else (false, ⟨tokens, now⟩)

/-- A source without a bucket starts with a full one. -/
def takeFrom (now : Nat) (ip : IpAddr) (shard : Shard) : Bool × Shard :=
  let taken := l.take ((shard.buckets.lookup ip).getD ⟨l.capacity, now⟩) now
  (taken.1, { shard with buckets := shard.buckets.insert ip taken.2 })

/-- The sources that have not gained all their tokens back stay. -/
def prune (now : Nat) (shard : Shard) : Shard where
  buckets := ⟨shard.buckets.entries.filter fun e => l.refilled e.2 now < l.capacity,
    List.nodupKeys_iff_pairwise.mpr ((List.nodupKeys_iff_pairwise.mp shard.buckets.nodupKeys).filter _)⟩
  lastPrune := now

/-- `check_source` with its shard locked. -/
def checkSource (now : Nat) (ip : IpAddr) (shard : Shard) : Bool × Shard :=
  if ip ∉ shard.buckets ∧ l.maxSourcesPerShard ≤ shard.buckets.entries.length then
    if now - shard.lastPrune < nanosPerSec then (true, shard)
    else if l.maxSourcesPerShard ≤ (l.prune now shard).buckets.entries.length then (true, l.prune now shard)
    else l.takeFrom now ip (l.prune now shard)
  else l.takeFrom now ip shard

end RateLimiter

/-! Concurrent calls. -/

/-- A call that has read the clock. -/
structure Call where
  ip : IpAddr
  reading : Nat

structure Decision extends Call where
  admitted : Bool

/-- The calls between their two steps, and the decisions made, the latest first. -/
structure Limiting where
  clock : Nat
  shards : Fin SHARDS → Shard
  waiting : List Call
  decided : List Decision

/-- Time passes; a call begins; a call that waits gets its lock. -/
inductive LimiterStep where
  | tick (nanos : Nat)
  | call (ip : IpAddr)
  | update (i : Nat)

namespace Limiting

def start (now : Nat) : Limiting := ⟨now, fun _ => ⟨∅, now⟩, [], []⟩

section
variable (l : RateLimiter) (hash : IpAddr → UInt64)

def shardIndex (ip : IpAddr) : Fin SHARDS := ⟨(hash ip).toNat % SHARDS, Nat.mod_lt _ (by decide)⟩

/-- Without a capacity nothing is limited. -/
def step (st : Limiting) : LimiterStep → Limiting
  | .tick nanos => { st with clock := st.clock + nanos }
  | .call ip =>
    if l.capacity ≤ 0 then { st with decided := ⟨⟨ip, st.clock⟩, true⟩ :: st.decided }
    else { st with waiting := st.waiting ++ [⟨ip, st.clock⟩] }
  | .update i =>
    match st.waiting[i]? with
    | none => st
    | some call =>
      let (admitted, shard) := l.checkSource call.reading call.ip (st.shards (shardIndex hash call.ip))
      { st with
        shards := Function.update st.shards (shardIndex hash call.ip) shard
        waiting := st.waiting.eraseIdx i
        decided := ⟨call, admitted⟩ :: st.decided }

def run (st : Limiting) (steps : List LimiterStep) : Limiting := steps.foldl (step l hash) st

/-- The bucket of a source. -/
def bucket (st : Limiting) (ip : IpAddr) : Option Bucket := (st.shards (shardIndex hash ip)).buckets.lookup ip

end

/-- The calls of a source that were admitted, by the instants they read. -/
def admittedBetween (st : Limiting) (ip : IpAddr) (t₁ t₂ : Nat) : Nat :=
  st.decided.countP fun d => d.ip = ip ∧ d.admitted ∧ t₁ ≤ d.reading ∧ d.reading ≤ t₂

end Limiting

/-! A bucket in time. -/

def seconds (now : Nat) : ℚ := (now : ℚ) / nanosPerSec

theorem secondsSince_of_le {now earlier : Nat} (h : earlier ≤ now) :
    secondsSince now earlier = seconds now - seconds earlier := by
  rw [secondsSince, seconds, seconds, Nat.cast_sub h, sub_div]

theorem seconds_le_iff {a b : Nat} : seconds a ≤ seconds b ↔ a ≤ b := by
  rw [seconds, seconds, div_le_div_iff_of_pos_right (Nat.cast_pos.mpr (by decide)), Nat.cast_le]

/-- The bucket as one over the rationals. -/
def Bucket.rational (b : Bucket) : TokenBucket.Bucket ℚ := ⟨b.tokens, seconds b.lastRefill⟩

/-- Read in order, a bucket of the limiter is a token bucket. -/
theorem take_rational (l : RateLimiter) {b : Bucket} {now : Nat} (h : b.lastRefill ≤ now) :
    b.rational.take l.capacity l.rate (seconds now) = ((l.take b now).1, (l.take b now).2.rational) := by
  simp only [TokenBucket.Bucket.take, TokenBucket.Bucket.refilled, Bucket.rational, RateLimiter.take,
    RateLimiter.refilled, secondsSince_of_le h]
  by_cases hone : 1 ≤ min (b.tokens + (seconds now - seconds b.lastRefill) * l.rate) l.capacity
  · simp only [if_pos hone]
    exact if_pos hone
  · simp only [if_neg hone]
    exact if_neg hone

/-! One locked update. -/

section
variable {l : RateLimiter} {now : Nat} {ip other : IpAddr} {shard : Shard} {b : Bucket}

theorem lookup_of_prune (h : (l.prune now shard).buckets.lookup ip = some b) : shard.buckets.lookup ip = some b :=
  AList.mem_lookup_iff.mpr (List.mem_filter.mp (AList.mem_lookup_iff.mp h)).1

theorem lookup_takeFrom : (l.takeFrom now ip shard).2.buckets.lookup ip =
    some (l.take ((shard.buckets.lookup ip).getD ⟨l.capacity, now⟩) now).2 := AList.lookup_insert _

theorem lookup_takeFrom_ne (h : other ≠ ip) : (l.takeFrom now ip shard).2.buckets.lookup other =
    shard.buckets.lookup other := AList.lookup_insert_ne h

/-- **What an update does to its own source**, if that has a bucket afterwards: it takes from the bucket it had, or
    from a full one. -/
theorem checkSource_own (hafter : ((l.checkSource now ip shard).2.buckets.lookup ip).isSome) :
    (l.checkSource now ip shard).1 = (l.take ((shard.buckets.lookup ip).getD ⟨l.capacity, now⟩) now).1 ∧
      (l.checkSource now ip shard).2.buckets.lookup ip =
        some (l.take ((shard.buckets.lookup ip).getD ⟨l.capacity, now⟩) now).2 := by
  unfold RateLimiter.checkSource at hafter ⊢
  by_cases hfull : ip ∉ shard.buckets ∧ l.maxSourcesPerShard ≤ shard.buckets.entries.length
  · -- a source without a bucket, in a full table
    have hnone : shard.buckets.lookup ip = none := AList.lookup_eq_none.mpr hfull.1
    have hpruned : (l.prune now shard).buckets.lookup ip = none := by
      cases hlookup : (l.prune now shard).buckets.lookup ip with
      | none => rfl
      | some b => exact absurd (lookup_of_prune hlookup) (by rw [hnone]; exact nofun)
    rw [if_pos hfull] at hafter ⊢
    split at hafter
    · rw [hnone] at hafter
      cases hafter
    · next hlong =>
      rw [if_neg hlong]
      split at hafter
      · rw [hpruned] at hafter
        cases hafter
      · next hroom =>
        rw [if_neg hroom, lookup_takeFrom, RateLimiter.takeFrom, hpruned, hnone]
        exact ⟨rfl, rfl⟩
  · rw [if_neg hfull]
    exact ⟨rfl, lookup_takeFrom⟩

/-- What it does to another: nothing, unless it prunes it. -/
theorem checkSource_other (hother : other ≠ ip) (h : (l.checkSource now ip shard).2.buckets.lookup other = some b) :
    shard.buckets.lookup other = some b := by
  unfold RateLimiter.checkSource at h
  split at h
  · split at h
    · exact h
    · split at h
      · exact lookup_of_prune h
      · rw [lookup_takeFrom_ne hother] at h
        exact lookup_of_prune h
  · rwa [lookup_takeFrom_ne hother] at h

end

/-! Runs. -/

namespace Limiting

section
variable (l : RateLimiter) (hash : IpAddr → UInt64) (ip : IpAddr)

/-- The step keeps the bucket a source has, and a decision about it leaves it one. -/
def KeepsTrack (st : Limiting) (step : LimiterStep) : Prop :=
  ((st.bucket hash ip).isSome ∨ ∃ i call, step = .update i ∧ st.waiting[i]? = some call ∧ call.ip = ip) →
    ((st.step l hash step).bucket hash ip).isSome

/-- A source that stays tracked: the limiter is on, and every step keeps its bucket. -/
def Tracked (st : Limiting) (steps : List LimiterStep) : Prop :=
  0 < l.capacity ∧ ∀ before step after, steps = before ++ step :: after → KeepsTrack l hash ip (st.run l hash before) step

/-- An update of the source's bucket with a reading no earlier than its last refill. -/
def InOrder (st : Limiting) (step : LimiterStep) : Prop :=
  ∀ i call b, step = .update i → st.waiting[i]? = some call → call.ip = ip → st.bucket hash ip = some b →
    b.lastRefill ≤ call.reading

/-- The instants the admitted calls of a source have read. -/
def admissions (st : Limiting) : List ℚ :=
  (st.decided.filter fun d => d.ip = ip ∧ d.admitted).map fun d => seconds d.reading

/-- The source's bucket accounts for its admissions; without a bucket there are none. -/
def Accounted (st : Limiting) : Prop :=
  match st.bucket hash ip with
  | some b => TokenBucket.Accounts l.capacity l.rate b.rational (admissions ip st)
  | none => admissions ip st = []

variable {l hash ip} {st : Limiting}

theorem admittedBetween_eq (t₁ t₂ : Nat) : st.admittedBetween ip t₁ t₂ =
    TokenBucket.between (admissions ip st) (seconds t₁) (seconds t₂) := by
  simp only [admittedBetween, TokenBucket.between, admissions, List.countP_map, List.countP_filter]
  refine List.countP_congr fun d _ => ?_
  simp only [Function.comp, seconds_le_iff, Bool.and_eq_true, decide_eq_true_eq]
  tauto

theorem update_admissions {i : Nat} {call : Call} (hcall : st.waiting[i]? = some call) :
    admissions ip (st.step l hash (.update i)) =
      if call.ip = ip ∧ (l.checkSource call.reading call.ip (st.shards (shardIndex hash call.ip))).1 = true then
        seconds call.reading :: admissions ip st
      else admissions ip st := by
  simp only [step, hcall, admissions, List.filter_cons, decide_eq_true_eq]
  split <;> rfl

theorem update_bucket {i : Nat} {call : Call} (hcall : st.waiting[i]? = some call) :
    (st.step l hash (.update i)).bucket hash ip =
      if shardIndex hash ip = shardIndex hash call.ip then
        (l.checkSource call.reading call.ip (st.shards (shardIndex hash call.ip))).2.buckets.lookup ip
      else st.bucket hash ip := by
  simp only [step, hcall, bucket, Function.update_apply]
  split <;> rfl

/-- The account, by the bucket the source has. -/
theorem accounted_of_bucket {b : Bucket} (hb : st.bucket hash ip = some b) : Accounted l hash ip st ↔
    TokenBucket.Accounts l.capacity l.rate b.rational (admissions ip st) := by
  rw [Accounted, hb]

/-- An update of the source itself, in order. -/
theorem update_own {i : Nat} {call : Call} (haccounted : Accounted l hash ip st) (hcall : st.waiting[i]? = some call)
    (hip : call.ip = ip) (horder : ∀ b, st.bucket hash ip = some b → b.lastRefill ≤ call.reading)
    (hafter : ((st.step l hash (.update i)).bucket hash ip).isSome) :
    Accounted l hash ip (st.step l hash (.update i)) := by
  subst hip
  rw [update_bucket hcall, if_pos rfl] at hafter
  obtain ⟨hadmitted, hlookup⟩ := checkSource_own hafter
  have hbefore : ((st.shards (shardIndex hash call.ip)).buckets.lookup call.ip) = st.bucket hash call.ip := rfl
  rw [hbefore] at hadmitted hlookup
  -- the bucket it takes from, and what that accounts for
  have hstart : TokenBucket.Accounts l.capacity l.rate
      ((st.bucket hash call.ip).getD ⟨l.capacity, call.reading⟩).rational (admissions call.ip st) ∧
        ((st.bucket hash call.ip).getD ⟨l.capacity, call.reading⟩).lastRefill ≤ call.reading := by
    cases hb : st.bucket hash call.ip with
    | some b => exact ⟨(accounted_of_bucket hb).mp haccounted, horder b hb⟩
    | none =>
      rw [Accounted, hb] at haccounted
      rw [haccounted]
      exact ⟨.full l.capacity_nonneg l.rate_nonneg _, le_rfl⟩
  have htaken := hstart.1.take l.rate_nonneg (seconds_le_iff.mpr hstart.2) l.capacity_nonneg
  rw [take_rational l hstart.2] at htaken
  rw [accounted_of_bucket (by rw [update_bucket hcall, if_pos rfl]; exact hlookup), update_admissions hcall, hadmitted]
  simpa only [true_and] using htaken

/-- An update of another source, which leaves the bucket where it is. -/
theorem update_other {i : Nat} {call : Call} (haccounted : Accounted l hash ip st) (hcall : st.waiting[i]? = some call)
    (hip : call.ip ≠ ip)
    (hkept : (st.bucket hash ip).isSome → ((st.step l hash (.update i)).bucket hash ip).isSome) :
    Accounted l hash ip (st.step l hash (.update i)) := by
  have hadmissions : admissions ip (st.step l hash (.update i)) = admissions ip st := by
    rw [update_admissions hcall, if_neg fun hboth => hip hboth.1]
  have hback : ∀ b, (st.step l hash (.update i)).bucket hash ip = some b → st.bucket hash ip = some b := by
    intro b hb
    rw [update_bucket hcall] at hb
    split at hb
    · next hindex =>
      rw [bucket, hindex]
      exact checkSource_other (Ne.symm hip) hb
    · exact hb
  rw [Accounted, hadmissions]
  cases hb : (st.step l hash (.update i)).bucket hash ip with
  | some b => exact (accounted_of_bucket (hback b hb)).mp haccounted
  | none =>
    cases hbefore : st.bucket hash ip with
    | some b =>
      rw [hb, hbefore] at hkept
      exact absurd (hkept rfl) Bool.false_ne_true
    | none => rwa [Accounted, hbefore] at haccounted

/-- **One step** keeps the account of a tracked source, if its readings reach the bucket in order. -/
theorem step_accounted {step : LimiterStep} (hcapacity : 0 < l.capacity) (haccounted : Accounted l hash ip st)
    (htracked : KeepsTrack l hash ip st step) (horder : InOrder hash ip st step) :
    Accounted l hash ip (st.step l hash step) := by
  cases step with
  | tick nanos => exact haccounted
  | call other =>
    rw [Limiting.step, if_neg (not_le.mpr hcapacity)]
    exact haccounted
  | update i =>
    cases hcall : st.waiting[i]? with
    | none =>
      have hsame : st.step l hash (.update i) = st := by simp only [Limiting.step, hcall]
      rwa [hsame]
    | some call =>
      by_cases hip : call.ip = ip
      · exact update_own haccounted hcall hip (fun b hb => horder i call b rfl hcall hip hb)
          (htracked (.inr ⟨i, call, rfl, hcall, hip⟩))
      · exact update_other haccounted hcall hip fun hsome => htracked (.inl hsome)

theorem run_accounted {start : Nat} {steps : List LimiterStep} (htracked : Tracked l hash ip (.start start) steps)
    (horder : ∀ before step after, steps = before ++ step :: after →
      InOrder hash ip ((Limiting.start start).run l hash before) step) :
    Accounted l hash ip ((Limiting.start start).run l hash steps) := by
  have hstart : Accounted l hash ip (.start start) := by
    rw [Accounted, show (Limiting.start start).bucket hash ip = none from AList.lookup_empty ip]
    rfl
  exact Run.foldl_prefix (f := Limiting.step l hash) (P := Accounted l hash ip) hstart
    (fun before step after heq haccounted => step_accounted htracked.1 haccounted (htracked.2 before step after heq)
      (horder before step after heq)) steps List.prefix_rfl

end

/-- **The rate of a source.** In every interleaving of calls in which the readings of a tracked source reach its bucket
    in order, the calls admitted between two instants are no more than the capacity and what is gained in between. -/
theorem source_rate_le (l : RateLimiter) (hash : IpAddr → UInt64) (ip : IpAddr) (start : Nat) (steps : List LimiterStep)
    (htracked : Tracked l hash ip (.start start) steps)
    (horder : ∀ before step after, steps = before ++ step :: after →
      InOrder hash ip ((Limiting.start start).run l hash before) step) (t₁ t₂ : Nat) (ht : t₁ ≤ t₂) :
    (((Limiting.start start).run l hash steps).admittedBetween ip t₁ t₂ : ℚ) ≤
      l.capacity + l.rate * secondsSince t₂ t₁ := by
  have haccounted := run_accounted htracked horder
  rw [admittedBetween_eq, secondsSince_of_le ht, mul_comm]
  have hseconds := seconds_le_iff.mpr ht
  cases hb : ((Limiting.start start).run l hash steps).bucket hash ip with
  | some b => exact ((accounted_of_bucket hb).mp haccounted).bounded _ _ hseconds
  | none =>
    rw [Accounted, hb] at haccounted
    rw [haccounted]
    exact (TokenBucket.Accounts.full l.capacity_nonneg l.rate_nonneg 0).bounded _ _ hseconds

/-! A source with one token a second. -/

/-- The call that gets its lock in a step. -/
def called (st : Limiting) : LimiterStep → Option Call
  | .update i => st.waiting[i]?
  | _ => none

theorem called_eq_some_iff {st : Limiting} {step : LimiterStep} {call : Call} : st.called step = some call ↔
    ∃ i, step = .update i ∧ st.waiting[i]? = some call := by
  cases step <;> simp [called]

instance (l : RateLimiter) (hash : IpAddr → UInt64) (ip : IpAddr) (st : Limiting) (step : LimiterStep) :
    Decidable (KeepsTrack l hash ip st step) :=
  decidable_of_iff ((st.bucket hash ip).isSome ∨ (∃ call ∈ st.called step, call.ip = ip) →
      ((st.step l hash step).bucket hash ip).isSome) <| imp_congr_left <| or_congr_right <| by
    simp only [Option.mem_def, called_eq_some_iff]
    exact ⟨fun ⟨call, ⟨i, hstep, hcall⟩, hip⟩ => ⟨i, call, hstep, hcall, hip⟩,
      fun ⟨i, call, hstep, hcall, hip⟩ => ⟨call, ⟨i, hstep, hcall⟩, hip⟩⟩

instance (hash : IpAddr → UInt64) (ip : IpAddr) (st : Limiting) (step : LimiterStep) :
    Decidable (InOrder hash ip st step) :=
  decidable_of_iff (∀ call ∈ st.called step, call.ip = ip → ∀ b ∈ st.bucket hash ip, b.lastRefill ≤ call.reading) <| by
    simp only [Option.mem_def, called_eq_some_iff]
    exact ⟨fun h i call b hstep hcall hip hb => h call ⟨i, hstep, hcall⟩ hip b hb,
      fun h call ⟨i, hstep, hcall⟩ hip b hb => h i call b hstep hcall hip hb⟩

def oneLimiter : RateLimiter := .new 1 0 1000 0

def oneSource : IpAddr := .V4 0

def otherSource : IpAddr := .V4 1

/-- The source uses its token at the start. Half a second later it has half a token, and half a second after that a
    whole one. Another source of its shard calls in between, and its first call gets its lock last. -/
def turnSteps : List LimiterStep :=
  [.call oneSource, .call otherSource, .update 0, .tick (nanosPerSec / 2), .call oneSource, .update 1,
    .tick (nanosPerSec / 2), .call otherSource, .call oneSource, .update 2, .update 1, .update 0]

/-- Two of the source's three calls in a second are admitted, which is what the bound leaves it. -/
theorem source_rate_le_turns :
    (((start 0).run oneLimiter (fun _ => 0) turnSteps).admittedBetween oneSource 0 nanosPerSec : ℚ) ≤
      oneLimiter.capacity + oneLimiter.rate * secondsSince nanosPerSec 0 := by
  have htracked : Tracked oneLimiter (fun _ => 0) oneSource (.start 0) turnSteps :=
    ⟨by decide, Run.forall_split (P := fun before step =>
      KeepsTrack oneLimiter (fun _ => 0) oneSource ((start 0).run oneLimiter (fun _ => 0) before) step) (by decide)⟩
  have horder := Run.forall_split (l := turnSteps) (P := fun before step =>
    InOrder (fun _ => 0) oneSource ((start 0).run oneLimiter (fun _ => 0) before) step) (by decide +kernel)
  exact source_rate_le oneLimiter (fun _ => 0) oneSource 0 turnSteps htracked horder 0 nanosPerSec (Nat.zero_le _)

example : ((start 0).run oneLimiter (fun _ => 0) turnSteps).decided.map (fun d => (d.ip, d.admitted)) =
    [(otherSource, false), (otherSource, true), (oneSource, true), (oneSource, false), (oneSource, true)] := by
  decide +kernel

/-- A token is used at the start. A second later another one is; then a call that has waited since the start gets its
    lock, and the second counts again for the next one. -/
def lateSteps : List LimiterStep :=
  [.call oneSource, .update 0, .call oneSource, .tick nanosPerSec, .call oneSource, .update 1, .update 0,
    .call oneSource, .update 0]

theorem lateSteps_tracked : Tracked oneLimiter (fun _ => 0) oneSource (.start 0) lateSteps :=
  ⟨by decide, Run.forall_split (P := fun before step =>
    KeepsTrack oneLimiter (fun _ => 0) oneSource ((start 0).run oneLimiter (fun _ => 0) before) step) (by decide)⟩

/-- Two calls in one instant. -/
theorem lateRun_exceeds : Tracked oneLimiter (fun _ => 0) oneSource (.start 0) lateSteps ∧
    ¬ ((((start 0).run oneLimiter (fun _ => 0) lateSteps).admittedBetween oneSource nanosPerSec nanosPerSec : Nat) : ℚ) ≤
      oneLimiter.capacity + oneLimiter.rate * secondsSince nanosPerSec nanosPerSec :=
  ⟨lateSteps_tracked, by decide +kernel⟩

end Limiting

end Ironbind
