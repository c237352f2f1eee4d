import Ironbind.RateLimit

/- The limiter of bounded memory against one token bucket for each source. One call
   after the other, at times that do not decrease: a bucket that was pruned was full
   when it was, so a source without a bucket stands for one with a full bucket
   (`Simulates`), and as long as a source finds room its decisions are those of a
   bucket that is never forgotten. `checkSource_simulates` is the step,
   `limiter_refines` the run, with the bound on the sources that are tracked. -/
namespace Ironbind

/-! One call after the other. -/

abbrev SourceTable : Type := Fin SHARDS → Shard

def SourceTable.new (now : Nat) : SourceTable := fun _ => ⟨∅, now⟩

/-- The sources with a bucket. -/
def SourceTable.tracked (table : SourceTable) : Nat := ∑ i, (table i).buckets.entries.length

namespace RateLimiter
variable (l : RateLimiter) (hash : IpAddr → UInt64)

/-- `check_source`: without a capacity nothing is limited. -/
def checkCall (call : Call) (table : SourceTable) : Bool × SourceTable :=
  if l.capacity ≤ 0 then (true, table)
  else
    let (admitted, shard) := l.checkSource call.reading call.ip (table (Limiting.shardIndex hash call.ip))
    (admitted, Function.update table (Limiting.shardIndex hash call.ip) shard)

def runCalls (calls : List Call) (table : SourceTable) : SourceTable :=
  calls.foldl (fun table call => (l.checkCall hash call table).2) table

/-- The shard is full, and has been pruned a moment ago or stays full after pruning. -/
def TurnsAway (now : Nat) (ip : IpAddr) (shard : Shard) : Prop :=
  ip ∉ shard.buckets ∧ l.maxSourcesPerShard ≤ shard.buckets.entries.length ∧
    (now - shard.lastPrune < nanosPerSec ∨ l.maxSourcesPerShard ≤ (l.prune now shard).buckets.entries.length)

end RateLimiter

/-! The ideal. -/

/-- A bucket for each source that has been seen. -/
abbrev IdealBuckets : Type := IpAddr → Option (TokenBucket.Bucket ℚ)

/-- A call of the ideal limiter: no limit to the sources, and nothing pruned. -/
def RateLimiter.idealCall (l : RateLimiter) (call : Call) (buckets : IdealBuckets) : Bool × IdealBuckets :=
  if l.capacity ≤ 0 then (true, buckets)
  else
    let (admitted, bucket) := ((buckets call.ip).getD ⟨l.capacity, seconds call.reading⟩).take l.capacity l.rate
      (seconds call.reading)
    (admitted, Function.update buckets call.ip (some bucket))

def RateLimiter.runIdeal (l : RateLimiter) (calls : List Call) (buckets : IdealBuckets) : IdealBuckets :=
  calls.foldl (fun buckets call => (l.idealCall call buckets).2) buckets

/-! What a shard keeps. -/

section
variable {l : RateLimiter} {now : Nat} {ip other : IpAddr} {shard : Shard}

theorem lookup_prune : (l.prune now shard).buckets.lookup ip =
    (shard.buckets.lookup ip).filter fun b => l.refilled b now < l.capacity := by
  ext b
  rw [Option.filter_eq_some_iff]
  exact AList.mem_lookup_iff.trans (List.mem_filter.trans (and_congr_left' AList.mem_lookup_iff.symm))

theorem not_mem_prune (h : ip ∉ shard.buckets) : ip ∉ (l.prune now shard).buckets := by
  rw [← AList.lookup_eq_none] at h ⊢
  rw [lookup_prune, h]
  rfl

theorem length_prune_le : (l.prune now shard).buckets.entries.length ≤ shard.buckets.entries.length :=
  List.length_filter_le _ _

/-- The bucket that another source has is kept, or was full. -/
theorem lookup_checkSource_other (hother : other ≠ ip) :
    (l.checkSource now ip shard).2.buckets.lookup other = shard.buckets.lookup other ∨
      (l.checkSource now ip shard).2.buckets.lookup other = (l.prune now shard).buckets.lookup other := by
  unfold RateLimiter.checkSource
  split
  · split
    · exact .inl rfl
    · split
      · exact .inr rfl
      · exact .inr (lookup_takeFrom_ne hother)
  · exact .inl (lookup_takeFrom_ne hother)

/-- A source that is not turned away takes from the bucket it has, or from a full one. -/
theorem checkSource_of_room (hroom : ¬ l.TurnsAway now ip shard) :
    (l.checkSource now ip shard).1 = (l.take ((shard.buckets.lookup ip).getD ⟨l.capacity, now⟩) now).1 ∧
      (l.checkSource now ip shard).2.buckets.lookup ip =
        some (l.take ((shard.buckets.lookup ip).getD ⟨l.capacity, now⟩) now).2 := by
  refine checkSource_own ?_
  unfold RateLimiter.checkSource
  split
  · next hfull =>
    split
    · next hsoon => exact absurd ⟨hfull.1, hfull.2, .inl hsoon⟩ hroom
    · split
      · next hstill => exact absurd ⟨hfull.1, hfull.2, .inr hstill⟩ hroom
      · rw [lookup_takeFrom]; rfl
  · rw [lookup_takeFrom]; rfl

theorem length_takeFrom : (l.takeFrom now ip shard).2.buckets.entries.length =
    if ip ∈ shard.buckets then shard.buckets.entries.length else shard.buckets.entries.length + 1 := by
  have hkeys : ∀ m : AList fun _ : IpAddr => Bucket, m.entries.length = m.keys.length := fun m => (List.length_map _).symm
  rw [RateLimiter.takeFrom, hkeys, hkeys]
  exact length_keys_insert _ _ _

/-- A shard with room for its sources keeps it. -/
theorem length_checkSource_le (h : shard.buckets.entries.length ≤ l.maxSourcesPerShard) :
    (l.checkSource now ip shard).2.buckets.entries.length ≤ l.maxSourcesPerShard := by
  unfold RateLimiter.checkSource
  split
  · next hfull =>
    split
    · exact h
    · split
      · exact length_prune_le.trans h
      · next hroom =>
        rw [length_takeFrom, if_neg (not_mem_prune hfull.1)]
        omega
  · next hroom =>
    rw [length_takeFrom]
    split
    · exact h
    · next hnew =>
      have := not_and.mp hroom hnew
      omega

end

/-! One source. -/

/-- What the table holds for a source, and its ideal bucket: the same bucket, or none for one that would be full. -/
inductive Simulates (l : RateLimiter) (now : Nat) : Option Bucket → Option (TokenBucket.Bucket ℚ) → Prop where
  | unseen : Simulates l now none none
  | same {b : Bucket} (h : b.lastRefill ≤ now) : Simulates l now (some b) (some b.rational)
  | full {b : TokenBucket.Bucket ℚ} (h : b.lastRefill ≤ seconds now)
      (hfull : l.capacity ≤ b.tokens + (seconds now - b.lastRefill) * l.rate) : Simulates l now none (some b)

section
variable {l : RateLimiter} {now later : Nat} {stored : Option Bucket} {ideal : Option (TokenBucket.Bucket ℚ)}

theorem lastRefill_take (b : Bucket) (now : Nat) : (l.take b now).2.lastRefill = now := by
  unfold RateLimiter.take
  dsimp only
  split <;> rfl

theorem Simulates.mono (h : Simulates l now stored ideal) (hle : now ≤ later) : Simulates l later stored ideal := by
  cases h with
  | unseen => exact .unseen
  | same h => exact .same (h.trans hle)
  | full h hfull =>
    have hlater := seconds_le_iff.mpr hle
    have hrate := l.rate_nonneg
    exact .full (h.trans hlater) (hfull.trans (by gcongr))

/-- A bucket that is pruned is full. -/
theorem Simulates.prune (h : Simulates l now stored ideal) :
    Simulates l now (stored.filter fun b => l.refilled b now < l.capacity) ideal := by
  cases h with
  | unseen => exact .unseen
  | @same b h =>
    by_cases hless : l.refilled b now < l.capacity
    · rw [Option.filter_some, if_pos (by simpa using hless)]
      exact .same h
    · rw [Option.filter_some, if_neg (by simpa using hless)]
      rw [not_lt, RateLimiter.refilled, secondsSince_of_le h] at hless
      exact .full (seconds_le_iff.mpr h) hless
  | full h hfull => exact .full h hfull

/-- **A call of the source itself**: the same decision, and the same bucket afterwards. -/
theorem Simulates.take (h : Simulates l now stored ideal) :
    ((ideal.getD ⟨l.capacity, seconds now⟩).take l.capacity l.rate (seconds now)).1 =
        (l.take (stored.getD ⟨l.capacity, now⟩) now).1 ∧
      Simulates l now (some (l.take (stored.getD ⟨l.capacity, now⟩) now).2)
        (some ((ideal.getD ⟨l.capacity, seconds now⟩).take l.capacity l.rate (seconds now)).2) := by
  have hsame : ∀ b : Bucket, b.lastRefill ≤ now →
      (b.rational.take l.capacity l.rate (seconds now)).1 = (l.take b now).1 ∧
        Simulates l now (some (l.take b now).2) (some (b.rational.take l.capacity l.rate (seconds now)).2) := by
    intro b hb
    rw [take_rational l hb]
    exact ⟨rfl, .same (lastRefill_take b now).le⟩
  cases h with
  | unseen => exact hsame ⟨l.capacity, now⟩ le_rfl
  | same h => exact hsame _ h
  | full h hfull =>
    rw [Option.getD_some, Option.getD_none, TokenBucket.Bucket.take_of_full hfull]
    exact hsame ⟨l.capacity, now⟩ le_rfl

end

/-! Runs. -/

section
variable (l : RateLimiter) (hash : IpAddr → UInt64)

/-- No call of the source is turned away, wherever it stands in the run. -/
def FindsRoom (start : Nat) (calls : List Call) (ip : IpAddr) : Prop :=
  ∀ before call after, calls = before ++ call :: after → call.ip = ip →
    ¬ l.TurnsAway call.reading ip (l.runCalls hash before (.new start) (Limiting.shardIndex hash ip))

variable {l hash} {call : Call} {table : SourceTable} {buckets : IdealBuckets} {ip : IpAddr} {start : Nat}
  {calls : List Call}

theorem runCalls_concat :
    l.runCalls hash (calls ++ [call]) table = (l.checkCall hash call (l.runCalls hash calls table)).2 := by
  rw [RateLimiter.runCalls, List.foldl_append]
  rfl

theorem runIdeal_concat : l.runIdeal (calls ++ [call]) buckets = (l.idealCall call (l.runIdeal calls buckets)).2 := by
  rw [RateLimiter.runIdeal, List.foldl_append]
  rfl

/-- **One call**: what the table and the ideal hold for a source stays the same, up to full buckets; if the call is the
    source's own, the decision is the same too. -/
theorem checkSource_simulates (hcapacity : 0 < l.capacity)
    (h : Simulates l call.reading ((table (Limiting.shardIndex hash ip)).buckets.lookup ip) (buckets ip))
    (hroom : call.ip = ip → ¬ l.TurnsAway call.reading ip (table (Limiting.shardIndex hash ip))) :
    Simulates l call.reading (((l.checkCall hash call table).2 (Limiting.shardIndex hash ip)).buckets.lookup ip)
        ((l.idealCall call buckets).2 ip) ∧
      (call.ip = ip → (l.checkCall hash call table).1 = (l.idealCall call buckets).1) := by
  rw [RateLimiter.checkCall, RateLimiter.idealCall, if_neg (not_le.mpr hcapacity), if_neg (not_le.mpr hcapacity)]
  dsimp only
  by_cases hip : call.ip = ip
  · subst hip
    obtain ⟨hdecision, hstored⟩ := checkSource_of_room (hroom rfl)
    obtain ⟨hideal, hafter⟩ := h.take
    rw [Function.update_self, Function.update_self, hstored, hdecision]
    exact ⟨hafter, fun _ => hideal.symm⟩
  · refine ⟨?_, fun heq => absurd heq hip⟩
    rw [Function.update_of_ne (Ne.symm hip)]
    by_cases hindex : Limiting.shardIndex hash ip = Limiting.shardIndex hash call.ip
    · rw [hindex] at h ⊢
      rw [Function.update_self]
      rcases lookup_checkSource_other (Ne.symm hip) with hkept | hpruned
      · rwa [hkept]
      · rw [hpruned, lookup_prune]
        exact h.prune
    · rwa [Function.update_of_ne hindex]

theorem run_simulates (hcapacity : 0 < l.capacity) (hsorted : calls.Pairwise fun a b => a.reading ≤ b.reading)
    (hroom : FindsRoom l hash start calls ip) {now : Nat} (hnow : ∀ call ∈ calls, call.reading ≤ now) :
    Simulates l now ((l.runCalls hash calls (.new start) (Limiting.shardIndex hash ip)).buckets.lookup ip)
      (l.runIdeal calls (fun _ => none) ip) := by
  induction calls using List.reverseRecOn generalizing now with
  | nil =>
    rw [show (l.runCalls hash [] (.new start) (Limiting.shardIndex hash ip)).buckets.lookup ip = none from
      AList.lookup_empty ip]
    exact .unseen
  | append_singleton calls call ih =>
    obtain ⟨hbefore, -, hlast⟩ := List.pairwise_append.mp hsorted
    have hsofar := ih hbefore (fun before c after heq => hroom before c (after ++ [call]) (by rw [heq]; simp))
      fun c hc => hlast c hc call List.mem_cons_self
    rw [runCalls_concat, runIdeal_concat]
    exact (checkSource_simulates hcapacity hsofar fun hip => hroom calls call [] rfl hip).1.mono
      (hnow call (List.mem_append_right _ List.mem_cons_self))

/-- No shard has more sources than it may have. -/
theorem run_tracked (i : Fin SHARDS) :
    (l.runCalls hash calls (.new start) i).buckets.entries.length ≤ l.maxSourcesPerShard := by
  induction calls using List.reverseRecOn with
  | nil => exact Nat.zero_le _
  | append_singleton calls call ih =>
    rw [runCalls_concat, RateLimiter.checkCall]
    split
    · exact ih
    · dsimp only
      rw [Function.update_apply]
      split
      · next hindex =>
        rw [← hindex]
        exact length_checkSource_le ih
      · exact ih

end

/-- **The bounded limiter refines the unbounded one.** In every run of calls at times that do not decrease, no more
    sources are tracked than the larger of 64 and the configured number, and every decision about a source that always
    found room is that of its ideal bucket. -/
theorem limiter_refines (queriesPerSecond globalQueriesPerSecond : UInt32) (maxTrackedSources start : Nat)
    (hash : IpAddr → UInt64) (calls : List Call) (hsorted : calls.Pairwise fun a b => a.reading ≤ b.reading) :
    let l := RateLimiter.new queriesPerSecond globalQueriesPerSecond maxTrackedSources start
    (l.runCalls hash calls (.new start)).tracked ≤ max 64 maxTrackedSources ∧
      ∀ ip, FindsRoom l hash start calls ip → ∀ before call after, calls = before ++ call :: after → call.ip = ip →
        (l.checkCall hash call (l.runCalls hash before (.new start))).1 =
          (l.idealCall call (l.runIdeal before fun _ => none)).1 := by
  intro l
  constructor
  · have hshards : (l.runCalls hash calls (.new start)).tracked ≤ Finset.card Finset.univ • l.maxSourcesPerShard :=
      Finset.sum_le_card_nsmul Finset.univ _ _ fun i _ => run_tracked i
    rw [Finset.card_univ, Fintype.card_fin, smul_eq_mul] at hshards
    refine hshards.trans ?_
    show SHARDS * max (maxTrackedSources / SHARDS) 1 ≤ max 64 maxTrackedSources
    rw [SHARDS]
    omega
  · rintro ip hroom before call after rfl hip
    rcases l.capacity_nonneg.lt_or_eq with hcapacity | hzero
    · obtain ⟨hbefore, hcall, hlast⟩ := List.pairwise_append.mp hsorted
      have hearlier : FindsRoom l hash start before ip := fun first c rest heq =>
        hroom first c (rest ++ call :: after) (by rw [heq]; simp)
      have hsofar := run_simulates hcapacity hbefore hearlier fun c hc => hlast c hc call List.mem_cons_self
      exact (checkSource_simulates hcapacity hsofar fun heq => hroom before call after rfl heq).2 hip
    · rw [RateLimiter.checkCall, RateLimiter.idealCall, if_pos hzero.ge, if_pos hzero.ge]

/-! One source in each shard. -/

instance (l : RateLimiter) (now : Nat) (ip : IpAddr) (shard : Shard) : Decidable (l.TurnsAway now ip shard) :=
  inferInstanceAs (Decidable (_ ∧ _ ∧ (_ ∨ _)))

def tightLimiter : RateLimiter := .new 1 0 64 0

/-- A source uses its token, and calls again too soon. Two seconds later its bucket is full, and pruned for another
    source of its shard; after that one's is pruned for it in turn, its own is the ideal one again. -/
def turnCalls : List Call :=
  [⟨Limiting.oneSource, 0⟩, ⟨Limiting.oneSource, nanosPerSec / 2⟩, ⟨Limiting.otherSource, 2 * nanosPerSec⟩,
    ⟨Limiting.otherSource, 2 * nanosPerSec⟩, ⟨Limiting.oneSource, 4 * nanosPerSec⟩,
    ⟨Limiting.oneSource, 9 * nanosPerSec / 2⟩]

/-- The source's last two calls: on a bucket that was pruned, and on the one it has since. -/
theorem limiter_refines_turns :
    (tightLimiter.runCalls (fun _ => 0) turnCalls (.new 0)).tracked ≤ max 64 64 ∧
      (tightLimiter.checkCall (fun _ => 0) ⟨Limiting.oneSource, 4 * nanosPerSec⟩
          (tightLimiter.runCalls (fun _ => 0) (turnCalls.take 4) (.new 0))).1 =
        (tightLimiter.idealCall ⟨Limiting.oneSource, 4 * nanosPerSec⟩
          (tightLimiter.runIdeal (turnCalls.take 4) fun _ => none)).1 ∧
      (tightLimiter.checkCall (fun _ => 0) ⟨Limiting.oneSource, 9 * nanosPerSec / 2⟩
          (tightLimiter.runCalls (fun _ => 0) (turnCalls.take 5) (.new 0))).1 =
        (tightLimiter.idealCall ⟨Limiting.oneSource, 9 * nanosPerSec / 2⟩
          (tightLimiter.runIdeal (turnCalls.take 5) fun _ => none)).1 := by
  have hroom : FindsRoom tightLimiter (fun _ => 0) 0 turnCalls Limiting.oneSource :=
    Run.forall_split (l := turnCalls) (P := fun before (call : Call) => call.ip = Limiting.oneSource →
      ¬ tightLimiter.TurnsAway call.reading Limiting.oneSource
        (tightLimiter.runCalls (fun _ => 0) before (.new 0) (Limiting.shardIndex (fun _ => 0) Limiting.oneSource)))
      (by decide +kernel)
  obtain ⟨htracked, hdecisions⟩ := limiter_refines 1 0 64 0 (fun _ => 0) turnCalls (by decide)
  exact ⟨htracked, hdecisions _ hroom _ _ [⟨Limiting.oneSource, 9 * nanosPerSec / 2⟩] rfl rfl,
    hdecisions _ hroom _ _ [] rfl rfl⟩

example : turnCalls.zipIdx.map (fun (call, n) =>
    (tightLimiter.checkCall (fun _ => 0) call (tightLimiter.runCalls (fun _ => 0) (turnCalls.take n) (.new 0))).1) =
    [true, false, true, false, true, false] := by decide +kernel

end Ironbind
