import Ironbind.CacheReplay
import Ironbind.RecordBounds

/- How long the cache keeps that a name does not exist. The SOA that comes with the answer
   has two limits, its own TTL and the MINIMUM behind its names (`soaMinimum_eq`), and the
   cache adds two of its own, three hours and one second. `documentedTtl` is the least of
   them. What the cache takes is without the TTL of the SOA, so that the entry lives as
   documented if and only if that TTL limits nothing (`negativeLifetime_iff`). -/
namespace Ironbind
open Codec

/-! The MINIMUM field. -/

/-- The MINIMUM of an SOA's data: the last of its fields, or five minutes if they cannot all be read. -/
def minimumField (rdata : Bytes) : UInt32 :=
  match (soaFields rdata 0).1 with
  | .ok (_, _, _, _, _, _, minimum) => minimum
  | .error _ => 300

section
variable {buf : Bytes} {pos stop : Nat} {err : ParseError}

theorem u8_error (h : Parser.u8 buf pos = (.error err, stop)) : buf.length ≤ stop := by
  cases hget : buf[pos]? with
  | some b =>
    have hpeek : Parser.peek buf pos = (.ok b, pos) := by rw [Parser.peek, hget]
    rw [Parser.u8, Reader.bind_ok hpeek] at h
    cases h
  | none =>
    have hpeek : Parser.peek buf pos = (.error .eof, pos) := by rw [Parser.peek, hget]
    rw [Parser.u8, Reader.bind_error hpeek] at h
    cases h
    exact List.getElem?_eq_none_iff.mp hget

theorem u16_error (h : Parser.u16 buf pos = (.error err, stop)) : buf.length ≤ stop := by
  rcases Reader.bind_eq_error h with hhi | ⟨hi, mid, -, h⟩
  · exact u8_error hhi
  · rcases Reader.bind_eq_error h with hlo | ⟨lo, mid', -, h⟩
    · exact u8_error hlo
    · cases h

/-- An integer is not read only where the data ends within it, and then nothing is left. -/
theorem u32_error (h : Parser.u32 buf pos = (.error err, stop)) : buf.length ≤ stop := by
  rcases Reader.bind_eq_error h with hhi | ⟨hi, mid, -, h⟩
  · exact u16_error hhi
  · rcases Reader.bind_eq_error h with hlo | ⟨lo, mid', -, h⟩
    · exact u16_error hlo
    · cases h

theorem u32_at_end (h : buf.length ≤ pos) : Parser.u32 buf pos = (.error .eof, pos) := by
  have hpeek : Parser.peek buf pos = (.error .eof, pos) := by rw [Parser.peek, List.getElem?_eq_none h]
  exact Reader.bind_error (Reader.bind_error (Reader.bind_error hpeek))

/-- Data with nothing left has the default for its MINIMUM, whatever is asked for before it. -/
theorem unwrapOr_at_end (h : buf.length ≤ pos) (fallback : UInt32) :
    Parser.unwrapOr Parser.u32 fallback buf pos = (.ok fallback, pos) := by
  rw [Parser.unwrapOr, u32_at_end h]

end

/-- What is read last, or five minutes. -/
def lastOr {α : Type} (last : α → UInt32) : Except ParseError α → UInt32
  | .ok a => last a
  | .error _ => 300

/-- A reading that goes on with fallbacks, beside one that fails: it ends in the last value of the other, or in five
    minutes if there is none. -/
structure FallsBack {α : Type} (buf : Bytes) (x : Parser UInt32) (y : Parser α) (last : α → UInt32) : Prop where
  agrees : ∀ pos, (x buf pos).1 = .ok (lastOr last (y buf pos).1)
  atEnd : ∀ pos, buf.length ≤ pos → (x buf pos).1 = .ok 300

section
variable {α : Type} {buf : Bytes} {last : α → UInt32}

/-- A field before the last: its fallback is never part of the result, for nothing is left behind it. -/
theorem FallsBack.field {f : UInt32 → Parser UInt32} {g : UInt32 → Parser α} (fallback : UInt32)
    (h : ∀ v, FallsBack buf (f v) (g v) last) :
    FallsBack buf (Parser.unwrapOr Parser.u32 fallback >>= f) (Parser.u32 >>= g) last where
  agrees := by
    intro pos
    cases hread : Parser.u32 buf pos with
    | mk result mid =>
      cases result with
      | ok v =>
        have hunwrap : Parser.unwrapOr Parser.u32 fallback buf pos = (.ok v, mid) := by rw [Parser.unwrapOr, hread]
        rw [Reader.bind_ok hunwrap, Reader.bind_ok hread]
        exact (h v).agrees mid
      | error err =>
        have hunwrap : Parser.unwrapOr Parser.u32 fallback buf pos = (.ok fallback, mid) := by
          rw [Parser.unwrapOr, hread]
        rw [Reader.bind_ok hunwrap, Reader.bind_error hread]
        exact (h fallback).atEnd mid (u32_error hread)
  atEnd := by
    intro pos hend
    rw [Reader.bind_ok (unwrapOr_at_end hend fallback)]
    exact (h fallback).atEnd pos hend

theorem FallsBack.minimum (whole : UInt32 → α) (last : α → UInt32) (hlast : ∀ v, last (whole v) = v) :
    FallsBack buf (Parser.unwrapOr Parser.u32 300) (Parser.u32 >>= fun v => pure (whole v)) last where
  agrees := by
    intro pos
    cases hread : Parser.u32 buf pos with
    | mk result mid =>
      cases result with
      | ok v =>
        rw [Parser.unwrapOr, hread, Reader.bind_ok hread]
        exact congrArg Except.ok (hlast v).symm
      | error err =>
        rw [Parser.unwrapOr, hread, Reader.bind_error hread]
        rfl
  atEnd := by
    intro pos hend
    rw [unwrapOr_at_end hend]

end

/-- The code reads the MINIMUM. -/
theorem soaMinimumTtl_eq (rdata : Bytes) : soaMinimumTtl rdata = minimumField rdata := by
  rw [soaMinimumTtl, minimumField, Reader.run, soaMinimum, soaFields]
  cases hmname : Parser.name rdata 0 with
  | mk result mid =>
    cases result with
    | error err => rw [Reader.bind_error hmname, Reader.bind_error hmname]
    | ok mname =>
      rw [Reader.bind_ok hmname, Reader.bind_ok hmname]
      cases hrname : Parser.name rdata mid with
      | mk result tail =>
        cases result with
        | error err => rw [Reader.bind_error hrname, Reader.bind_error hrname]
        | ok rname =>
          rw [Reader.bind_ok hrname, Reader.bind_ok hrname]
          rw [(FallsBack.field 0 fun serial => .field 0 fun refresh => .field 0 fun retry => .field 0 fun expire =>
            .minimum (fun v => (mname, rname, serial, refresh, retry, expire, v)) (fun fields => fields.2.2.2.2.2.2)
              fun v => rfl).agrees tail]
          generalize (Parser.u32 >>= _) rdata tail = fields
          obtain ⟨fields, stop⟩ := fields
          cases fields <;> rfl

/-! How long the entry lives. -/

/-- The SOA of the authority section. -/
def Packet.soa (p : Packet) : Option Record := p.authority.find? fun r => r.rtype = .SOA

/-- The lifetime that is documented: the least of the TTL of the SOA, its MINIMUM and three hours, and a second if that
    is none. -/
def documentedTtl (soa : Record) : Nat := max 1 (min soa.ttl.toNat (min (minimumField soa.rdata).toNat 10800))

section
variable {σ : Type} (h : Handler σ)

/-- **The entry of a query lives for a second, and for so many seconds at most.** Whatever comes in that second, the name
    is known not to exist; and once the seconds are over nothing is known, unless another query has stored it. -/
structure LivesAtMost (e : ClientQuery) (st : Resolving σ) (q : Question) (seconds : Nat) : Prop where
  atLeast : ∀ between now, (∀ event ∈ between, event.reading < e.clocks.insert + nanosPerSec) →
    now < e.clocks.insert + nanosPerSec →
      ((st.step h (.query e)).run h between).cache.get now q.name q.qtype = some (.Negative .NxDomain)
  atMost : ∀ between now, Untouched h (Cache.key q.name q.qtype) (st.step h (.query e)) between →
    e.clocks.insert + seconds * nanosPerSec ≤ now →
      ((st.step h (.query e)).run h between).cache.get now q.name q.qtype = none

variable {h} {e : ClientQuery} {st : Resolving σ} {pkt : Packet} {q : Question} {upstream : Packet} {s' : σ}
  {soa : Record}

theorem negativeTtl_of_soa (hsoa : upstream.soa = some soa) :
    (negativeTtl h upstream).toNat = max 1 (min (minimumField soa.rdata).toNat 10800) := by
  have hclamp : ∀ minimum : UInt32, (max (min minimum 10800) 1).toNat = max 1 (min minimum.toNat 10800) := by
    intro minimum
    change (if (if minimum ≤ 10800 then minimum else 10800) ≤ 1 then (1 : UInt32)
      else if minimum ≤ 10800 then minimum else 10800).toNat = _
    simp only [UInt32.le_iff_toNat_le]
    have hlimit : (10800 : UInt32).toNat = 10800 := rfl
    split <;> split at * <;> simp only [UInt32.toNat_one, hlimit] at * <;> omega
  have hfind : (upstream.authority.find? fun r => r.rtype = .SOA) = some soa := hsoa
  rw [negativeTtl, hfind, Option.map_some, Option.getD_some, hclamp, soaMinimumTtl_eq]

section
variable (hrec : Recurses h e st pkt q) (hres : h.upstream.resolve q.name q.qtype st.upstream = (.NxDomain upstream, s'))
include hrec hres

/-- The entry of a name that does not exist. -/
theorem lookup_nxDomain : (st.step h (.query e)).cache.lookup (Cache.key q.name q.qtype) =
    some ⟨.Negative .NxDomain, e.clocks.insert + (negativeTtl h upstream).toNat * nanosPerSec,
      negativeTtl h upstream⟩ := by
  rw [step_cache_of_recurses hrec hres]
  exact AList.lookup_insert _

/-- It lives for the seconds the cache gives it, and no longer. -/
theorem livesAtMost_iff {seconds : Nat} :
    LivesAtMost h e st q seconds ↔ 1 ≤ (negativeTtl h upstream).toNat ∧ (negativeTtl h upstream).toNat ≤ seconds := by
  have hentry := lookup_nxDomain hrec hres
  constructor
  · intro hlives
    have hfirst := hlives.atLeast [] (e.clocks.insert + (nanosPerSec - 1)) (fun event hevent => by cases hevent)
      (by rw [nanosPerSec]; omega)
    have hgone := hlives.atMost [] (e.clocks.insert + seconds * nanosPerSec)
      (fun before e after q value ttl heq => by simp at heq) le_rfl
    rw [Resolving.run, List.foldl_nil, Cache.get_of_lookup hentry] at hfirst hgone
    dsimp only at hfirst hgone
    constructor
    · by_contra hzero
      have hnone : (negativeTtl h upstream).toNat = 0 := by omega
      rw [hnone, Nat.zero_mul, if_neg (by omega)] at hfirst
      cases hfirst
    · by_contra hlong
      have hmore : seconds * nanosPerSec < (negativeTtl h upstream).toNat * nanosPerSec :=
        Nat.mul_lt_mul_of_pos_right (by omega) (by decide)
      rw [if_pos (by omega)] at hgone
      cases hgone
  · intro hlife
    obtain ⟨hone, hle⟩ := hlife
    have hsecond : nanosPerSec ≤ (negativeTtl h upstream).toNat * nanosPerSec := Nat.le_mul_of_pos_left _ hone
    constructor
    · intro between now hbetween hnow
      have hstays := lookup_run (h := h) hentry fun event hevent => (hbetween event hevent).trans_le
        (Nat.add_le_add_left hsecond e.clocks.insert)
      rw [Cache.get_of_lookup hstays, if_pos (hnow.trans_le (Nat.add_le_add_left hsecond _))]
    · intro between now huntouched hnow
      cases hlater : ((st.step h (.query e)).run h between).cache.lookup (Cache.key q.name q.qtype) with
      | none => rw [Cache.get, hlater]
      | some entry =>
        -- nothing has been stored since, so what is there is the entry
        obtain rfl := Option.some.inj (hentry.symm.trans (lookup_of_untouched huntouched hlater))
        have hover : (negativeTtl h upstream).toNat * nanosPerSec ≤ seconds * nanosPerSec :=
          Nat.mul_le_mul_right _ hle
        rw [Cache.get_of_lookup hlater, if_neg (Nat.not_lt.mpr ((Nat.add_le_add_left hover _).trans hnow))]

end

end

/-- **When the entry lives as documented.** For every result that a name does not exist, with its SOA, the entry that the
    query stores lives for a second, and for no longer than the TTL of the SOA, its MINIMUM and three hours allow, if and
    only if the TTL is no limit: it is at least the MINIMUM, or at least three hours. -/
theorem negativeLifetime_iff {σ : Type} (h : Handler σ) (e : ClientQuery) (st : Resolving σ) {pkt : Packet} {q : Question}
    {upstream : Packet} {s' : σ} {soa : Record} (hrec : Recurses h e st pkt q)
    (hres : h.upstream.resolve q.name q.qtype st.upstream = (.NxDomain upstream, s')) (hsoa : upstream.soa = some soa) :
    LivesAtMost h e st q (documentedTtl soa) ↔
      (minimumField soa.rdata).toNat ≤ max 1 soa.ttl.toNat ∨ 10800 ≤ soa.ttl.toNat := by
  rw [livesAtMost_iff hrec hres, negativeTtl_of_soa hsoa, documentedTtl]
  omega

/-- The SOA of "com.", to be kept for the first number of seconds, with the second as its MINIMUM. -/
def comSoa (ttl minimum : UInt32) : Record :=
  ⟨com, .SOA, CLASS_IN, ttl, Builder.name com ++ Builder.name com ++ Builder.u32 1 ++ Builder.u32 7200 ++
    Builder.u32 900 ++ Builder.u32 1209600 ++ Builder.u32 minimum⟩

/-- An upstream where no name exists, and the SOA says so. -/
def soaHandler (soa : Record) : Handler Unit :=
  { absentHandler with
    upstream := ⟨fun _ _ s => (.NxDomain { upstreamReply [] [] with flags := 0x8183, authority := [soa] }, s), comFetch⟩ }

theorem soaHandler_recurses (soa : Record) : Recurses (soaHandler soa) (wwwClient false) (.start ()) (wwwQuery false)
    ⟨wwwCom, .A, CLASS_IN⟩ where
  asks := ⟨by decide, by decide, fun hrequired => Bool.false_ne_true hrequired.1, wwwClient_parse false, rfl, rfl,
    rfl⟩
  zone := rfl
  allowed := rfl
  missed := rfl
  desired := rfl
  notDeferred := by decide

/-- An SOA whose TTL is the greater: five minutes, as its MINIMUM has it. -/
theorem fiveMinutes_lives : LivesAtMost (soaHandler (comSoa 900 300)) (wwwClient false) (.start ())
    ⟨wwwCom, .A, CLASS_IN⟩ (documentedTtl (comSoa 900 300)) := by
  have hminimum : minimumField (comSoa 900 300).rdata = 300 := by decide
  refine (negativeLifetime_iff _ _ _ (soaHandler_recurses _) rfl rfl).mpr (.inl ?_)
  rw [hminimum]
  decide

/-- An SOA to be kept for a minute: the entry lives for the hour of its MINIMUM. -/
theorem oneMinute_overstays : documentedTtl (comSoa 60 3600) = 60 ∧
    ¬ LivesAtMost (soaHandler (comSoa 60 3600)) (wwwClient false) (.start ()) ⟨wwwCom, .A, CLASS_IN⟩
      (documentedTtl (comSoa 60 3600)) := by
  have hminimum : minimumField (comSoa 60 3600).rdata = 3600 := by decide
  have hdocumented : documentedTtl (comSoa 60 3600) = 60 := by
    rw [documentedTtl, hminimum]
    rfl
  refine ⟨hdocumented, fun hlives => ?_⟩
  have hentry := (livesAtMost_iff (soaHandler_recurses (comSoa 60 3600)) rfl).mp hlives
  rw [negativeTtl_of_soa rfl, hminimum, hdocumented] at hentry
  exact absurd hentry.2 (by decide)

end Ironbind
