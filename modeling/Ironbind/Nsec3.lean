import Ironbind.DenialProof
import Ironbind.Forwarding
import Ironbind.Lib.Circle
import Ironbind.Lib.Positional

/- Denial by NSEC3. The records of a chain are owned by hashes in base32hex, and the server
   looks for the one that covers a name among their texts. The text of a hash is its number
   with digits of five bits (`base32Loop_digits`), and the alphabet is in order, so texts are
   in order as hashes are (`base32hex_lt_iff`). With a chain that is closed, whatever order
   the zone is walked in, the record that is sent is that of the name's own hash, or the
   name's hash lies on its arc and is none of the chain's (`handleQuery_nsec3`). -/
namespace Ironbind
open Codec Positional

/-! Base32hex. -/

/-- The character of a digit. -/
def base32Digit (d : Nat) : Char := base32Alphabet.getD d '0'

theorem shifted_toNat {buf : UInt32} {k : Nat} (h : k < 32) :
    ((buf >>> UInt32.ofNat k) &&& 0x1f).toNat = buf.toNat / 2 ^ k % 32 := by
  rw [UInt32.toNat_and, UInt32.toNat_shiftRight, UInt32.toNat_ofNat_of_lt' (by unfold UInt32.size; omega),
    Nat.mod_eq_of_lt h, Nat.shiftRight_eq_div_pow]
  exact Nat.and_two_pow_sub_one_eq_mod _ 5

/-- The digits that are ready stand for the bits in front of the last ones. -/
def EmitsDigits (buf : UInt32) (fuel bits : Nat) : Prop :=
  ∃ ds : List Nat, base32Emit buf fuel bits = (ds.map base32Digit, bits % 5) ∧ ds.length = bits / 5 ∧
    (∀ d ∈ ds, d < 32) ∧ value 32 ds * 2 ^ (bits % 5) + buf.toNat % 2 ^ (bits % 5) = buf.toNat % 2 ^ bits

theorem emitsDigits_of_lt (buf : UInt32) (fuel : Nat) {bits : Nat} (h : bits < 5) : EmitsDigits buf fuel bits := by
  have hmod : bits % 5 = bits := Nat.mod_eq_of_lt h
  refine ⟨[], ?_, (Nat.div_eq_of_lt h).symm, fun d hd => absurd hd List.not_mem_nil, ?_⟩
  · cases fuel with
    | zero => rw [base32Emit, hmod, List.map_nil]
    | succ fuel => rw [base32Emit, if_neg (by omega), hmod, List.map_nil]
  · rw [hmod, value_nil, Nat.zero_mul, Nat.zero_add]

theorem emitsDigits (buf : UInt32) : ∀ (fuel bits : Nat), bits < 5 * (fuel + 1) → bits < 32 → EmitsDigits buf fuel bits
  | 0, _, h, _ => emitsDigits_of_lt buf 0 h
  | fuel + 1, bits, h, hbits => by
    by_cases h5 : bits ≥ 5
    · obtain ⟨ds, hemit, hlen, hlt, hvalue⟩ := emitsDigits buf fuel (bits - 5) (by omega) (by omega)
      have hmod : (bits - 5) % 5 = bits % 5 := by omega
      rw [hmod] at hvalue
      refine ⟨buf.toNat / 2 ^ (bits - 5) % 32 :: ds, ?_, ?_, ?_, ?_⟩
      · rw [base32Emit, if_pos h5, hemit, hmod, shifted_toNat (by omega)]
        rfl
      · rw [List.length_cons, hlen]
        omega
      · exact List.forall_mem_cons.mpr ⟨Nat.mod_lt _ (by decide), hlt⟩
      · have hwidth : 5 * ds.length + bits % 5 = bits - 5 := by omega
        have hpow : 32 ^ ds.length * 2 ^ (bits % 5) = 2 ^ (bits - 5) := by
          rw [show (32 : Nat) = 2 ^ 5 from rfl, ← Nat.pow_mul, ← Nat.pow_add, hwidth]
        have hbits' : 2 ^ bits = 2 ^ (bits - 5) * 32 := by
          rw [show (32 : Nat) = 2 ^ 5 from rfl, ← Nat.pow_add, Nat.sub_add_cancel h5]
        calc value 32 (buf.toNat / 2 ^ (bits - 5) % 32 :: ds) * 2 ^ (bits % 5) + buf.toNat % 2 ^ (bits % 5)
            = buf.toNat / 2 ^ (bits - 5) % 32 * 2 ^ (bits - 5) +
                (value 32 ds * 2 ^ (bits % 5) + buf.toNat % 2 ^ (bits % 5)) := by
              rw [value_cons, Nat.add_mul, Nat.mul_assoc, hpow, Nat.add_assoc]
          _ = buf.toNat / 2 ^ (bits - 5) % 32 * 2 ^ (bits - 5) + buf.toNat % 2 ^ (bits - 5) := by rw [hvalue]
          _ = buf.toNat % 2 ^ bits := by rw [hbits', Nat.mod_mul, Nat.mul_comm, Nat.add_comm]
    · exact emitsDigits_of_lt buf _ (by omega)

/-- The buffer with one more octet. -/
theorem pushed_mod (buf : UInt32) (b : UInt8) (bits : Nat) (h : bits ≤ 4) :
    ((buf <<< 8) ||| b.toUInt32).toNat % 2 ^ (bits + 8) = buf.toNat % 2 ^ bits * 256 + b.toNat := by
  have hshift : (buf <<< 8).toNat = buf.toNat % 2 ^ 24 * 2 ^ 8 := by
    rw [UInt32.toNat_shiftLeft, Nat.shiftLeft_eq]
    exact Nat.mul_mod_mul_right (2 ^ 8) buf.toNat (2 ^ 24)
  have hdvd : 2 ^ bits ∣ 2 ^ 24 := Nat.pow_dvd_pow 2 (by omega)
  have hlt : b.toNat < 256 := b.toNat_lt
  have hlow : (buf.toNat % 2 ^ 24 * 2 ^ 8 + b.toNat) % 256 = b.toNat := by omega
  have hhigh : (buf.toNat % 2 ^ 24 * 2 ^ 8 + b.toNat) / 256 = buf.toNat % 2 ^ 24 := by omega
  rw [UInt32.toNat_or, hshift, UInt8.toNat_toUInt32, Base64.or_shift 8 hlt, Nat.pow_add, Nat.mul_comm (2 ^ bits),
    show (2 : Nat) ^ 8 = 256 from rfl, Nat.mod_mul]
  rw [show (2 : Nat) ^ 8 = 256 from rfl] at hlow hhigh
  rw [hlow, hhigh, Nat.mod_mod_of_dvd _ hdvd, Nat.mul_comm, Nat.add_comm]

/-- The bits that are left over, with zeros behind them. -/
theorem padded_toNat (buf : UInt32) {bits : Nat} (h : bits ≤ 4) :
    ((buf <<< UInt32.ofNat (5 - bits)) &&& 0x1f).toNat = buf.toNat % 2 ^ bits * 2 ^ (5 - bits) := by
  have hand : (31 : UInt32).toNat = 2 ^ 5 - 1 := rfl
  have h32 : 2 ^ bits * 2 ^ (5 - bits) = 2 ^ 5 := by
    rw [← Nat.pow_add]
    congr 1
    omega
  rw [UInt32.toNat_and, UInt32.toNat_shiftLeft, UInt32.toNat_ofNat_of_lt' (by unfold UInt32.size; omega),
    Nat.mod_eq_of_lt (show 5 - bits < 32 by omega), Nat.shiftLeft_eq, hand, Nat.and_two_pow_sub_one_eq_mod,
    Nat.mod_mod_of_dvd _ (Nat.pow_dvd_pow 2 (by decide)), ← h32, Nat.mul_mod_mul_right]

/-- **The text is the number of the octets, with digits of five bits** and zeros up to a whole digit. -/
theorem base32Loop_digits : ∀ (input : Bytes) (buf : UInt32) (bits : Nat), bits ≤ 4 →
    ∃ ds : List Nat, base32Loop buf bits input = ds.map base32Digit ∧ ds.length = (bits + 8 * input.length + 4) / 5 ∧
      (∀ d ∈ ds, d < 32) ∧ value 32 ds =
        (buf.toNat % 2 ^ bits * 256 ^ input.length + value 256 (input.map UInt8.toNat)) *
          2 ^ (5 * ds.length - (bits + 8 * input.length))
  | [], buf, bits, h => by
    by_cases hbits : bits > 0
    · have hdigit := padded_toNat buf h
      have h32 : 2 ^ bits * 2 ^ (5 - bits) = 32 := by
        rw [← Nat.pow_add, show bits + (5 - bits) = 5 by omega]
      refine ⟨[buf.toNat % 2 ^ bits * 2 ^ (5 - bits)], ?_, ?_, ?_, ?_⟩
      · rw [base32Loop, if_pos hbits, hdigit]
        rfl
      · rw [List.length_singleton, List.length_nil]
        omega
      · intro d hd
        rw [List.mem_singleton.mp hd, ← h32]
        exact Nat.mul_lt_mul_of_pos_right (Nat.mod_lt _ (Nat.two_pow_pos _)) (Nat.two_pow_pos _)
      · simp
    · obtain rfl : bits = 0 := by omega
      exact ⟨[], by rw [base32Loop, if_neg hbits, List.map_nil], rfl, fun d hd => absurd hd List.not_mem_nil,
        by simp [Nat.mod_one]⟩
  | b :: input, buf, bits, h => by
    obtain ⟨ds, hemit, hlen, hlt, hvalue⟩ :=
      emitsDigits ((buf <<< 8) ||| b.toUInt32) 2 (bits + 8) (by omega) (by omega)
    obtain ⟨es, hloop, hlen', hlt', hvalue'⟩ :=
      base32Loop_digits input ((buf <<< 8) ||| b.toUInt32) ((bits + 8) % 5) (by omega)
    have hpushed := pushed_mod buf b bits h
    rw [← hvalue] at hpushed
    -- `ds` are the whole digits of the octet, `es` those of what is left of it and of the rest
    refine ⟨ds ++ es, ?_, ?_, ?_, ?_⟩
    · rw [base32Loop, hemit, hloop, List.map_append]
    · rw [List.length_append, hlen, hlen', List.length_cons]
      omega
    · intro d hd
      exact (List.mem_append.mp hd).elim (hlt d) (hlt' d)
    · have hpad : 5 * (ds ++ es).length - (bits + 8 * (b :: input).length) =
          5 * es.length - ((bits + 8) % 5 + 8 * input.length) := by
        rw [List.length_append, List.length_cons, hlen, hlen']
        omega
      have hwidth : 32 ^ es.length = 2 ^ ((bits + 8) % 5) * 256 ^ input.length *
          2 ^ (5 * es.length - ((bits + 8) % 5 + 8 * input.length)) := by
        rw [show (32 : Nat) = 2 ^ 5 from rfl, show (256 : Nat) = 2 ^ 8 from rfl, ← Nat.pow_mul, ← Nat.pow_mul,
          ← Nat.pow_add, ← Nat.pow_add]
        congr 1
        omega
      rw [hpad, value_append, hvalue', hwidth, List.map_cons, value_cons, List.length_map, List.length_cons, Nat.pow_succ']
      generalize 2 ^ (5 * es.length - ((bits + 8) % 5 + 8 * input.length)) = pad
      generalize 256 ^ input.length = width at *
      generalize value 256 (input.map UInt8.toNat) = rest
      calc value 32 ds * (2 ^ ((bits + 8) % 5) * width * pad) +
            (((buf <<< 8) ||| b.toUInt32).toNat % 2 ^ ((bits + 8) % 5) * width + rest) * pad
          = ((value 32 ds * 2 ^ ((bits + 8) % 5) + ((buf <<< 8) ||| b.toUInt32).toNat % 2 ^ ((bits + 8) % 5)) * width +
              rest) * pad := by ring
        _ = ((buf.toNat % 2 ^ bits * 256 + b.toNat) * width + rest) * pad := by rw [hpushed]
        _ = (buf.toNat % 2 ^ bits * (256 * width) + (b.toNat * width + rest)) * pad := by ring

/-- The octet of a digit. -/
def base32Octet (d : Nat) : UInt8 := (String.utf8EncodeChar (base32Digit d)).headD 0

theorem base32Octet_lt : ∀ d e : Fin 32, d < e → base32Octet d < base32Octet e := by decide

theorem base32Octet_strictMono : StrictMonoOn base32Octet {d | d < 32} := by
  intro d hd e he hde
  exact base32Octet_lt ⟨d, hd⟩ ⟨e, he⟩ hde

theorem utf8_base32Digit : ∀ d : Fin 32, String.utf8EncodeChar (base32Digit d) = [base32Octet d] := by decide

theorem utf8_digits : ∀ {ds : List Nat}, (∀ d ∈ ds, d < 32) → utf8 (ds.map base32Digit) = ds.map base32Octet
  | [], _ => rfl
  | d :: ds, h => by
    rw [List.map_cons, utf8_cons, utf8_base32Digit ⟨d, h d List.mem_cons_self⟩,
      utf8_digits fun e he => h e (List.mem_cons_of_mem _ he)]
    rfl

theorem toNat_strictMono : StrictMonoOn UInt8.toNat Set.univ := fun _ _ _ _ h => UInt8.lt_iff_toNat_lt.mp h

/-- **Texts of hashes are in order as the hashes are.** -/
theorem base32hex_lt_iff {a b : Bytes} (hlen : a.length = b.length) :
    utf8 (base32hexEncode a) < utf8 (base32hexEncode b) ↔ a < b := by
  obtain ⟨ds, hds, hdlen, hdlt, hdvalue⟩ := base32Loop_digits a 0 0 (by decide)
  obtain ⟨es, hes, helen, helt, hevalue⟩ := base32Loop_digits b 0 0 (by decide)
  have hsame : ds.length = es.length := by rw [hdlen, helen, hlen]
  have hpad : 0 < 2 ^ (5 * es.length - (0 + 8 * b.length)) := Nat.two_pow_pos _
  have hoctets : ∀ l : Bytes, ∀ d ∈ l.map UInt8.toNat, d < 256 := by
    intro l d hd
    obtain ⟨x, -, rfl⟩ := List.mem_map.mp hd
    exact x.toNat_lt
  rw [hsame, hlen, Nat.pow_zero, Nat.mod_one, Nat.zero_mul, Nat.zero_add] at hdvalue
  rw [Nat.pow_zero, Nat.mod_one, Nat.zero_mul, Nat.zero_add] at hevalue
  calc utf8 (base32hexEncode a) < utf8 (base32hexEncode b)
      ↔ ds.map base32Octet < es.map base32Octet := by
        rw [base32hexEncode, base32hexEncode, hds, hes, utf8_digits hdlt, utf8_digits helt]
    _ ↔ ds < es := map_lt_map_iff base32Octet_strictMono hdlt helt
    _ ↔ value 32 ds < value 32 es := lt_iff_value_lt (by decide) hsame hdlt helt
    _ ↔ value 256 (a.map UInt8.toNat) < value 256 (b.map UInt8.toNat) := by
        rw [hdvalue, hevalue, Nat.mul_lt_mul_right hpad]
    _ ↔ a.map UInt8.toNat < b.map UInt8.toNat :=
        (lt_iff_value_lt (by decide) (by rw [List.length_map, List.length_map, hlen]) (hoctets a) (hoctets b)).symm
    _ ↔ a < b := map_lt_map_iff toNat_strictMono (fun _ _ => trivial) fun _ _ => trivial

theorem base32hex_le_iff {a b : Bytes} (hlen : a.length = b.length) :
    utf8 (base32hexEncode a) ≤ utf8 (base32hexEncode b) ↔ a ≤ b := by
  rw [← not_lt, ← not_lt, base32hex_lt_iff hlen.symm]

/-! Chains of hashes. -/

/-- The next hash of an NSEC3 record, behind its parameters and its length. -/
def nextHash (rdata : Bytes) : Option Bytes :=
  (Nsec3Params.parse rdata).bind fun params =>
    match rdata.drop (5 + params.salt.length) with
    | [] => none
    | len :: rest => if rest.length < len.toNat then none else some (rest.take len.toNat)

/-- The record stands for the arc from one hash to another. -/
structure Nsec3Link (r : Record) (hash next : Bytes) : Prop where
  owner : Zone.nsec3Label r.name = base32hexEncode hash
  next : nextHash r.rdata = some next
  length : hash.length = 20

/-- A record of the zone is owned by the hash. -/
def OwnsHash (z : Zone) (hash : Bytes) : Prop :=
  ∃ r next, z.Holds r ∧ r.rtype = .NSEC3 ∧ Nsec3Link r hash next

/-- Each record of the chain points to a hash of the chain. -/
structure Nsec3Chain (z : Zone) : Prop where
  nonempty : ∃ r, z.Holds r ∧ r.rtype = .NSEC3
  links : ∀ r, z.Holds r → r.rtype = .NSEC3 → ∃ hash next, Nsec3Link r hash next ∧ OwnsHash z next

/-- The walk stops at the last record that is not past the target. -/
theorem nsec3Walk_split (target : Text) : ∀ (entries : List (Text × Record)) (prev : Record),
    (entries.Pairwise fun a b => utf8 a.1 ≤ utf8 b.1) → ∃ before after, entries = before ++ after ∧
      (∀ e ∈ before, utf8 e.1 ≤ utf8 target) ∧ (∀ e ∈ after, utf8 target < utf8 e.1) ∧
      Zone.nsec3Walk target prev entries = ((before.getLast?).map fun e => e.2).getD prev
  | [], prev, _ => ⟨[], [], rfl, fun e he => absurd he List.not_mem_nil, fun e he => absurd he List.not_mem_nil, rfl⟩
  | e :: entries, prev, hsorted => by
    obtain ⟨hfirst, hrest⟩ := List.pairwise_cons.mp hsorted
    by_cases hpast : utf8 target < utf8 e.1
    · refine ⟨[], e :: entries, rfl, fun e he => absurd he List.not_mem_nil, ?_, ?_⟩
      · intro e' he'
        rcases List.mem_cons.mp he' with rfl | he'
        · exact hpast
        · exact lt_of_lt_of_le hpast (hfirst e' he')
      · rw [Zone.nsec3Walk, if_pos hpast]
        rfl
    · obtain ⟨before, after, rfl, hbefore, hafter, hwalk⟩ := nsec3Walk_split target entries e.2 hrest
      refine ⟨e :: before, after, rfl, List.forall_mem_cons.mpr ⟨not_lt.mp hpast, hbefore⟩, hafter, ?_⟩
      rw [Zone.nsec3Walk, if_neg hpast, hwalk]
      cases before with
      | nil => rfl
      | cons e' before => rw [List.getLast?_cons_cons]; rfl

theorem hashName_length {c : Crypto} (hsha : ∀ m, (c.sha1 m).length = 20) (params : Nsec3Params) (name : Text) :
    (params.hashName c name).length = 20 := by
  have hfold : ∀ (l : List Unit) (start : Bytes), start.length = 20 →
      (l.foldl (fun hash _ => c.sha1 (hash ++ params.salt)) start).length = 20 := by
    intro l
    induction l with
    | nil => exact fun start h => h
    | cons u l ih => exact fun start _ => ih _ (hsha _)
  exact hfold _ _ (hsha _)

/-- The record tells of the name's hash: it is the record's own, or it lies on the record's arc and is no hash of
    the chain. -/
def TellsOf (z : Zone) (r : Record) (target : Bytes) : Prop :=
  ∃ hash next, Nsec3Link r hash next ∧ (hash = target ∨ Circle.Between hash next target ∧ ¬ OwnsHash z target)

section
variable {z : Zone} {r : Record} {hash next target : Bytes} (hlink : Nsec3Link r hash next) (hnext : OwnsHash z next)
include hlink hnext

/-- The record of the last hash that is not past the target. -/
theorem tellsOf_last (hle : hash ≤ target) (hothers : ∀ o, OwnsHash z o → o ≤ hash ∨ target < o) : TellsOf z r target := by
  rcases hle.eq_or_lt with heq | hlt
  · exact ⟨hash, next, hlink, .inl heq⟩
  · refine ⟨hash, next, hlink, .inr ⟨?_, fun howns => ?_⟩⟩
    · by_cases h : hash < next
      · rw [Circle.Between, if_pos h]
        exact ⟨hlt, (hothers next hnext).resolve_left (not_le.mpr h)⟩
      · rw [Circle.Between, if_neg h]
        exact .inl hlt
    · rcases hothers target howns with h | h
      · exact not_le.mpr hlt h
      · exact lt_irrefl _ h

/-- All hashes are past the target: the arc of the last of them goes over the turn. -/
theorem tellsOf_turn (hothers : ∀ o, OwnsHash z o → o ≤ hash ∧ target < o) : TellsOf z r target := by
  obtain ⟨hle, hpast⟩ := hothers next hnext
  refine ⟨hash, next, hlink, .inr ⟨?_, fun howns => lt_irrefl _ (hothers target howns).2⟩⟩
  rw [Circle.Between, if_neg (not_lt.mpr hle)]
  exact .inr hpast

end

theorem le_last {init : List (Text × Record)} {e : Text × Record}
    (hsorted : (init ++ [e]).Pairwise fun a b => utf8 a.1 ≤ utf8 b.1) : ∀ e' ∈ init ++ [e], utf8 e'.1 ≤ utf8 e.1 := by
  intro e' he'
  rcases List.mem_append.mp he' with h | h
  · exact (List.pairwise_append.mp hsorted).2.2 e' h e (List.mem_singleton.mpr rfl)
  · rw [List.mem_singleton.mp h]

/-- The walk over the sorted records of a chain ends at one that tells of the target. -/
theorem tellsOf_walk {z : Zone} {entries : List (Text × Record)} {target : Bytes} (hchain : Nsec3Chain z)
    (hmem : ∀ e, e ∈ entries ↔ ∃ r, z.Holds r ∧ r.rtype = .NSEC3 ∧ e = (Zone.nsec3Label r.name, r))
    (hsorted : entries.Pairwise fun a b => utf8 a.1 ≤ utf8 b.1) (hlength : target.length = 20) {last : Text × Record}
    (hlast : entries.getLast? = some last) :
    ∃ r, Zone.nsec3Walk (base32hexEncode target) last.2 entries = r ∧ z.Holds r ∧ r.rtype = .NSEC3 ∧
      TellsOf z r target := by
  have hentry : ∀ e ∈ entries, ∃ hash next, z.Holds e.2 ∧ e.2.rtype = .NSEC3 ∧ Nsec3Link e.2 hash next ∧
      OwnsHash z next ∧ e.1 = base32hexEncode hash := by
    intro e he
    obtain ⟨r, hr, htype, rfl⟩ := (hmem e).mp he
    obtain ⟨hash, next, hlink, hnext⟩ := hchain.links r hr htype
    exact ⟨hash, next, hr, htype, hlink, hnext, hlink.owner⟩
  have howner : ∀ o, OwnsHash z o → o.length = 20 ∧ ∃ e ∈ entries, e.1 = base32hexEncode o := by
    rintro o ⟨r, next, hr, htype, hlink⟩
    exact ⟨hlink.length, (Zone.nsec3Label r.name, r), (hmem _).mpr ⟨r, hr, htype, rfl⟩, hlink.owner⟩
  obtain ⟨before, after, rfl, hbefore, hafter, hwalk⟩ :=
    nsec3Walk_split (base32hexEncode target) entries last.2 hsorted
  have hpast : ∀ e ∈ after, ∀ o, o.length = 20 → e.1 = base32hexEncode o → target < o := by
    intro e he o hlen htext
    have h := hafter e he
    rwa [htext, base32hex_lt_iff (hlength.trans hlen.symm)] at h
  rcases List.eq_nil_or_concat before with rfl | ⟨init, e, hconcat⟩
  · -- every record is past the target, and the walk ends where it began
    rw [List.nil_append] at hlast hsorted hentry howner hwalk
    obtain ⟨hash, next, hr, htype, hlink, hnext, htext⟩ := hentry last (List.mem_of_getLast? hlast)
    obtain ⟨init, rfl⟩ := List.getLast?_eq_some_iff.mp hlast
    refine ⟨last.2, hwalk, hr, htype, tellsOf_turn hlink hnext fun o ho => ?_⟩
    obtain ⟨hlen, e, he, htext'⟩ := howner o ho
    have hle := le_last hsorted e he
    rw [htext, htext', base32hex_le_iff (hlen.trans hlink.length.symm)] at hle
    exact ⟨hle, hpast e he o hlen htext'⟩
  · rw [List.concat_eq_append] at hconcat
    subst hconcat
    have hlastBefore : e ∈ init ++ [e] := List.mem_append_right _ (List.mem_singleton.mpr rfl)
    obtain ⟨hash, next, hr, htype, hlink, hnext, htext⟩ := hentry e (List.mem_append_left _ hlastBefore)
    have hle := hbefore e hlastBefore
    rw [htext, base32hex_le_iff (hlink.length.trans hlength.symm)] at hle
    have hstop : Zone.nsec3Walk (base32hexEncode target) last.2 (init ++ [e] ++ after) = e.2 := by
      rw [hwalk, List.getLast?_concat, Option.map_some, Option.getD_some]
    refine ⟨e.2, hstop, hr, htype, tellsOf_last hlink hnext hle fun o ho => ?_⟩
    obtain ⟨hlen, e', he', htext'⟩ := howner o ho
    rcases List.mem_append.mp he' with h | h
    · have hle' := le_last (List.pairwise_append.mp hsorted).1 e' h
      rw [htext, htext', base32hex_le_iff (hlen.trans hlink.length.symm)] at hle'
      exact .inl hle'
    · exact .inr (hpast e' h o hlen htext')

theorem sorted_entries (entries : List (Text × Record)) :
    (entries.insertionSort fun a b => utf8 a.1 ≤ utf8 b.1).Pairwise fun a b => utf8 a.1 ≤ utf8 b.1 := by
  have htotal : Std.Total fun a b : Text × Record => utf8 a.1 ≤ utf8 b.1 := ⟨fun a b => le_total _ _⟩
  have htrans : IsTrans (Text × Record) fun a b => utf8 a.1 ≤ utf8 b.1 := ⟨fun a b c => le_trans⟩
  exact List.pairwise_insertionSort _ entries

theorem nsec3Covering_tells {c : Crypto} (hsha : ∀ m, (c.sha1 m).length = 20) {z : Zone} (hchain : Nsec3Chain z)
    {params : Nsec3Params} (hparams : z.nsec3Params = some params) (ho : HashOrder) (name : Text) :
    ∃ r, z.nsec3Covering c ho name = some r ∧ z.Holds r ∧ r.rtype = .NSEC3 ∧ TellsOf z r (params.hashName c name) := by
  have hmem : ∀ e, e ∈ (((z.iterRrsets ho).flatten.filter fun r => r.rtype = .NSEC3).map fun r =>
      (Zone.nsec3Label r.name, r)).insertionSort (fun a b => utf8 a.1 ≤ utf8 b.1) ↔
      ∃ r, z.Holds r ∧ r.rtype = .NSEC3 ∧ e = (Zone.nsec3Label r.name, r) := by
    intro e
    rw [(List.perm_insertionSort _ _).mem_iff, List.mem_map]
    refine exists_congr fun r => ?_
    rw [List.mem_filter, Zone.mem_flatten_iterRrsets, decide_eq_true_eq, and_assoc, @eq_comm _ e]
  have hsorted := sorted_entries (((z.iterRrsets ho).flatten.filter fun r => r.rtype = .NSEC3).map fun r =>
    (Zone.nsec3Label r.name, r))
  rw [Zone.nsec3Covering, hparams]
  simp only [Option.bind_eq_bind, Option.bind_some, Option.pure_def]
  generalize (((z.iterRrsets ho).flatten.filter fun r => r.rtype = .NSEC3).map fun r =>
    (Zone.nsec3Label r.name, r)).insertionSort (fun a b => utf8 a.1 ≤ utf8 b.1) = entries at hmem hsorted ⊢
  obtain ⟨r, hr, htype⟩ := hchain.nonempty
  have hne : entries ≠ [] := List.ne_nil_of_mem ((hmem _).mpr ⟨r, hr, htype, rfl⟩)
  have hlast := List.getLast?_eq_some_getLast hne
  obtain ⟨r, hwalk, hfound⟩ := tellsOf_walk hchain hmem hsorted (hashName_length hsha params name) hlast
  exact ⟨r, by rw [hlast, Option.bind_some, hwalk], hfound⟩

/-- What is sent for a name that does not exist. -/
theorem nxDomainProof_tells {c : Crypto} (hsha : ∀ m, (c.sha1 m).length = 20) {z : Zone} (hchain : Nsec3Chain z)
    {params : Nsec3Params} (hparams : z.nsec3Params = some params) (ho : HashOrder) (name : Text) :
    ∃ r, nxDomainProof c ho z name = [r] ∧ z.Holds r ∧ r.rtype = .NSEC3 ∧ TellsOf z r (params.hashName c name) := by
  obtain ⟨r, hcovering, hfound⟩ := nsec3Covering_tells hsha hchain hparams ho name
  exact ⟨r, by rw [nxDomainProof, hcovering], hfound⟩

/-- **NXDOMAIN with NSEC3.** A client with the DO bit that is told of a name of a zone with a closed chain of hashes
    that it does not exist gets the SOA and exactly one record of the chain, in whatever order the records are met: it
    is that of the hash of the name that does not exist, or the hash lies on its arc and has no record. -/
theorem handleQuery_nsec3 {σ : Type} (h : Handler σ) (zones : List Zone) (clocks : Clocks) (peer : IpAddr)
    (recursion : Recursion) (data : Bytes) (cache : Cache) (s : σ) {z : Zone} {pkt : Packet} {q : Question}
    {params : Nsec3Params} (hsha : ∀ m, (h.crypto.sha1 m).length = 20) (hchain : Nsec3Chain z)
    (hparams : z.nsec3Params = some params) (hask : Asks h clocks data pkt q) (hdo : pkt.dnssecOk = true)
    (hzone : authoritativeZone zones q.name = some z) {p : Packet} {edns : Bool}
    (hreply : (handleQuery h zones clocks peer recursion data cache s).response = .reply p edns)
    (hrcode : p.rcode = RCODE_NXDOMAIN) :
    ∃ last r, z.Denies q.qtype q.name last ∧ z.nameExists last = false ∧ p.authority = soaAuthority z true ++ [r] ∧
      z.Holds r ∧ r.rtype = .NSEC3 ∧ TellsOf z r (params.hashName h.crypto last) := by
  rw [handleQuery_of_zone hask hzone] at hreply
  obtain ⟨rfl, -⟩ := Response.reply.inj hreply
  obtain ⟨last, hdenies, hexists⟩ := zoneAnswer_nxDomain_iff.mp hrcode
  obtain ⟨r, hproof, hfound⟩ := nxDomainProof_tells hsha hchain hparams h.hashOrder last
  refine ⟨last, r, hdenies, hexists, ?_, hfound⟩
  rw [(zoneAnswer_nxDomain hdenies hexists).2, hdo, if_pos rfl, hproof]

/-! A chain of three hashes. -/

def lengthSha : Crypto := { sampleCrypto with sha1 := fun m => List.replicate 20 (UInt8.ofNat m.length) }

/-- The hash of a name of so many octets. -/
def lengthHash (n : Nat) : Bytes := List.replicate 20 (UInt8.ofNat n)

def hashRecord (n next : Nat) : Record :=
  ⟨base32hexEncode (lengthHash n) ++ ['.', 'x'], .NSEC3, CLASS_IN, 3600, [1, 0, 0, 0, 0, 20] ++ lengthHash next⟩

def hashParams : Record := ⟨['x'], .NSEC3PARAM, CLASS_IN, 3600, [1, 0, 0, 0, 0]⟩

/-- The records come in no order, and the last hash points over the turn. -/
def hashZone : Zone :=
  [apexSoa, hashRecord 8 3, hashParams, hashRecord 3 6, hashRecord 6 8].foldl Zone.add (Zone.new ['x'])

theorem hashRecord_link : ∀ arc ∈ [(8, 3), (3, 6), (6, 8)],
    Nsec3Link (hashRecord arc.1 arc.2) (lengthHash arc.1) (lengthHash arc.2) := by
  have hlinks : ∀ arc ∈ [(8, 3), (3, 6), (6, 8)],
      Zone.nsec3Label (hashRecord arc.1 arc.2).name = base32hexEncode (lengthHash arc.1) ∧
        nextHash (hashRecord arc.1 arc.2).rdata = some (lengthHash arc.2) := by decide
  exact fun arc harc => ⟨(hlinks arc harc).1, (hlinks arc harc).2, List.length_replicate⟩

theorem hashZone_owns : ∀ arc ∈ [(8, 3), (3, 6), (6, 8)], hashZone.Holds (hashRecord arc.1 arc.2) ∧
    OwnsHash hashZone (lengthHash arc.1) := by
  have hlookup : ∀ arc ∈ [(8, 3), (3, 6), (6, 8)],
      hashZone.lookup (hashRecord arc.1 arc.2).name .NSEC3 = some [hashRecord arc.1 arc.2] := by decide
  intro arc harc
  have hholds := Zone.holds_of_lookup (hlookup arc harc) (List.mem_singleton.mpr rfl)
  exact ⟨hholds, _, _, hholds, rfl, hashRecord_link arc harc⟩

theorem hashZone_chain : Nsec3Chain hashZone where
  nonempty := ⟨hashRecord 8 3, (hashZone_owns (8, 3) (by decide)).1, rfl⟩
  links := by
    intro r hr htype
    obtain ⟨k, rs, hk, hmem⟩ := hr
    have hrecords : r ∈ hashZone.recordsAt k := by rwa [Zone.recordsAt, hk]
    rw [hashZone, Zone.recordsAt_foldl_add, List.mem_append] at hrecords
    rcases hrecords with hnew | hadded
    · cases hnew
    · -- each of the three arcs ends at the next
      have hadded := (List.mem_filter.mp hadded).1
      simp only [List.mem_cons, List.not_mem_nil, or_false] at hadded
      rcases hadded with rfl | rfl | rfl | rfl | rfl
      · cases htype
      · exact ⟨_, _, hashRecord_link (8, 3) (by decide), (hashZone_owns (3, 6) (by decide)).2⟩
      · cases htype
      · exact ⟨_, _, hashRecord_link (3, 6) (by decide), (hashZone_owns (6, 8) (by decide)).2⟩
      · exact ⟨_, _, hashRecord_link (6, 8) (by decide), (hashZone_owns (8, 3) (by decide)).2⟩

theorem hashZone_params : hashZone.nsec3Params = some ⟨1, 0, 0, []⟩ := by
  have hlookup : hashZone.lookup hashZone.origin .NSEC3PARAM = some [hashParams] := by decide
  rw [Zone.nsec3Params, hlookup]
  rfl

def hashHandler : Handler Unit := { plainHandler with crypto := lengthSha }

/-- What the client is told of a name in its zone. -/
def HashTold (name : Text) : Prop :=
  ∃ p edns, (handleQuery hashHandler [hashZone] noClocks (.V4 0) .Inline (queryBytes 7 name .A true) .new ()).response =
      .reply p edns ∧
    ∃ last r, hashZone.Denies .A name last ∧ hashZone.nameExists last = false ∧
      p.authority = soaAuthority hashZone true ++ [r] ∧ hashZone.Holds r ∧ r.rtype = .NSEC3 ∧
        TellsOf hashZone r (Nsec3Params.hashName lengthSha ⟨1, 0, 0, []⟩ last)

/-- A name of five octets, whose hash is on the arc from 3 to 6, one of seven, and one of eleven, past them all. -/
theorem handleQuery_nsec3_hashes : HashTold ['a', '.', 'x'] ∧ HashTold ['a', 'b', 'c', '.', 'x'] ∧
    HashTold ['a', 'b', 'c', 'd', 'e', 'f', 'g', '.', 'x'] := by
  have htold : ∀ {name : Text}, FitsWire name → readName name = name → authoritativeZone [hashZone] name = some hashZone →
      (zoneAnswer lengthSha hashHandler.hashOrder ⟨name, .A, CLASS_IN⟩ (queryRead 7 0x0100 name .A true)
        hashZone).rcode = RCODE_NXDOMAIN → HashTold name := by
    intro name hfits hspelt hzone hrcode
    have hask : Asks hashHandler noClocks (queryBytes 7 name .A true) (queryRead 7 0x0100 name .A true)
        ⟨readName name, .A, CLASS_IN⟩ := asks_query hfits normalised_a (.inl rfl) noClocks
    rw [hspelt] at hask
    have hreply : (handleQuery hashHandler [hashZone] noClocks (.V4 0) .Inline (queryBytes 7 name .A true) .new
        ()).response = _ := handleQuery_of_zone hask hzone
    exact ⟨_, _, hreply, handleQuery_nsec3 hashHandler [hashZone] noClocks (.V4 0) .Inline _ .new ()
      (fun _ => List.length_replicate) hashZone_chain hashZone_params hask rfl hzone hreply hrcode⟩
  refine ⟨htold ⟨by decide, by decide⟩ (by decide) ?_ (by decide), htold ⟨by decide, by decide⟩ (by decide) ?_ (by decide),
    htold ⟨by decide, by decide⟩ (by decide) ?_ (by decide)⟩ <;> rfl

example : [['a', '.', 'x'], ['a', 'b', 'c', '.', 'x'], ['a', 'b', 'c', 'd', 'e', 'f', 'g', '.', 'x']].map
    (hashZone.nsec3Covering lengthSha hashHandler.hashOrder) =
      [some (hashRecord 3 6), some (hashRecord 6 8), some (hashRecord 8 3)] := by decide

end Ironbind
