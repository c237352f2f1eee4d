import Ironbind.ChainOfTrust
import Ironbind.Bailiwick
import Ironbind.Lib.FirstMatch

/- When `validate_rrset` accepts. Its loop is a search for a first match
   (`validateSigs_eq_search`): each RRSIG in its time is put to the first DNSKEY with its
   tag and algorithm, and the first verification that does not fail ends the loop, be it
   a mismatch. So a signature that verifies can be hidden, by a mismatch in front of it or
   by a key of the same tag in front of its own; `validateRrset_accepts_iff` says which
   lists hide none, in any order. What a signature is for is not looked at: owners,
   classes, types, labels, signer, and the key's owner, flags and protocol may be anything
   (`validateRrset_secure_iff`, `strayAnswer_secure`). -/
namespace Ironbind
open Codec FirstMatch

/-! The loop as a search. -/

/-- An RRSIG in its time, and a key with its tag and algorithm. -/
def candidate (now : Nat) (sigRec key : Record) : Bool :=
  match parseRrsig sigRec.rdata with
  | .ok rrsig => decide (rrsig.sigInception.toNat ≤ now ∧ now ≤ rrsig.sigExpiry.toNat) &&
      keyMatches rrsig.keyTag rrsig.algorithm key
  | .error _ => false

/-- What verification under a key says, unless it fails. -/
def verification (c : Crypto) (rrset : List Record) (sigRec key : Record) : Option Bool :=
  match parseRrsig sigRec.rdata with
  | .ok rrsig =>
    match parseDnskey key.rdata with
    | .ok dnskey => (verifySignature c rrsig.algorithm dnskey.publicKey (buildSignedData rrsig rrset)
        rrsig.signature).toOption
    | .error _ => none
  | .error _ => none

def verdict : Option Bool → ValidationResult
  | some true => .Secure
  | some false => .Bogus "signature mismatch"
  | none => .Bogus "no valid RRSIG found"

section
variable (c : Crypto) (now : Nat) (rrset rrsigs dnskeys : List Record)

/-- The search that the loop of `validate_rrset` makes. -/
def searchSigs : Option Bool := search (candidate now) (verification c rrset) rrsigs dnskeys

/-- A signature and a key of it that verification answers for. -/
abbrev VerifiesAs (sigRec key : Record) (b : Bool) : Prop := Answers (candidate now) (verification c rrset) sigRec key b

end

section
variable {c : Crypto} {now : Nat} {rrset rrsigs dnskeys : List Record}

theorem candidate_iff {sigRec key : Record} : candidate now sigRec key ↔ ∃ rrsig, parseRrsig sigRec.rdata = .ok rrsig ∧
    rrsig.sigInception.toNat ≤ now ∧ now ≤ rrsig.sigExpiry.toNat ∧ keyMatches rrsig.keyTag rrsig.algorithm key := by
  rw [candidate]
  cases hp : parseRrsig sigRec.rdata with
  | error e => simp
  | ok rrsig => simp [and_assoc]

theorem keyMatches_eq {t t' : UInt16} {a a' : UInt8} {key : Record} (h : keyMatches t a key) (h' : keyMatches t' a' key) :
    t = t' ∧ a = a' := by
  rw [keyMatches] at h h'
  cases hk : parseDnskey key.rdata with
  | error e => rw [hk] at h; cases h
  | ok dnskey =>
    rw [hk] at h h'
    simp only [Bool.and_eq_true, beq_iff_eq] at h h'
    exact ⟨h.1.symm.trans h'.1, h.2.symm.trans h'.2⟩

/-- Signatures that one key is for have all their keys in common. -/
theorem candidate_class (s s' k : Record) (h : candidate now s k) (h' : candidate now s' k) :
    candidate now s = candidate now s' := by
  obtain ⟨rrsig, hp, hi, he, hm⟩ := candidate_iff.mp h
  obtain ⟨rrsig', hp', hi', he', hm'⟩ := candidate_iff.mp h'
  obtain ⟨htag, halg⟩ := keyMatches_eq hm hm'
  funext key
  simp only [candidate, hp, hp', hi, he, hi', he', htag, halg]

theorem find?_candidate {sigRec : Record} {rrsig : Rrsig} (hp : parseRrsig sigRec.rdata = .ok rrsig)
    (hi : rrsig.sigInception.toNat ≤ now) (he : now ≤ rrsig.sigExpiry.toNat) :
    dnskeys.find? (candidate now sigRec) = dnskeys.find? (keyMatches rrsig.keyTag rrsig.algorithm) := by
  have : candidate now sigRec = keyMatches rrsig.keyTag rrsig.algorithm := by
    funext key
    simp [candidate, hp, hi, he]
  rw [this]

/-- A signature that does not parse or is not in its time is passed over. -/
theorem ask_of_not_timely {sigRec : Record} (h : ∀ rrsig, parseRrsig sigRec.rdata = .ok rrsig →
    rrsig.sigInception.toNat ≤ now → ¬ now ≤ rrsig.sigExpiry.toNat) :
    ask (candidate now) (verification c rrset) dnskeys sigRec = none := by
  have hnone : dnskeys.find? (candidate now sigRec) = none := by
    apply List.find?_eq_none.mpr
    intro key _ hc
    obtain ⟨rrsig, hp, hi, he, _⟩ := candidate_iff.mp hc
    exact h rrsig hp hi he
  rw [ask, hnone, Option.bind_none]

theorem validateSigs_eq_search : ∀ rrsigs : List Record,
    validateSigs c now rrset dnskeys rrsigs = verdict (searchSigs c now rrset rrsigs dnskeys)
  | [] => rfl
  | sigRec :: rest => by
    have ih := validateSigs_eq_search rest
    have later (h : ask (candidate now) (verification c rrset) dnskeys sigRec = none) :
        verdict (searchSigs c now rrset (sigRec :: rest) dnskeys) = validateSigs c now rrset dnskeys rest := by
      rw [ih, searchSigs, search, List.findSome?_cons, h, searchSigs, search]
    have ended {b : Bool} (h : ask (candidate now) (verification c rrset) dnskeys sigRec = some b) :
        verdict (searchSigs c now rrset (sigRec :: rest) dnskeys) = verdict (some b) := by
      rw [searchSigs, search, List.findSome?_cons, h]
    rw [validateSigs]
    split
    · next e hp => exact (later (ask_of_not_timely fun r h => by rw [hp] at h; cases h)).symm
    · next rrsig hp =>
      split
      · next hi =>
        exact (later (ask_of_not_timely fun r h hr => by rw [hp] at h; cases h; omega)).symm
      · next hi =>
        split
        · next he => exact (later (ask_of_not_timely fun r h _ => by rw [hp] at h; cases h; omega)).symm
        · next he =>
          have hfind : dnskeys.find? _ = _ := find?_candidate hp (Nat.le_of_not_lt hi) (Nat.le_of_not_lt he)
          split
          · next hf => exact (later (by rw [ask, hfind, hf, Option.bind_none])).symm
          · next key hf =>
            have hask : ask (candidate now) (verification c rrset) dnskeys sigRec =
                verification c rrset sigRec key := by rw [ask, hfind, hf, Option.bind_some]
            split
            · next hk => exact (later (by rw [hask]; simp [verification, hp, hk])).symm
            · next dnskey hk =>
              have hverify : verification c rrset sigRec key = (verifySignature c rrsig.algorithm dnskey.publicKey
                  (buildSignedData rrsig rrset) rrsig.signature).toOption := by simp [verification, hp, hk]
              split
              · next hv => exact (ended (by rw [hask, hverify, hv]; rfl)).symm
              · next hv => exact (ended (by rw [hask, hverify, hv]; rfl)).symm
              · next hv => exact (later (by rw [hask, hverify, hv]; rfl)).symm

/-- No signature or no key, and the search finds nothing. -/
theorem searchSigs_of_empty (h : rrsigs = [] ∨ dnskeys = []) : searchSigs c now rrset rrsigs dnskeys = none := by
  apply search_eq_none
  rcases h with rfl | rfl <;> simp

theorem validateRrset_eq_search (hr : rrset ≠ []) (hs : rrsigs ≠ []) (hk : dnskeys ≠ []) :
    validateRrset c now rrset rrsigs dnskeys = verdict (searchSigs c now rrset rrsigs dnskeys) := by
  rw [validateRrset, if_neg (by tauto), validateSigs_eq_search]

theorem verdict_eq_secure {o : Option Bool} : verdict o = .Secure ↔ o = some true := by
  match o with
  | none => simp [verdict]
  | some true => simp [verdict]
  | some false => simp [verdict]

theorem verdict_inj : ∀ o o' : Option Bool, verdict o = verdict o' → o = o' := by decide

theorem verification_eq_some_iff {sigRec key : Record} {b : Bool} : verification c rrset sigRec key = some b ↔
    ∃ rrsig dnskey, parseRrsig sigRec.rdata = .ok rrsig ∧ parseDnskey key.rdata = .ok dnskey ∧
      verifySignature c rrsig.algorithm dnskey.publicKey (buildSignedData rrsig rrset) rrsig.signature = .ok b := by
  rw [verification]
  cases hp : parseRrsig sigRec.rdata with
  | error e => simp
  | ok rrsig =>
    cases hk : parseDnskey key.rdata with
    | error e => simp
    | ok dnskey =>
      cases hv : verifySignature c rrsig.algorithm dnskey.publicKey (buildSignedData rrsig rrset) rrsig.signature with
      | error e => simp [hv, Except.toOption]
      | ok b' => simp [hv, Except.toOption]

theorem signs_iff_verifiesAs {key : Record} : Signs c now rrset rrsigs key ↔
    ∃ sigRec ∈ rrsigs, VerifiesAs c now rrset sigRec key true := by
  constructor
  · rintro ⟨sigRec, hs, rrsig, dnskey, hp, hk, hi, he, hm, hv⟩
    exact ⟨sigRec, hs, candidate_iff.mpr ⟨rrsig, hp, hi, he, hm⟩,
      verification_eq_some_iff.mpr ⟨rrsig, dnskey, hp, hk, hv⟩⟩
  · rintro ⟨sigRec, hs, hc, ha⟩
    obtain ⟨rrsig, hp, hi, he, hm⟩ := candidate_iff.mp hc
    obtain ⟨rrsig', dnskey, hp', hk, hv⟩ := verification_eq_some_iff.mp ha
    obtain rfl : rrsig = rrsig' := Except.ok.inj (hp.symm.trans hp')
    exact ⟨sigRec, hs, rrsig, dnskey, hp, hk, hi, he, hm, hv⟩

/-! Acceptance in any order. -/

/-- Secure when a key of the list made one of the signatures, and the same result for every order of
    the two lists. -/
structure Accepting (c : Crypto) (now : Nat) (rrset rrsigs dnskeys : List Record) : Prop where
  secure : (∃ key ∈ dnskeys, Signs c now rrset rrsigs key) → validateRrset c now rrset rrsigs dnskeys = .Secure
  ordered : ∀ rrsigs' dnskeys', rrsigs.Perm rrsigs' → dnskeys.Perm dnskeys' →
    validateRrset c now rrset rrsigs' dnskeys' = validateRrset c now rrset rrsigs dnskeys

theorem validateRrset_nil (rrsigs dnskeys : List Record) : validateRrset c now [] rrsigs dnskeys = .Insecure :=
  if_pos (.inl rfl)

theorem validateRrset_of_empty (h : rrsigs = [] ∨ dnskeys = []) :
    validateRrset c now rrset rrsigs dnskeys = .Insecure :=
  if_pos (.inr h)

/-- For records, the results agree in every order when what the searches find does. -/
theorem validateRrset_perm_iff (hr : rrset ≠ []) :
    (∀ rrsigs' dnskeys', rrsigs.Perm rrsigs' → dnskeys.Perm dnskeys' →
      validateRrset c now rrset rrsigs' dnskeys' = validateRrset c now rrset rrsigs dnskeys) ↔
    ∀ rrsigs' dnskeys', rrsigs.Perm rrsigs' → dnskeys.Perm dnskeys' →
      searchSigs c now rrset rrsigs' dnskeys' = searchSigs c now rrset rrsigs dnskeys := by
  refine forall_congr' fun rrsigs' => forall_congr' fun dnskeys' => forall_congr' fun hs => forall_congr' fun hk => ?_
  by_cases hempty : rrsigs = [] ∨ dnskeys = []
  · have hempty' : rrsigs' = [] ∨ dnskeys' = [] := by
      rcases hempty with rfl | rfl
      · exact .inl hs.nil_eq.symm
      · exact .inr hk.nil_eq.symm
    simp only [validateRrset_of_empty hempty, validateRrset_of_empty hempty', searchSigs_of_empty hempty,
      searchSigs_of_empty hempty']
  · have hs₀ : rrsigs ≠ [] := fun h => hempty (.inl h)
    have hk₀ : dnskeys ≠ [] := fun h => hempty (.inr h)
    have hs₁ : rrsigs' ≠ [] := fun h => hs₀ (by rw [h] at hs; exact hs.eq_nil)
    have hk₁ : dnskeys' ≠ [] := fun h => hk₀ (by rw [h] at hk; exact hk.eq_nil)
    rw [validateRrset_eq_search hr hs₀ hk₀, validateRrset_eq_search hr hs₁ hk₁]
    exact ⟨verdict_inj _ _, congrArg verdict⟩

/-- **What hides no signature.** An RRset is accepted when it should be, in any order of the lists,
    exactly when the verifications that answer agree and some signature has keys that all
    answer, or there is no record and nothing was signed. -/
theorem validateRrset_accepting_iff (c : Crypto) (now : Nat) (rrset rrsigs dnskeys : List Record) :
    Accepting c now rrset rrsigs dnskeys ↔
      (rrset = [] ∧ ¬ ∃ key ∈ dnskeys, Signs c now rrset rrsigs key) ∨
      (rrset ≠ [] ∧ Agree (candidate now) (verification c rrset) rrsigs dnskeys ∧
        Exposed (candidate now) (verification c rrset) rrsigs dnskeys) := by
  by_cases hr : rrset = []
  · subst hr
    constructor
    · intro h
      refine .inl ⟨rfl, fun hsigned => ?_⟩
      have := h.secure hsigned
      rw [validateRrset_nil] at this
      cases this
    · rintro (⟨_, hno⟩ | ⟨hne, _⟩)
      · exact ⟨fun h => absurd h hno, fun _ _ _ _ => by rw [validateRrset_nil, validateRrset_nil]⟩
      · exact absurd rfl hne
  · have hperm := (@validateRrset_perm_iff c now rrset rrsigs dnskeys hr).trans (search_perm_iff candidate_class)
    constructor
    · intro h
      exact .inr ⟨hr, hperm.mp h.ordered⟩
    · rintro (⟨hnil, _⟩ | ⟨_, hagree, hexposed⟩)
      · exact absurd hnil hr
      · refine ⟨fun ⟨key, hk, hsigns⟩ => ?_, hperm.mpr ⟨hagree, hexposed⟩⟩
        obtain ⟨sigRec, hs, hv⟩ := signs_iff_verifiesAs.mp hsigns
        have hfound := search_of_steady hagree hexposed candidate_class hs hk hv
        rw [validateRrset_eq_search hr (List.ne_nil_of_mem hs) (List.ne_nil_of_mem hk), verdict_eq_secure]
        exact hfound

/-- A signature over another address in front of the right one: Bogus, and Secure the other way around. -/
theorem wrongSignature_hides : ¬ Accepting toyCrypto 1000 wwwAnswer
    [toySig wwwCom .A 77 wrongAnswer, toySig wwwCom .A 77 wwwAnswer] comKeys := by
  have hright : validateRrset toyCrypto 1000 wwwAnswer [toySig wwwCom .A 77 wwwAnswer] comKeys = .Secure :=
    (validateRrset_toySig (by decide) wwwCom .A 77 (List.cons_ne_nil _ _) comKeys_find).trans (if_pos rfl)
  have hwrong : validateRrset toyCrypto 1000 wwwAnswer
      [toySig wwwCom .A 77 wrongAnswer, toySig wwwCom .A 77 wwwAnswer] comKeys = .Bogus "signature mismatch" :=
    (validateRrset_toySig (by decide) wwwCom .A 77 (List.cons_ne_nil _ _) comKeys_find).trans
      (if_neg (by decide))
  obtain ⟨key, hk, sigRec, hs, hsigns⟩ := validateRrset_secure hright
  intro h
  have := h.secure ⟨key, hk, sigRec, List.mem_cons_of_mem _ hs, hsigns⟩
  rw [hwrong] at this
  cases this

/-! What acceptance rests on. -/

/-- **Secure, and nothing else.** The result is Secure exactly when there are records and the first
    signature that is answered, by the first key with its tag and algorithm, verifies. -/
theorem validateRrset_secure_iff (c : Crypto) (now : Nat) (rrset rrsigs dnskeys : List Record) :
    validateRrset c now rrset rrsigs dnskeys = .Secure ↔
      rrset ≠ [] ∧ ∃ sigRec key, Decides (candidate now) (verification c rrset) rrsigs dnskeys sigRec key true := by
  rw [← search_eq_some_iff]
  by_cases hr : rrset = []
  · subst hr
    simp [validateRrset_nil]
  · by_cases hempty : rrsigs = [] ∨ dnskeys = []
    · have hnone : searchSigs c now rrset rrsigs dnskeys = none := searchSigs_of_empty hempty
      rw [searchSigs] at hnone
      simp [validateRrset_of_empty hempty, hnone]
    · rw [not_or] at hempty
      rw [validateRrset_eq_search hr hempty.1 hempty.2, verdict_eq_secure, searchSigs]
      simp [hr]

end

/-! Records that no condition holds of. -/

/-- The conditions of RFC 4035, section 5.3.1. -/
inductive Condition where
  | shared | owner | rclass | covers | labels | signer | keyOwner | zoneKey | protocol

/-- A condition on records, a signature of them and the key that verifies it. -/
def Condition.Holds (rrset : List Record) (sigRec : Record) (rrsig : Rrsig) (key : Record) (dnskey : Dnskey) :
    Condition → Prop
  | .shared => ∀ r ∈ rrset, ∀ r' ∈ rrset,
      zoneLabels r.name = zoneLabels r'.name ∧ r.rclass = r'.rclass ∧ r.rtype = r'.rtype
  | .owner => ∀ r ∈ rrset, zoneLabels sigRec.name = zoneLabels r.name
  | .rclass => ∀ r ∈ rrset, sigRec.rclass = r.rclass
  | .covers => ∀ r ∈ rrset, rrsig.typeCovered = r.rtype.toU16
  | .labels => ∀ r ∈ rrset, rrsig.labels.toNat ≤ (labelsOf r.name).length
  | .signer => ∀ r ∈ rrset, Contains rrsig.signerName r.name
  | .keyOwner => zoneLabels key.name = zoneLabels rrsig.signerName
  | .zoneKey => dnskey.flags &&& 0x0100 ≠ 0
  | .protocol => dnskey.protocol = 3

/-- A key of another zone, with no flags and protocol 0. -/
def strayKey : Record := ⟨['n', 'e', 't'], .DNSKEY, 3, 3600, [0, 0, 0, 8, 1, 3, 77]⟩

/-- An address and a text of two names and two classes. -/
def strayAnswer : List Record := [⟨wwwCom, .A, CLASS_IN, 3600, [192, 0, 2, 1]⟩, ⟨com, .TXT, 3, 3600, [0]⟩]

def strayFields : Rrsig := ⟨RType.NS.toU16, 8, 255, 3600, 4294967295, 0, keyTag strayKey.rdata, ['o', 'r', 'g'], []⟩

def straySig : Record :=
  ⟨['a'], .RRSIG, 4, 3600, rrsigFields strayFields ++ 77 :: buildSignedData strayFields strayAnswer⟩

/-- Secure, with one signature and one key that meet none of the conditions. -/
theorem strayAnswer_secure : validateRrset toyCrypto 1000 strayAnswer [straySig] [strayKey] = .Secure ∧
    ∀ sigRec ∈ [straySig], ∀ key ∈ [strayKey], ∀ rrsig dnskey, parseRrsig sigRec.rdata = .ok rrsig →
      parseDnskey key.rdata = .ok dnskey → ∀ c : Condition, ¬ c.Holds strayAnswer sigRec rrsig key dnskey := by
  have hsig : parseRrsig straySig.rdata =
      .ok { strayFields with signature := 77 :: buildSignedData strayFields strayAnswer } := by decide
  have hkey : parseDnskey strayKey.rdata = .ok ⟨0, 0, 8, [1, 3, 77]⟩ := by decide
  refine ⟨by decide, ?_⟩
  intro sigRec hs key hk rrsig dnskey hp hp' c
  rw [List.mem_singleton.mp hs, hsig] at hp
  rw [List.mem_singleton.mp hk, hkey] at hp'
  cases hp
  cases hp'
  rw [List.mem_singleton.mp hs, List.mem_singleton.mp hk]
  cases c <;> unfold Condition.Holds <;> first | decide | (unfold Contains; decide)

end Ironbind
