import Ironbind.RrsetAcceptance

/- When a key set is found to chain to a DS set. `validate_dnskey_with_ds` is the same
   kind of search as `validate_rrset`: each DS record of a digest in use is put to the
   first key with its tag and algorithm (`validateDnskeyWithDs_eq_search`), and that one
   comparison ends both loops, equal or not. So it is a match of the first pair, and a
   match of any pair only where no other pair comes first
   (`validateDnskeyWithDs_anyMatch_iff`). Tags are 16 bits and keys are rolled over, so
   other pairs there are. -/
namespace Ironbind
open Codec FirstMatch

/-! The loops as a search. -/

/-- A DS record of a digest in use, and a key with its tag and algorithm. -/
def dsCandidate (dsRec key : Record) : Bool :=
  match parseDs dsRec.rdata with
  | .ok ds => decide (ds.digestType = DIGEST_SHA256 ∨ ds.digestType = DIGEST_SHA384) &&
      keyMatches ds.keyTag ds.algorithm key
  | .error _ => false

/-- Whether the DS record holds the key's digest. -/
def dsAnswer (c : Crypto) (dsRec key : Record) : Option Bool :=
  match parseDs dsRec.rdata with
  | .ok ds => some (decide (dsDigest c ds.digestType key = ds.digest))
  | .error _ => none

section
variable {c : Crypto} {keys dsRecs : List Record}

theorem dsCandidate_iff {dsRec key : Record} : dsCandidate dsRec key ↔ ∃ ds, parseDs dsRec.rdata = .ok ds ∧
    (ds.digestType = DIGEST_SHA256 ∨ ds.digestType = DIGEST_SHA384) ∧ keyMatches ds.keyTag ds.algorithm key := by
  rw [dsCandidate]
  cases hp : parseDs dsRec.rdata with
  | error e => simp
  | ok ds => simp

theorem dsAnswer_eq_some_iff {dsRec key : Record} {b : Bool} : dsAnswer c dsRec key = some b ↔
    ∃ ds, parseDs dsRec.rdata = .ok ds ∧ decide (dsDigest c ds.digestType key = ds.digest) = b := by
  rw [dsAnswer]
  cases hp : parseDs dsRec.rdata with
  | error e => simp
  | ok ds => simp

/-- A candidate is compared, whatever comes of it. -/
theorem dsAnswer_isSome {dsRec key : Record} (h : dsCandidate dsRec key) : (dsAnswer c dsRec key).isSome := by
  obtain ⟨ds, hp, _, _⟩ := dsCandidate_iff.mp h
  exact Option.isSome_iff_exists.mpr ⟨_, dsAnswer_eq_some_iff.mpr ⟨ds, hp, rfl⟩⟩

/-- A key is vouched for by the records it is a candidate of and whose digest it has. -/
theorem vouched_iff_answers {key : Record} :
    Vouched c dsRecs key ↔ ∃ dsRec ∈ dsRecs, Answers dsCandidate (dsAnswer c) dsRec key true := by
  constructor
  · rintro ⟨dsRec, hd, ds, hp, ht, hm, hdigest⟩
    exact ⟨dsRec, hd, dsCandidate_iff.mpr ⟨ds, hp, ht, hm⟩,
      dsAnswer_eq_some_iff.mpr ⟨ds, hp, decide_eq_true hdigest⟩⟩
  · rintro ⟨dsRec, hd, hc, ha⟩
    obtain ⟨ds, hp, ht, hm⟩ := dsCandidate_iff.mp hc
    obtain ⟨ds', hp', hdigest⟩ := dsAnswer_eq_some_iff.mp ha
    obtain rfl : ds = ds' := Except.ok.inj (hp.symm.trans hp')
    exact ⟨dsRec, hd, ds, hp, ht, hm, of_decide_eq_true hdigest⟩

theorem dsAgainstKeys_eq {ds : Ds} : ∀ keys : List Record, dsAgainstKeys c ds keys =
    (keys.find? (keyMatches ds.keyTag ds.algorithm)).map fun key =>
      if dsDigest c ds.digestType key = ds.digest then .Secure
      else .Bogus ("DS digest mismatch for key tag " ++ toString ds.keyTag.toNat)
  | [] => rfl
  | keyRec :: rest => by
    rw [dsAgainstKeys]
    split
    · next hm =>
      rw [List.find?_cons_of_pos hm, Option.map_some]
      split <;> rfl
    · next hm => rw [List.find?_cons_of_neg hm, dsAgainstKeys_eq rest]

/-- A DS record that is passed over: it does not parse, or its digest is of no use. -/
theorem ask_ds_of_unused {dsRec : Record} (h : ∀ ds, parseDs dsRec.rdata = .ok ds →
    ds.digestType ≠ DIGEST_SHA256 ∧ ds.digestType ≠ DIGEST_SHA384) :
    ask dsCandidate (dsAnswer c) keys dsRec = none := by
  have hnone : keys.find? (dsCandidate dsRec) = none := by
    apply List.find?_eq_none.mpr
    intro key _ hc
    obtain ⟨ds, hp, ht, _⟩ := dsCandidate_iff.mp hc
    have := h ds hp
    tauto
  rw [ask, hnone, Option.bind_none]

theorem ask_ds {dsRec : Record} {ds : Ds} (hp : parseDs dsRec.rdata = .ok ds)
    (ht : ds.digestType = DIGEST_SHA256 ∨ ds.digestType = DIGEST_SHA384) :
    ask dsCandidate (dsAnswer c) keys dsRec =
      (keys.find? (keyMatches ds.keyTag ds.algorithm)).map fun key =>
        decide (dsDigest c ds.digestType key = ds.digest) := by
  have hcand : dsCandidate dsRec = keyMatches ds.keyTag ds.algorithm := by
    funext key
    simp [dsCandidate, hp, ht]
  have hans : dsAnswer c dsRec = fun key => some (decide (dsDigest c ds.digestType key = ds.digest)) := by
    funext key
    simp [dsAnswer, hp]
  rw [ask, hcand, hans, Option.map_eq_bind]
  rfl

/-- The first pair compared decides. -/
theorem validateDnskeyWithDs_eq_search : ∀ dsRecs : List Record,
    (validateDnskeyWithDs c keys dsRecs = .Secure ↔ search dsCandidate (dsAnswer c) dsRecs keys = some true) ∧
    ((∃ why, validateDnskeyWithDs c keys dsRecs = .Bogus why) ↔
      search dsCandidate (dsAnswer c) dsRecs keys = some false)
  | [] => by simp [validateDnskeyWithDs, search]
  | dsRec :: rest => by
    have ih := validateDnskeyWithDs_eq_search rest
    have later (h : ask dsCandidate (dsAnswer c) keys dsRec = none) :
        search dsCandidate (dsAnswer c) (dsRec :: rest) keys = search dsCandidate (dsAnswer c) rest keys := by
      rw [search, List.findSome?_cons, h, search]
    rw [validateDnskeyWithDs]
    split
    -- a record that cannot be used is passed over, and so is one that no key matches
    · next e hp => rwa [later (ask_ds_of_unused fun ds h => by rw [hp] at h; cases h)]
    · next ds hp =>
      split
      · next ht => rwa [later (ask_ds_of_unused fun ds' h => by rw [hp] at h; cases h; exact ht)]
      · next ht =>
        have hask := @ask_ds c keys dsRec ds hp (by tauto)
        rw [dsAgainstKeys_eq]
        cases hf : keys.find? (keyMatches ds.keyTag ds.algorithm) with
        | none =>
          rw [hf, Option.map_none] at hask
          rw [later hask]
          exact ih
        | some key =>
          rw [hf, Option.map_some] at hask
          rw [search, List.findSome?_cons, hask]
          by_cases hd : dsDigest c ds.digestType key = ds.digest
          · simp [hd]
          · simp [hd]

theorem validateDnskeyWithDs_secure_iff : validateDnskeyWithDs c keys dsRecs = .Secure ↔
    ∃ dsRec key, Decides dsCandidate (dsAnswer c) dsRecs keys dsRec key true :=
  (validateDnskeyWithDs_eq_search dsRecs).1.trans search_eq_some_iff

end

/-! A match of any pair. -/

section
variable {c : Crypto} {keys keys' dsRecs dsRecs' : List Record}

/-- Secure when some DS record holds the digest of some key it is for, and only then. -/
def AnyMatch (c : Crypto) (keys dsRecs : List Record) : Prop :=
  validateDnskeyWithDs c keys dsRecs = .Secure ↔ ∃ key ∈ keys, Vouched c dsRecs key

/-- Nothing is found Secure that no DS record vouches for. -/
theorem anyMatch_iff : AnyMatch c keys dsRecs ↔
    ((∃ key ∈ keys, Vouched c dsRecs key) → validateDnskeyWithDs c keys dsRecs = .Secure) :=
  ⟨Iff.mpr, fun h => ⟨validateDnskeyWithDs_secure, h⟩⟩

theorem Vouched.mono {key : Record} (h : Vouched c dsRecs key) (hs : dsRecs ⊆ dsRecs') : Vouched c dsRecs' key := by
  obtain ⟨dsRec, hd, ds⟩ := h
  exact ⟨dsRec, hs hd, ds⟩

theorem vouched_perm (hk : keys.Perm keys') (hs : dsRecs.Perm dsRecs') :
    (∃ key ∈ keys', Vouched c dsRecs' key) ↔ ∃ key ∈ keys, Vouched c dsRecs key := by
  constructor
  · rintro ⟨key, hkey, hv⟩
    exact ⟨key, hk.mem_iff.mpr hkey, hv.mono hs.symm.subset⟩
  · rintro ⟨key, hkey, hv⟩
    exact ⟨key, hk.mem_iff.mp hkey, hv.mono hs.subset⟩

/-- A pair whose digests differ is compared first in some order, and ends the loops there. -/
theorem exists_order_not_secure {dsRec key : Record} (hs : dsRec ∈ dsRecs) (hk : key ∈ keys)
    (hc : dsCandidate dsRec key) (ha : dsAnswer c dsRec key ≠ some true) :
    ∃ keys' dsRecs', keys.Perm keys' ∧ dsRecs.Perm dsRecs' ∧ validateDnskeyWithDs c keys' dsRecs' ≠ .Secure := by
  obtain ⟨b, hb⟩ := Option.isSome_iff_exists.mp (dsAnswer_isSome (c := c) hc)
  obtain ⟨dsRecs', keys', hps, hpk, hfound⟩ := exists_order_some hs hk ⟨hc, hb⟩
  refine ⟨keys', dsRecs', hpk, hps, fun hsecure => ha ?_⟩
  rw [(validateDnskeyWithDs_eq_search dsRecs').1, hfound] at hsecure
  rw [hb, hsecure]

/-- A record that is for some key of a list is compared with one, the first. -/
theorem exists_ask_of_candidate {dsRec key : Record} (hk : key ∈ keys) (hc : dsCandidate dsRec key) :
    ∃ key₁ b, keys.find? (dsCandidate dsRec) = some key₁ ∧ dsAnswer c dsRec key₁ = some b := by
  obtain ⟨key₁, hf⟩ := Option.isSome_iff_exists.mp (List.find?_isSome.mpr ⟨key, hk, hc⟩)
  have hc₁ : dsCandidate dsRec key₁ := List.find?_some (p := dsCandidate dsRec) hf
  obtain ⟨b, hb⟩ := Option.isSome_iff_exists.mp (dsAnswer_isSome (c := c) hc₁)
  exact ⟨key₁, b, hf, hb⟩

/-- Where every candidate pair matches, so does the first. -/
theorem secure_of_all_match (h : ∀ dsRec ∈ dsRecs, ∀ key ∈ keys, dsCandidate dsRec key →
      dsAnswer c dsRec key = some true) (hv : ∃ key ∈ keys, Vouched c dsRecs key) :
    validateDnskeyWithDs c keys dsRecs = .Secure := by
  obtain ⟨key, hk, hv⟩ := hv
  obtain ⟨dsRec, hd, hc, _⟩ := vouched_iff_answers.mp hv
  obtain ⟨key₁, b₁, hf, hb₁⟩ := exists_ask_of_candidate (c := c) hk hc
  obtain ⟨b, hb, dsRec₂, hd₂, key₂, hk₂, hc₂, ha₂⟩ :=
    exists_answers_of_ask hd (ask_eq_some_iff.mpr ⟨key₁, hf, hb₁⟩)
  have hbt : some b = some true := ha₂.symm.trans (h dsRec₂ hd₂ key₂ hk₂ hc₂)
  rw [(validateDnskeyWithDs_eq_search dsRecs).1, hb, hbt]

/-- **When the first pair is as good as any.** An any-match exactly when, if any pair matches, the first
    candidate pair does; in every order exactly when all of them do. Records added to lists found
    Secure leave them so, and not Bogus, exactly when the first pair still matches. -/
theorem validateDnskeyWithDs_anyMatch_iff (c : Crypto) (keys dsRecs : List Record) :
    (AnyMatch c keys dsRecs ↔ ((∃ key ∈ keys, Vouched c dsRecs key) →
      ∃ dsRec key, Decides dsCandidate (dsAnswer c) dsRecs keys dsRec key true)) ∧
    ((∀ keys' dsRecs', keys.Perm keys' → dsRecs.Perm dsRecs' → AnyMatch c keys' dsRecs') ↔
      ((∃ key ∈ keys, Vouched c dsRecs key) → ∀ dsRec ∈ dsRecs, ∀ key ∈ keys, dsCandidate dsRec key →
        dsAnswer c dsRec key = some true)) ∧
    (validateDnskeyWithDs c keys dsRecs = .Secure → ∀ keys' dsRecs', keys ⊆ keys' → dsRecs ⊆ dsRecs' →
      ((∀ why, validateDnskeyWithDs c keys' dsRecs' ≠ .Bogus why) ↔
        ∃ dsRec key, Decides dsCandidate (dsAnswer c) dsRecs' keys' dsRec key true)) := by
  refine ⟨?_, ?_, ?_⟩
  · rw [anyMatch_iff, validateDnskeyWithDs_secure_iff]
  · constructor
    · intro h hv dsRec hd key hk hc
      by_contra ha
      obtain ⟨keys', dsRecs', hpk, hps, hno⟩ := exists_order_not_secure hd hk hc ha
      exact hno ((h keys' dsRecs' hpk hps).mpr ((vouched_perm hpk hps).mpr hv))
    · intro h keys' dsRecs' hpk hps
      refine anyMatch_iff.mpr fun hv => secure_of_all_match (fun dsRec hd key hk => ?_) hv
      exact h ((vouched_perm hpk hps).mp hv) dsRec (hps.mem_iff.mpr hd) key (hpk.mem_iff.mpr hk)
  · intro hsecure keys' dsRecs' hsk hsd
    rw [← validateDnskeyWithDs_secure_iff]
    constructor
    · intro hbogus
      obtain ⟨key, hk, hv⟩ := validateDnskeyWithDs_secure hsecure
      obtain ⟨dsRec, hd, hc, _⟩ := vouched_iff_answers.mp hv
      -- the pair that matched is still there, so some pair is compared
      obtain ⟨key₁, b, hf, hb⟩ := exists_ask_of_candidate (c := c) (hsk hk) hc
      obtain ⟨b', hb', _⟩ := exists_answers_of_ask (hsd hd) (ask_eq_some_iff.mpr ⟨key₁, hf, hb⟩)
      have hne : b' ≠ false := by
        rintro rfl
        obtain ⟨why, hw⟩ := (validateDnskeyWithDs_eq_search dsRecs').2.mpr hb'
        exact hbogus why hw
      rw [(validateDnskeyWithDs_eq_search dsRecs').1, hb', eq_true_of_ne_false hne]
    · intro h why hw
      rw [h] at hw
      cases hw

end

/-- The DS record of a key that was withdrawn, with the tag of the key in use. -/
def staleDs : Record := ⟨com, .DS, CLASS_IN, 3600, be16 (keyTag (toyKey com 77).rdata) ++ [8, 2] ++ [0]⟩

/-- Secure with its own DS record, Bogus with a stale one in front of it. -/
theorem staleDs_hides : validateDnskeyWithDs toyCrypto comKeys comDs = .Secure ∧
    ¬ AnyMatch toyCrypto comKeys (staleDs :: comDs) := by
  have hright : validateDnskeyWithDs toyCrypto comKeys comDs = .Secure := by decide
  refine ⟨hright, fun h => ?_⟩
  obtain ⟨key, hk, hv⟩ := validateDnskeyWithDs_secure hright
  have hsecure := h.mpr ⟨key, hk, hv.mono (List.subset_cons_self staleDs comDs)⟩
  have hwrong : validateDnskeyWithDs toyCrypto comKeys (staleDs :: comDs) ≠ .Secure := by decide
  exact hwrong hsecure

end Ironbind
