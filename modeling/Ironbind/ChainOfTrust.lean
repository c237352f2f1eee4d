import Ironbind.DnssecRdata

/- What `chain_validate` guarantees. The walk asks for the root's keys and then, a
   label at a time, for the DS and DNSKEY sets of every name down to the owner
   (`levels`); it answers Secure exactly when each check passes on these replies
   (`chainValidate_secure_iff`). A chain of trust asks for more than the checks do:
   the key that vouches for a DNSKEY set must be the key that signs it. The code
   checks that some key of the set matches and that some key of it signs, and at
   the root it looks at no signature. A set where no key does both is `Parted`, and
   without one Secure means a chain of trust (`chainValidate_sound`).

   On a correctly signed tree the walk goes on only while every name is a zone
   cut, and reports Insecure at the first that is not (`chainValidate_exact_iff`). -/
namespace Ironbind
open Codec

/-! Keys that sign and keys that are vouched for. -/

/-- `key` made one of the signatures, and it verifies over the whole set at this time. -/
def Signs (c : Crypto) (now : Nat) (rrset rrsigs : List Record) (key : Record) : Prop :=
  ∃ sigRec ∈ rrsigs, ∃ rrsig dnskey, parseRrsig sigRec.rdata = .ok rrsig ∧ parseDnskey key.rdata = .ok dnskey ∧
    rrsig.sigInception.toNat ≤ now ∧ now ≤ rrsig.sigExpiry.toNat ∧
    keyMatches rrsig.keyTag rrsig.algorithm key ∧
    verifySignature c rrsig.algorithm dnskey.publicKey (buildSignedData rrsig rrset) rrsig.signature = .ok true

/-- One of the DS records is `key`'s, by tag, algorithm and digest. -/
def Vouched (c : Crypto) (dsRecs : List Record) (key : Record) : Prop :=
  ∃ dsRec ∈ dsRecs, ∃ ds, parseDs dsRec.rdata = .ok ds ∧
    (ds.digestType = DIGEST_SHA256 ∨ ds.digestType = DIGEST_SHA384) ∧
    keyMatches ds.keyTag ds.algorithm key ∧ dsDigest c ds.digestType key = ds.digest

/-- `key` is one of the pinned root keys. -/
def Anchored (c : Crypto) (key : Record) : Prop :=
  ∃ a ∈ rootAnchors, keyMatches a.keyTag a.algorithm key ∧ dsDigest c a.digestType key = a.digest

theorem parseDs_asDsRecord : ∀ a ∈ rootAnchors, parseDs a.asDsRecord.rdata =
    .ok ⟨a.keyTag, a.algorithm, a.digestType, a.digest⟩ ∧ a.digestType = DIGEST_SHA256 := by decide

/-- The pins are used as DS records of the root. -/
theorem anchored_iff_vouched (c : Crypto) (key : Record) :
    Anchored c key ↔ Vouched c (rootAnchors.map RootAnchor.asDsRecord) key := by
  constructor
  · rintro ⟨a, ha, hm, hd⟩
    obtain ⟨hp, ht⟩ := parseDs_asDsRecord a ha
    exact ⟨_, List.mem_map_of_mem ha, _, hp, .inl ht, hm, hd⟩
  · rintro ⟨_, hr, ds, hp, _, hm, hd⟩
    obtain ⟨a, ha, rfl⟩ := List.mem_map.mp hr
    rw [(parseDs_asDsRecord a ha).1] at hp
    cases hp
    exact ⟨a, ha, hm, hd⟩

/-- An RRset found Secure is signed by one of the keys. -/
theorem validateSigs_secure {c : Crypto} {now : Nat} {rrset dnskeys : List Record} :
    ∀ {rrsigs : List Record}, validateSigs c now rrset dnskeys rrsigs = .Secure →
      ∃ key ∈ dnskeys, Signs c now rrset rrsigs key
  | [], h => by simp [validateSigs] at h
  | sigRec :: rest, h => by
    have later : validateSigs c now rrset dnskeys rest = .Secure →
        ∃ key ∈ dnskeys, Signs c now rrset (sigRec :: rest) key := by
      intro h
      obtain ⟨key, hk, s, hs, hsigns⟩ := validateSigs_secure h
      exact ⟨key, hk, s, List.mem_cons_of_mem _ hs, hsigns⟩
    rw [validateSigs] at h
    split at h
    · exact later h
    · next rrsig hp =>
      split at h
      · exact later h
      · next hi =>
        split at h
        · exact later h
        · next he =>
          split at h
          · exact later h
          · next key hf =>
            split at h
            · exact later h
            · next dnskey hk =>
              split at h
              · next hv =>
                exact ⟨key, List.mem_of_find?_eq_some hf, sigRec, List.mem_cons_self, rrsig, dnskey, hp, hk,
                  Nat.le_of_not_lt hi, Nat.le_of_not_lt he,
                  List.find?_some (p := keyMatches rrsig.keyTag rrsig.algorithm) hf, hv⟩
              · simp at h
              · exact later h

theorem validateRrset_secure {c : Crypto} {now : Nat} {rrset rrsigs dnskeys : List Record}
    (h : validateRrset c now rrset rrsigs dnskeys = .Secure) : ∃ key ∈ dnskeys, Signs c now rrset rrsigs key := by
  rw [validateRrset] at h
  split at h
  · simp at h
  · exact validateSigs_secure h

theorem dsAgainstKeys_secure {c : Crypto} {ds : Ds} : ∀ {keys : List Record},
    dsAgainstKeys c ds keys = some .Secure →
      ∃ key ∈ keys, keyMatches ds.keyTag ds.algorithm key ∧ dsDigest c ds.digestType key = ds.digest
  | [], h => by simp [dsAgainstKeys] at h
  | keyRec :: rest, h => by
    rw [dsAgainstKeys] at h
    split at h
    · next hm =>
      split at h
      · next hd => exact ⟨keyRec, List.mem_cons_self, hm, hd⟩
      · simp at h
    · obtain ⟨key, hk, hkey⟩ := dsAgainstKeys_secure h
      exact ⟨key, List.mem_cons_of_mem _ hk, hkey⟩

/-- A key set found to chain to a DS set has a key vouched for by it. -/
theorem validateDnskeyWithDs_secure {c : Crypto} {keys : List Record} : ∀ {dsRecs : List Record},
    validateDnskeyWithDs c keys dsRecs = .Secure → ∃ key ∈ keys, Vouched c dsRecs key
  | [], h => by simp [validateDnskeyWithDs] at h
  | dsRec :: rest, h => by
    have later : validateDnskeyWithDs c keys rest = .Secure → ∃ key ∈ keys, Vouched c (dsRec :: rest) key := by
      intro h
      obtain ⟨key, hk, d, hd, hv⟩ := validateDnskeyWithDs_secure h
      exact ⟨key, hk, d, List.mem_cons_of_mem _ hd, hv⟩
    rw [validateDnskeyWithDs] at h
    split at h
    · exact later h
    · next ds hp =>
      split at h
      · exact later h
      · next ht =>
        split at h
        · next result hr =>
          rw [h] at hr
          obtain ⟨key, hk, hm, hd⟩ := dsAgainstKeys_secure hr
          exact ⟨key, hk, dsRec, List.mem_cons_self, ds, hp, by tauto, hm, hd⟩
        · exact later h

/-! The walk. -/

section
variable {σ : Type} (c : Crypto) (now : Nat) (owner : Text) (rrset rrsigs : List Record)

/-- What an upstream replies for one name of the walk. -/
structure Level where
  name : Text
  ds : List Record
  dsSigs : List Record
  keys : List Record
  keySigs : List Record

/-- The labels of a name in the order `chain_validate` walks them. -/
def walkLabels (owner : Text) : List Text := ((trimEndMatches '.' owner).splitOn '.').reverse

def walkLevels (fetch : Fetch σ) : List Text → Text → σ → List Level
  | [], _, _ => []
  | label :: labels, current, s =>
    let child := childName label current
    let (ds, s) := fetch child .DS s
    let (keys, s) := fetch child .DNSKEY s
    ⟨child, ds.1, ds.2, keys.1, keys.2⟩ :: walkLevels fetch labels child s

/-- The root's keys and their signatures, as replied first. -/
def rootReply (fetch : Fetch σ) (s : σ) : List Record × List Record := (fetch ['.'] .DNSKEY s).1

/-- The replies for every name from the top-level domain down to the owner. -/
def levels (fetch : Fetch σ) (s : σ) : List Level :=
  walkLevels fetch (walkLabels owner) ['.'] (fetch ['.'] .DNSKEY s).2

/-- The keys the last of the levels leaves. -/
def lastKeys (keys : List Record) (ls : List Level) : List Record := ls.foldl (fun _ l => l.keys) keys

/-- The walk's checks of one level, under the keys of the level above. -/
def LevelAccepted (parentKeys : List Record) (l : Level) : Prop :=
  l.ds ≠ [] ∧ validateRrset c now l.ds l.dsSigs parentKeys = .Secure ∧ l.keys ≠ [] ∧
    validateDnskeyWithDs c l.keys l.ds = .Secure ∧ validateRrset c now l.keys l.keySigs l.keys = .Secure

/-- A property of each level under the keys of the level above. -/
def Linked (R : List Record → Level → Prop) : List Record → List Level → Prop
  | _, [] => True
  | parentKeys, l :: ls => R parentKeys l ∧ Linked R l.keys ls

theorem Linked.imp {R S : List Record → Level → Prop} : ∀ {keys : List Record} {ls : List Level},
    (∀ l ∈ ls, ∀ keys, R keys l → S keys l) → Linked R keys ls → Linked S keys ls
  | _, [], _, _ => trivial
  | _, l :: _, h, hl => ⟨h l List.mem_cons_self _ hl.1,
      Linked.imp (fun l' h' => h l' (List.mem_cons_of_mem l h')) hl.2⟩

theorem Linked.of_mem {R : List Record → Level → Prop} : ∀ {keys : List Record} {ls : List Level},
    Linked R keys ls → ∀ l ∈ ls, ∃ keys, R keys l
  | keys, l :: ls, h, l', hl' => by
    rcases List.mem_cons.mp hl' with rfl | hl'
    · exact ⟨keys, h.1⟩
    · exact Linked.of_mem h.2 l' hl'

/-! The names of the walk. -/

/-- The name that remains of an owner when the walk stands at `x`: the labels ahead go in front. -/
def below (x : Text) : List Text → Text
  | [] => x
  | label :: labels => below (label ++ '.' :: x) labels

theorem suffix_below : ∀ (labels : List Text) (x : Text), x <:+ below x labels
  | [], x => List.suffix_refl x
  | label :: labels, x =>
    ((List.suffix_cons '.' x).trans (List.suffix_append label ('.' :: x))).trans (suffix_below labels _)

theorem below_length : ∀ (labels : List Text) (x : Text), x.length + labels.length ≤ (below x labels).length
  | [], x => Nat.le_refl _
  | label :: labels, x => by
    have := below_length labels (label ++ '.' :: x)
    simp only [List.length_append, List.length_cons] at this
    simp only [below, List.length_cons]
    omega

theorem intercalate_concat_concat (a b : Text) : ∀ l : List Text,
    ['.'].intercalate (l ++ [a, b]) = ['.'].intercalate (l ++ [a ++ '.' :: b])
  | [] => by simp [List.intercalate]
  | x :: l => by
    have ih := intercalate_concat_concat a b l
    rw [List.cons_append, List.cons_append, List.intercalate_cons_of_ne_nil (by simp), ih,
      List.intercalate_cons_of_ne_nil (by simp)]

theorem intercalate_reverse : ∀ (labels : List Text) (x : Text),
    ['.'].intercalate (x :: labels).reverse = below x labels
  | [], x => by simp [below]
  | label :: labels, x => by
    have h : (x :: label :: labels).reverse = labels.reverse ++ [label, x] := by simp
    rw [h, intercalate_concat_concat, below, ← intercalate_reverse labels]
    simp

/-- The owner, from its top-level label and the labels below it. -/
theorem walkLabels_spec (owner : Text) : ∃ top labels, walkLabels owner = top :: labels ∧
    trimEndMatches '.' owner = below top labels ∧ (top = [] → labels = []) ∧ top.getLast? ≠ some '.' := by
  set t := trimEndMatches '.' owner with ht
  obtain ⟨top, labels, hl⟩ := List.exists_cons_of_ne_nil
    (List.reverse_ne_nil_iff.mpr (List.splitOn_ne_nil '.' t))
  have hbelow : t = below top labels := by
    rw [← intercalate_reverse, ← hl, List.reverse_reverse, List.intercalate_splitOn]
  have hmem : top ∈ t.splitOn '.' := by rw [← List.mem_reverse, hl]; exact List.mem_cons_self
  refine ⟨top, labels, hl, hbelow, ?_, ?_⟩
  · intro htop
    cases labels with
    | nil => rfl
    | cons label labels =>
      exfalso
      obtain ⟨pre, hpre⟩ := suffix_below labels (label ++ ['.'])
      apply trimEndMatches_getLast? (c := '.') owner
      rw [← ht, hbelow, htop, below, ← hpre, ← List.append_assoc, List.getLast?_concat]
  · intro h
    exact not_mem_of_mem_splitOn hmem (List.mem_of_getLast? h)

/-- The names of a walk, in its order. -/
def walkNames : List Text → Text → List Text
  | [], _ => []
  | label :: labels, current => childName label current :: walkNames labels (childName label current)

/-- The walk reaches the owner only with its last label. -/
def StopsAtEnd (owner : Text) : List Text → Text → Prop
  | [], _ => True
  | label :: labels, current =>
    (trimEndMatches '.' (childName label current) = trimEndMatches '.' owner → labels = []) ∧
      StopsAtEnd owner labels (childName label current)

/-- Past the top-level label the walk stands at a name `x` and a dot, and the owner is `x` with
    the labels ahead in front. -/
theorem stopsAtEnd_below {owner : Text} : ∀ (labels : List Text) (x : Text), x ≠ [] → x.getLast? ≠ some '.' →
    trimEndMatches '.' owner = below x labels → StopsAtEnd owner labels (x ++ ['.'])
  | [], _, _, _, _ => trivial
  | label :: labels, x, hx, hlast, ho => by
    have hchild : childName label (x ++ ['.']) = (label ++ '.' :: x) ++ ['.'] := by
      rw [childName, if_neg (by simpa using hx)]; simp
    have hlast' : (label ++ '.' :: x).getLast? ≠ some '.' := by
      rw [List.getLast?_append_of_ne_nil _ (by simp), List.getLast?_cons_of_ne_nil hx]; exact hlast
    rw [StopsAtEnd, hchild]
    refine ⟨fun h => ?_, stopsAtEnd_below labels _ (by simp) hlast' ho⟩
    rw [trimEndMatches_concat_self, trimEndMatches_eq_self hlast', ho, below] at h
    have := below_length labels (label ++ '.' :: x)
    rw [← h] at this
    exact List.length_eq_zero_iff.mp (by omega)

theorem stopsAtEnd_walkLabels (owner : Text) : StopsAtEnd owner (walkLabels owner) ['.'] := by
  obtain ⟨top, labels, hl, ho, htop, hlast⟩ := walkLabels_spec owner
  have hchild : childName top ['.'] = top ++ ['.'] := by rw [childName, if_pos rfl]
  rw [hl, StopsAtEnd, hchild]
  by_cases ht : top = []
  · rw [htop ht]; exact ⟨fun _ => rfl, trivial⟩
  · refine ⟨fun h => ?_, stopsAtEnd_below labels top ht hlast ho⟩
    rw [trimEndMatches_concat_self, trimEndMatches_eq_self hlast, ho] at h
    have := below_length labels top
    rw [← h] at this
    exact List.length_eq_zero_iff.mp (by omega)

end

/-! What the walk's answer means. -/

section
variable {σ : Type} {c : Crypto} {now : Nat} {owner : Text} {rrset rrsigs : List Record} {fetch : Fetch σ}

/-- A level passed: the walk goes on below it with its keys. -/
theorem chainLoop_accepted (rrset rrsigs : List Record) {label : Text} {labels : List Text} {keys : List Record}
    {current : Text} {s : σ}
    (hstop : trimEndMatches '.' (childName label current) = trimEndMatches '.' owner → labels = [])
    {l : Level} {ls : List Level} (hl : walkLevels fetch (label :: labels) current s = l :: ls)
    (h : LevelAccepted c now keys l) : ∃ s', ls = walkLevels fetch labels (childName label current) s' ∧
      chainLoop c now fetch owner rrset rrsigs (label :: labels) keys current s =
        chainLoop c now fetch owner rrset rrsigs labels l.keys (childName label current) s' := by
  obtain ⟨hds, hdsSigs, hkeys, hvouch, hself⟩ := h
  simp only [walkLevels, List.cons.injEq] at hl
  obtain ⟨rfl, rfl⟩ := hl
  refine ⟨_, rfl, ?_⟩
  simp only [chainLoop, if_neg hds, hdsSigs, if_neg hkeys, hvouch, hself, ne_eq, not_true_eq_false, if_false]
  split
  · next hs => rw [hstop hs, chainLoop]
  · rfl

/-- A level refused: the walk's answer is not Secure. -/
theorem chainLoop_refused {label : Text} {labels : List Text} {keys : List Record} {current : Text} {s : σ}
    {l : Level} {ls : List Level} (hl : walkLevels fetch (label :: labels) current s = l :: ls)
    (h : ¬ LevelAccepted c now keys l) :
    (chainLoop c now fetch owner rrset rrsigs (label :: labels) keys current s).1 ≠ .Secure := by
  simp only [walkLevels, List.cons.injEq] at hl
  obtain ⟨rfl, rfl⟩ := hl
  simp only [chainLoop]
  split
  · simp
  · next hds =>
    split
    · simp
    · next hdsSigs =>
      split
      · simp
      · next hkeys =>
        split
        · simp
        · next hvouch =>
          split
          · simp
          · next hself =>
            exact absurd ⟨hds, not_not.mp hdsSigs, hkeys, not_not.mp hvouch, not_not.mp hself⟩ h

theorem chainLoop_secure_iff (c : Crypto) (now : Nat) (rrset rrsigs : List Record) (fetch : Fetch σ) :
    ∀ (labels : List Text) (keys : List Record) (current : Text) (s : σ),
    StopsAtEnd owner labels current →
    ((chainLoop c now fetch owner rrset rrsigs labels keys current s).1 = .Secure ↔
      Linked (LevelAccepted c now) keys (walkLevels fetch labels current s) ∧
        validateRrset c now rrset rrsigs (lastKeys keys (walkLevels fetch labels current s)) = .Secure)
  | [], keys, current, s, _ => by simp [chainLoop, walkLevels, Linked, lastKeys]
  | label :: labels, keys, current, s, hstop => by
    obtain ⟨l, ls, hl⟩ : ∃ l ls, walkLevels fetch (label :: labels) current s = l :: ls := ⟨_, _, rfl⟩
    by_cases h : LevelAccepted c now keys l
    · obtain ⟨s', hls, hrun⟩ := chainLoop_accepted rrset rrsigs hstop.1 hl h
      rw [hrun, chainLoop_secure_iff c now rrset rrsigs fetch labels l.keys _ s' hstop.2, hl, ← hls]
      simp [Linked, h, lastKeys]
    · rw [hl]
      exact ⟨fun hs => absurd hs (chainLoop_refused hl h), fun hs => absurd hs.1.1 h⟩

/-- The checks of `chain_validate`, on the replies of the walk. -/
structure Accepted (c : Crypto) (now : Nat) (owner : Text) (rrset rrsigs : List Record) (fetch : Fetch σ) (s : σ) :
    Prop where
  root_keys : (rootReply fetch s).1 ≠ []
  root : validateRootDnskeys c (rootReply fetch s).1 = .Secure
  levels : Linked (LevelAccepted c now) (rootReply fetch s).1 (levels owner fetch s)
  answer : validateRrset c now rrset rrsigs (lastKeys (rootReply fetch s).1 (Ironbind.levels owner fetch s)) = .Secure

theorem chainValidate_secure_iff (s : σ) :
    (chainValidate c now owner rrset rrsigs fetch s).1 = .Secure ↔ Accepted c now owner rrset rrsigs fetch s := by
  have hloop := chainLoop_secure_iff c now rrset rrsigs fetch
    (walkLabels owner) (rootReply fetch s).1 ['.'] (fetch ['.'] .DNSKEY s).2 (stopsAtEnd_walkLabels owner)
  simp only [chainValidate]
  constructor
  · intro h
    split at h
    · simp at h
    · next hk =>
      split at h
      · simp at h
      · next hr =>
        have h := hloop.mp h
        exact ⟨hk, not_not.mp hr, h.1, h.2⟩
  · intro h
    have hk := h.root_keys
    have hr := h.root
    rw [rootReply] at hk hr
    rw [if_neg hk, if_neg (not_not.mpr hr)]
    exact hloop.mpr ⟨h.levels, h.answer⟩

/-! Soundness. -/

/-- One link of a chain of trust: the DS set is signed by a key of the parent, and one key of the
    set is vouched for by a DS of it and signs the whole set. -/
def LevelTrusted (c : Crypto) (now : Nat) (parentKeys : List Record) (l : Level) : Prop :=
  (∃ key ∈ parentKeys, Signs c now l.ds l.dsSigs key) ∧
    ∃ key ∈ l.keys, Vouched c l.ds key ∧ Signs c now l.keys l.keySigs key

/-- A chain of trust: the root's key set signed by a pinned key of it, a link for every level, and the
    answer signed by a key of the last set. -/
structure TrustChain (c : Crypto) (now : Nat) (rrset rrsigs rootKeys rootSigs : List Record) (ls : List Level) :
    Prop where
  root : ∃ key ∈ rootKeys, Anchored c key ∧ Signs c now rootKeys rootSigs key
  levels : Linked (LevelTrusted c now) rootKeys ls
  answer : ∃ key ∈ lastKeys rootKeys ls, Signs c now rrset rrsigs key

/-- A key set whose vouched keys and whose signers are different keys: it has some of each, and no key
    is both. -/
def Parted (vouched signs : Record → Prop) (keys : List Record) : Prop :=
  (∃ key ∈ keys, vouched key) ∧ (∃ key ∈ keys, signs key) ∧ ∀ key ∈ keys, vouched key → ¬ signs key

/-- No key set among the replies of a walk lets a key in that nobody vouches for: a pinned key in the
    root's set signs it or another pinned one does, and no child's set is parted. -/
structure Unparted (c : Crypto) (now : Nat) (owner : Text) (fetch : Fetch σ) (s : σ) : Prop where
  root : ∀ key ∈ (rootReply fetch s).1, Anchored c key →
    ∃ key ∈ (rootReply fetch s).1, Anchored c key ∧ Signs c now (rootReply fetch s).1 (rootReply fetch s).2 key
  levels : ∀ l ∈ levels owner fetch s, ¬ Parted (Vouched c l.ds) (Signs c now l.keys l.keySigs) l.keys

theorem exists_both_of_not_parted {vouched signs : Record → Prop} {keys : List Record}
    (h : ¬ Parted vouched signs keys) (hv : ∃ key ∈ keys, vouched key) (hs : ∃ key ∈ keys, signs key) :
    ∃ key ∈ keys, vouched key ∧ signs key := by
  by_contra hno
  exact h ⟨hv, hs, fun key hk hvouched hsigns => hno ⟨key, hk, hvouched, hsigns⟩⟩

/-- The pins are looked for in the root's set, and one is there. -/
theorem validateRootDnskeys_secure {keys : List Record} (h : validateRootDnskeys c keys = .Secure) :
    ∃ key ∈ keys, Anchored c key := by
  obtain ⟨key, hk, hv⟩ := validateDnskeyWithDs_secure h
  exact ⟨key, hk, (anchored_iff_vouched c key).mpr hv⟩

/-- A level that passes the walk's checks has a vouched key and a signer. Not parted, it is trusted. -/
theorem LevelAccepted.trusted {parentKeys : List Record} {l : Level} (h : LevelAccepted c now parentKeys l)
    (hnot : ¬ Parted (Vouched c l.ds) (Signs c now l.keys l.keySigs) l.keys) : LevelTrusted c now parentKeys l := by
  obtain ⟨-, hds, -, hvouch, hself⟩ := h
  exact ⟨validateRrset_secure hds,
    exists_both_of_not_parted hnot (validateDnskeyWithDs_secure hvouch) (validateRrset_secure hself)⟩

/-- **The chain of trust, and where it breaks.** From replies without a parted key set, whoever sends them,
    Secure means a chain of trust. Where the verdict is Secure no weaker condition does: a chain of trust
    in the replies leaves no set parted. -/
theorem chainValidate_sound (c : Crypto) (now : Nat) (owner : Text) (rrset rrsigs : List Record)
    (fetch : Fetch σ) (s : σ) :
    (Unparted c now owner fetch s → (chainValidate c now owner rrset rrsigs fetch s).1 = .Secure →
      TrustChain c now rrset rrsigs (rootReply fetch s).1 (rootReply fetch s).2 (levels owner fetch s)) ∧
    ((chainValidate c now owner rrset rrsigs fetch s).1 = .Secure →
      TrustChain c now rrset rrsigs (rootReply fetch s).1 (rootReply fetch s).2 (levels owner fetch s) →
      Unparted c now owner fetch s) := by
  constructor
  · intro hunparted hsecure
    have hacc := (chainValidate_secure_iff s).mp hsecure
    obtain ⟨key, hk, hpin⟩ := validateRootDnskeys_secure hacc.root
    -- the walk's checks give a vouched key and a signer for each set; unparted, one key is both
    exact ⟨hunparted.root key hk hpin,
      hacc.levels.imp fun l hl keys hchecks => hchecks.trusted (hunparted.levels l hl),
      validateRrset_secure hacc.answer⟩
  · intro _ hchain
    refine ⟨fun _ _ _ => hchain.root, fun l hl hparted => ?_⟩
    obtain ⟨_, -, key, hk, hvouched, hsigns⟩ := hchain.levels.of_mem l hl
    exact hparted.2.2 key hk hvouched hsigns

end

/-! A root key set with a key added to it. -/

/-- The root's KSK-2017. -/
def ksk2017 : Record where
  name := ['.']
  rtype := .DNSKEY
  rclass := CLASS_IN
  ttl := 172800
  rdata :=
    [1, 1, 3, 8, 3, 1, 0, 1, 172, 255, 180, 9, 188, 201, 57, 248, 49, 247, 161, 229, 236, 136, 247, 165,
     146, 85, 236, 83, 4, 11, 228, 50, 2, 115, 144, 164, 206, 137, 109, 111, 144, 134, 243, 197, 225,
     119, 251, 254, 17, 129, 99, 170, 236, 122, 241, 70, 44, 71, 148, 89, 68, 196, 226, 192, 38, 190, 94,
     152, 187, 205, 237, 37, 151, 130, 114, 225, 227, 224, 121, 197, 9, 77, 87, 63, 14, 131, 201, 47, 2,
     179, 45, 53, 19, 177, 85, 11, 130, 105, 41, 200, 13, 208, 249, 44, 172, 150, 109, 23, 118, 159, 213,
     134, 123, 100, 124, 63, 56, 2, 154, 189, 196, 129, 82, 235, 143, 32, 113, 89, 236, 197, 210, 50,
     199, 193, 83, 124, 121, 244, 183, 172, 40, 255, 17, 104, 47, 33, 104, 27, 246, 214, 171, 165, 85, 3,
     43, 246, 249, 240, 54, 190, 178, 170, 165, 179, 119, 141, 110, 235, 251, 166, 191, 158, 161, 145,
     190, 74, 176, 202, 234, 117, 158, 47, 119, 58, 31, 144, 41, 199, 62, 203, 141, 87, 53, 185, 50, 29,
     176, 133, 241, 184, 226, 216, 3, 143, 226, 148, 25, 146, 84, 140, 238, 13, 103, 221, 69, 71, 225,
     29, 214, 58, 249, 201, 252, 28, 84, 102, 251, 104, 76, 240, 9, 215, 25, 124, 44, 247, 158, 121, 42,
     181, 1, 230, 168, 161, 202, 81, 154, 242, 203, 155, 95, 99, 103, 233, 76, 13, 71, 80, 36, 81, 53,
     123, 225, 181]

/-- SHA-256 on the one input whose digest is pinned, and a scheme in which a signature is the
    modulus's low octet in front of the digest. -/
def toyCrypto : Crypto where
  sha1 := id
  sha256 := fun m => if m = 0 :: ksk2017.rdata then (rootAnchors.headD ⟨0, 0, 0, ""⟩).digest else m
  sha384 := id
  sha512 := id
  rsa := fun _ n _ digest signature => .ok (signature == UInt8.ofNat n :: digest)
  p256 := fun _ _ _ => .ok false
  p384 := fun _ _ _ => .ok false
  ed25519 := fun _ _ _ => .ok false

/-- A key with exponent 3 and a modulus of one octet. -/
def toyKey (name : Text) (modulus : UInt8) : Record :=
  ⟨name, .DNSKEY, CLASS_IN, 3600, [1, 1, 3, 8, 1, 3, modulus]⟩

/-- The RRSIG fields of such a key. -/
def toyFields (t : RType) (modulus : UInt8) : Rrsig :=
  ⟨t.toU16, 8, 1, 3600, 4294967295, 0, keyTag (toyKey [] modulus).rdata, ['.'], []⟩

/-- The signature of such a key over an RRset. -/
def toySig (name : Text) (t : RType) (modulus : UInt8) (rrset : List Record) : Record :=
  ⟨name, .RRSIG, CLASS_IN, 3600,
    rrsigFields (toyFields t modulus) ++ modulus :: buildSignedData (toyFields t modulus) rrset⟩

theorem ksk2017_second : ksk2017.rdata[1]? = some 1 := rfl

/-- Signed data is its own digest. -/
theorem toyCrypto_sha256 (t : RType) (modulus : UInt8) (rrset : List Record) :
    toyCrypto.sha256 (buildSignedData (toyFields t modulus) rrset) = buildSignedData (toyFields t modulus) rrset := by
  refine if_neg fun h => ?_
  have h2 := congrArg (·[2]?) h
  rw [List.getElem?_cons_succ, ksk2017_second] at h2
  exact absurd (Option.some.inj h2) (show (8 : UInt8) ≠ 1 by decide)

theorem verify_toySig (t : RType) (modulus : UInt8) (signed rrset : List Record) :
    verifySignature toyCrypto 8 [1, 3, modulus] (buildSignedData (toyFields t modulus) rrset)
      (modulus :: buildSignedData (toyFields t modulus) signed) =
    .ok (decide (buildSignedData (toyFields t modulus) signed = buildSignedData (toyFields t modulus) rrset)) := by
  have hkey : parseRsaPubkey [1, 3, modulus] = .ok ([3], [modulus]) := rfl
  have hm : UInt8.ofNat (fromBytesBe [modulus]) = modulus := by simp [fromBytesBe]
  show verifyRsa toyCrypto _ _ _ .Sha256 = _
  rw [verifyRsa, hkey]
  show Except.ok (_ == UInt8.ofNat (fromBytesBe [modulus]) ::
    toyCrypto.sha256 (buildSignedData (toyFields t modulus) rrset)) = _
  rw [hm, toyCrypto_sha256, List.cons_beq_cons, beq_self_eq_true, Bool.true_and, beq_eq_decide]

/-- A toy signature, listed first, is judged by what it was made over. -/
theorem validateRrset_toySig {now : Nat} (hnow : now ≤ 4294967295) (name : Text) (t : RType) (modulus : UInt8)
    {signed rrset keys rest : List Record} (hr : rrset ≠ []) {owner : Text}
    (hk : keys.find? (keyMatches (keyTag (toyKey [] modulus).rdata) 8) = some (toyKey owner modulus)) :
    validateRrset toyCrypto now rrset (toySig name t modulus signed :: rest) keys =
      if buildSignedData (toyFields t modulus) signed = buildSignedData (toyFields t modulus) rrset then .Secure
      else .Bogus "signature mismatch" := by
  have hkeys : keys ≠ [] := by rintro rfl; simp at hk
  have hkey : parseDnskey (toyKey owner modulus).rdata = .ok ⟨257, 3, 8, [1, 3, modulus]⟩ := parseDnskey_eq 257 3 8 _
  have hsig : parseRrsig (toySig name t modulus signed).rdata =
      .ok { toyFields t modulus with signature := modulus :: buildSignedData (toyFields t modulus) signed } :=
    parseRrsig_eq (toyFields t modulus) _ (by simp [toyFields])
  have hv := verify_toySig t modulus signed rrset
  rw [validateRrset, if_neg (by simp [hr, hkeys]),
    validateSigs_verdict hsig (Nat.zero_le now) hnow hk hkey (by rw [buildSignedData_signature]; exact hv)]
  simp

def com : Text := ['c', 'o', 'm']

def comKeys : List Record := [toyKey com 77]

def comDs : List Record :=
  [⟨com, .DS, CLASS_IN, 3600, be16 (keyTag (toyKey com 77).rdata) ++ [8, 2] ++ canonicalName com ++
    (toyKey com 77).rdata⟩]

def comAnswer : List Record := [⟨com, .A, CLASS_IN, 3600, [192, 0, 2, 1]⟩]

/-- The genuine root key, and another beside it. -/
def rootKeys : List Record := [ksk2017, toyKey ['.'] 66]

theorem rootKeys_find : rootKeys.find? (keyMatches (keyTag (toyKey [] 66).rdata) 8) = some (toyKey ['.'] 66) := by
  decide +kernel

theorem rootKeys_anchored : validateRootDnskeys toyCrypto rootKeys = .Secure := by decide +kernel

theorem comKeys_find : comKeys.find? (keyMatches (keyTag (toyKey [] 77).rdata) 8) = some (toyKey com 77) := by
  decide

/-- The replies for "com.": its DS set signed with the other root key, its keys with their own. -/
def comLevel : Level :=
  ⟨com ++ ['.'], comDs, [toySig com .DS 66 comDs], comKeys, [toySig com .DNSKEY 77 comKeys]⟩

theorem comLevel_accepted : LevelAccepted toyCrypto 1000 rootKeys comLevel := by
  refine ⟨List.cons_ne_nil _ _, ?_, List.cons_ne_nil _ _, by decide, ?_⟩
  · exact (validateRrset_toySig (by decide) com .DS 66 (List.cons_ne_nil _ _) rootKeys_find).trans (if_pos rfl)
  · exact (validateRrset_toySig (by decide) com .DNSKEY 77 (List.cons_ne_nil _ _) comKeys_find).trans (if_pos rfl)

/-- An upstream that adds a key of its own to the root's, leaves the set unsigned, and below it serves
    what its own key signed. -/
def addedKeyFetch : Fetch Unit := fun name t s =>
  (if name = ['.'] then (rootKeys, [])
   else if t = .DS then (comDs, [toySig com .DS 66 comDs])
   else (comKeys, [toySig com .DNSKEY 77 comKeys]), s)

/-- The walk passes from these root keys, whatever is said of their signatures. -/
theorem comAnswer_secure {fetch : Fetch Unit} (hroot : (rootReply fetch ()).1 = rootKeys)
    (hlevels : levels com fetch () = [comLevel]) :
    (chainValidate toyCrypto 1000 com comAnswer [toySig com .A 77 comAnswer] fetch ()).1 = .Secure := by
  refine (chainValidate_secure_iff ()).mpr ⟨?_, ?_, ?_, ?_⟩
  · rw [hroot]; exact List.cons_ne_nil _ _
  · rw [hroot]; exact rootKeys_anchored
  · rw [hroot, hlevels]; exact ⟨comLevel_accepted, trivial⟩
  · rw [hroot, hlevels]
    exact (validateRrset_toySig (by decide) com .A 77 (List.cons_ne_nil _ _) comKeys_find).trans (if_pos rfl)

/-- The added key is trusted: the answer is Secure, and there is no chain of trust from this root set. -/
theorem addedKey_secure :
    (chainValidate toyCrypto 1000 com comAnswer [toySig com .A 77 comAnswer] addedKeyFetch ()).1 = .Secure ∧
    ∀ ls, ¬ TrustChain toyCrypto 1000 comAnswer [toySig com .A 77 comAnswer]
      (rootReply addedKeyFetch ()).1 (rootReply addedKeyFetch ()).2 ls := by
  refine ⟨comAnswer_secure rfl rfl, fun ls h => ?_⟩
  have hroot : rootReply addedKeyFetch () = (rootKeys, []) := rfl
  obtain ⟨_, _, _, sigRec, hs, _⟩ := h.root
  rw [hroot] at hs
  exact absurd hs List.not_mem_nil

/-- The RRSIG fields of the KSK over the root's keys. -/
def rootFields : Rrsig :=
  ⟨RType.DNSKEY.toU16, 8, 0, 172800, 4294967295, 0, 20326, ['.'], []⟩

/-- The KSK's signature over the root's keys: the low octet of its modulus in front of what is signed. -/
def rootSig : Record :=
  ⟨['.'], .RRSIG, CLASS_IN, 172800, rrsigFields rootFields ++ 181 :: buildSignedData rootFields rootKeys⟩

/-- The same upstream with the root's set signed by the pinned key. -/
def signedRootFetch : Fetch Unit := fun name t s =>
  (if name = ['.'] then (rootKeys, [rootSig])
   else if t = .DS then (comDs, [toySig com .DS 66 comDs])
   else (comKeys, [toySig com .DNSKEY 77 comKeys]), s)

theorem ksk2017_anchored : Anchored toyCrypto ksk2017 := by
  have hpinned : validateRootDnskeys toyCrypto [ksk2017] = .Secure := by decide +kernel
  obtain ⟨key, hk, hkey⟩ := validateRootDnskeys_secure hpinned
  rwa [List.mem_singleton.mp hk] at hkey

theorem ksk2017_signs : Signs toyCrypto 1000 rootKeys [rootSig] ksk2017 := by
  have hsig : parseRrsig rootSig.rdata =
      .ok { rootFields with signature := 181 :: buildSignedData rootFields rootKeys } :=
    parseRrsig_eq rootFields _ (by simp [rootFields])
  have hkey : parseDnskey ksk2017.rdata = .ok ⟨257, 3, 8, ksk2017.rdata.drop 4⟩ := parseDnskey_eq 257 3 8 _
  refine ⟨rootSig, List.mem_singleton_self _, _, _, hsig, hkey, Nat.zero_le _, by decide, by decide +kernel, ?_⟩
  rw [buildSignedData_signature]
  decide +kernel

/-- No set of it is parted: the root's is signed by its pinned key, and com has one key. -/
theorem signedRoot_unparted : Unparted toyCrypto 1000 com signedRootFetch () where
  root := fun _ _ _ => ⟨ksk2017, List.mem_cons_self, ksk2017_anchored, ksk2017_signs⟩
  levels := by
    intro l hl hparted
    have hlevels : levels com signedRootFetch () = [comLevel] := rfl
    rw [hlevels, List.mem_singleton] at hl
    obtain ⟨⟨key, hk, hvouched⟩, ⟨key', hk', hsigns⟩, hnone⟩ := hparted
    rw [hl] at hk hk' hvouched hsigns hnone
    obtain rfl : key = toyKey com 77 := List.mem_singleton.mp hk
    obtain rfl : key' = toyKey com 77 := List.mem_singleton.mp hk'
    exact hnone _ hk hvouched hsigns

/-- Its answer is Secure, by a chain of trust. -/
theorem chainValidate_sound_signedRoot :
    TrustChain toyCrypto 1000 comAnswer [toySig com .A 77 comAnswer] rootKeys [rootSig] [comLevel] :=
  (chainValidate_sound toyCrypto 1000 com comAnswer [toySig com .A 77 comAnswer] signedRootFetch ()).1
    signedRoot_unparted (comAnswer_secure rfl rfl)

/-! Correctly signed trees. -/

section
variable {σ : Type} {c : Crypto} {now : Nat} {owner : Text} {rrset rrsigs : List Record}

/-- The RRsets of a name space, each with its signatures. -/
abbrev Tree := Text → RType → List Record × List Record

/-- The replies a tree gives for one name. -/
def Tree.level (tree : Tree) (name : Text) : Level :=
  ⟨name, (tree name .DS).1, (tree name .DS).2, (tree name .DNSKEY).1, (tree name .DNSKEY).2⟩

/-- The deepest zone cut among names that lead down from the root, the root if there is none. -/
def closestZone (cut : Text → Bool) (names : List Text) : Text := (names.filter cut).getLastD ['.']

/-- A correctly signed tree, along the names from the root to the owner: the root's keys are the
    pinned ones, every zone cut has DS and DNSKEY sets that validate under the closest zone above
    it, and other names have no DS. -/
structure SignedTree (c : Crypto) (now : Nat) (owner : Text) (tree : Tree) (cut : Text → Bool) : Prop where
  root_keys : (tree ['.'] .DNSKEY).1 ≠ []
  root : validateRootDnskeys c (tree ['.'] .DNSKEY).1 = .Secure
  cuts : ∀ above name below, walkNames (walkLabels owner) ['.'] = above ++ name :: below → cut name →
    LevelAccepted c now (tree (closestZone cut above) .DNSKEY).1 (tree.level name)
  no_ds : ∀ name ∈ walkNames (walkLabels owner) ['.'], ¬ cut name → (tree name .DS).1 = []

/-- An upstream that replies with a tree, whatever else it does. -/
def Describes (fetch : Fetch σ) (tree : Tree) : Prop := ∀ name t s, (fetch name t s).1 = tree name t

theorem closestZone_concat (cut : Text → Bool) (names : List Text) (name : Text) :
    closestZone cut (names ++ [name]) = if cut name then name else closestZone cut names := by
  unfold closestZone
  rw [List.filter_append]
  by_cases h : cut name <;> simp [h]

theorem closestZone_cases (cut : Text → Bool) (names : List Text) :
    closestZone cut names = ['.'] ∨ closestZone cut names ∈ names ∧ cut (closestZone cut names) := by
  induction names using List.reverseRecOn with
  | nil => exact .inl rfl
  | append_singleton names name ih =>
    rw [closestZone_concat]
    split
    · next h => exact .inr ⟨by simp, h⟩
    · exact ih.imp_right fun ⟨hm, hc⟩ => ⟨List.mem_append_left _ hm, hc⟩

theorem walkLevels_describes {fetch : Fetch σ} {tree : Tree} (hd : Describes fetch tree) (label : Text)
    (labels : List Text) (current : Text) (s : σ) : ∃ ls,
    walkLevels fetch (label :: labels) current s = tree.level (childName label current) :: ls := by
  have hds := hd (childName label current) .DS s
  have hkeys := hd (childName label current) .DNSKEY (fetch (childName label current) .DS s).2
  rw [Tree.level, ← hds, ← hkeys]
  exact ⟨_, rfl⟩

/-- The walk over a tree from the names already `above`: it ends in the closest zone's verdict when
    every name ahead is a zone cut, and is Insecure when one is not. -/
theorem chainLoop_tree (rrset rrsigs : List Record) {fetch : Fetch σ} {tree : Tree} {cut : Text → Bool}
    (hd : Describes fetch tree)
    (ht : SignedTree c now owner tree cut) : ∀ (labels : List Text) (current : Text) (above : List Text) (s : σ),
    walkNames (walkLabels owner) ['.'] = above ++ walkNames labels current → StopsAtEnd owner labels current →
    (chainLoop c now fetch owner rrset rrsigs labels (tree (closestZone cut above) .DNSKEY).1 current s).1 =
      if ∀ name ∈ walkNames labels current, cut name then
        validateRrset c now rrset rrsigs (tree (closestZone cut (above ++ walkNames labels current)) .DNSKEY).1
      else .Insecure
  | [], current, above, s, _, _ => by simp [chainLoop, walkNames]
  | label :: labels, current, above, s, hnames, hstop => by
    rw [walkNames] at hnames ⊢
    set child := childName label current with hchild
    by_cases hcut : cut child
    · obtain ⟨ls, hl⟩ := walkLevels_describes hd label labels current s
      obtain ⟨s', -, hrun⟩ := chainLoop_accepted rrset rrsigs hstop.1 hl
        (ht.cuts above child _ hnames hcut)
      have hzone : closestZone cut (above ++ [child]) = child := by rw [closestZone_concat, if_pos hcut]
      have ih := chainLoop_tree rrset rrsigs hd ht labels child (above ++ [child]) s' (by simpa using hnames) hstop.2
      rw [hzone] at ih
      rw [hrun]
      show (chainLoop c now fetch owner rrset rrsigs labels (tree child .DNSKEY).1 child s').1 = _
      rw [ih]
      simp [hcut]
    · have hds : (tree child .DS).1 = [] := ht.no_ds child (by rw [hnames]; simp) hcut
      rw [if_neg fun h => hcut (h child List.mem_cons_self)]
      have hnone : (fetch child .DS s).1.1 = [] := by rw [hd child .DS s, hds]
      simp only [chainLoop]
      rw [← hchild, if_pos hnone]

/-- An RRset and signatures that are there are never Insecure under a zone's keys. -/
theorem validateSigs_ne_insecure (dnskeys : List Record) : ∀ rrsigs : List Record,
    validateSigs c now rrset dnskeys rrsigs ≠ .Insecure
  | [] => by simp [validateSigs]
  | sigRec :: rest => by
    have ih := validateSigs_ne_insecure dnskeys rest
    rw [validateSigs]
    split
    · exact ih
    · split
      · exact ih
      · split
        · exact ih
        · split
          · exact ih
          · split
            · exact ih
            · split
              · simp
              · simp
              · exact ih

theorem validateRrset_insecure_iff {dnskeys : List Record} (hk : dnskeys ≠ []) :
    validateRrset c now rrset rrsigs dnskeys = .Insecure ↔ rrset = [] ∨ rrsigs = [] := by
  rw [validateRrset]
  split
  · next h => simpa [hk] using h
  · next h =>
    exact ⟨fun he => absurd he (validateSigs_ne_insecure dnskeys rrsigs), fun he => absurd (by tauto) h⟩

/-- The closest zone has keys. -/
theorem SignedTree.keys_ne_nil {tree : Tree} {cut : Text → Bool} (ht : SignedTree c now owner tree cut) :
    (tree (closestZone cut (walkNames (walkLabels owner) ['.'])) .DNSKEY).1 ≠ [] := by
  rcases closestZone_cases cut (walkNames (walkLabels owner) ['.']) with h | ⟨hmem, hcut⟩
  · rw [h]; exact ht.root_keys
  · obtain ⟨above, below, hnames⟩ := List.append_of_mem hmem
    exact (ht.cuts above _ below hnames hcut).2.2.1

/-- The walk over a signed tree, from the root. -/
theorem chainValidate_tree {fetch : Fetch σ} (s : σ) {tree : Tree} {cut : Text → Bool} (hd : Describes fetch tree)
    (ht : SignedTree c now owner tree cut) :
    (chainValidate c now owner rrset rrsigs fetch s).1 =
      if ∀ name ∈ walkNames (walkLabels owner) ['.'], cut name then
        validateRrset c now rrset rrsigs (tree (closestZone cut (walkNames (walkLabels owner) ['.'])) .DNSKEY).1
      else .Insecure := by
  have hk : ¬ (fetch ['.'] .DNSKEY s).1.1 = [] := by rw [hd ['.'] .DNSKEY s]; exact ht.root_keys
  have hr : validateRootDnskeys c (fetch ['.'] .DNSKEY s).1.1 = .Secure := by
    rw [hd ['.'] .DNSKEY s]; exact ht.root
  have hwalk := chainLoop_tree rrset rrsigs hd ht (walkLabels owner) ['.'] []
    (fetch ['.'] .DNSKEY s).2 rfl (stopsAtEnd_walkLabels owner)
  rw [show tree (closestZone cut []) .DNSKEY = tree ['.'] .DNSKEY from rfl, ← hd ['.'] .DNSKEY s,
    List.nil_append] at hwalk
  rw [← hwalk]
  simp only [chainValidate]
  rw [if_neg hk, if_neg (not_not.mpr hr)]
  rfl

/-- **Where the walk follows the zones.** On a correctly signed tree the answer is the closest zone's
    verdict exactly when every name from the top-level domain to the owner is a zone cut, or
    there is nothing to validate. -/
theorem chainValidate_exact_iff (c : Crypto) (now : Nat) (owner : Text) (rrset rrsigs : List Record)
    (fetch : Fetch σ) (s : σ) (tree : Tree) (cut : Text → Bool) (hd : Describes fetch tree)
    (ht : SignedTree c now owner tree cut) :
    (chainValidate c now owner rrset rrsigs fetch s).1 =
      validateRrset c now rrset rrsigs (tree (closestZone cut (walkNames (walkLabels owner) ['.'])) .DNSKEY).1 ↔
    (∀ name ∈ walkNames (walkLabels owner) ['.'], cut name) ∨ rrset = [] ∨ rrsigs = [] := by
  rw [chainValidate_tree s hd ht]
  split
  · next h => exact ⟨fun _ => .inl h, fun _ => rfl⟩
  · next h =>
    rw [eq_comm, validateRrset_insecure_iff ht.keys_ne_nil]
    simp only [h, false_or]

end

/-! A host below a zone's apex. -/

def wwwCom : Text := ['w', 'w', 'w', '.', 'c', 'o', 'm']

/-- The root and one signed zone below it. -/
def comTree : Tree := fun name t =>
  if name = ['.'] ∧ t = .DNSKEY then (rootKeys, [toySig ['.'] .DNSKEY 66 rootKeys])
  else if name = com ++ ['.'] ∧ t = .DS then (comDs, [toySig com .DS 66 comDs])
  else if name = com ++ ['.'] ∧ t = .DNSKEY then (comKeys, [toySig com .DNSKEY 77 comKeys])
  else ([], [])

def comCut (name : Text) : Bool := name = com ++ ['.']

theorem walkNames_wwwCom : walkNames (walkLabels wwwCom) ['.'] = [com ++ ['.'], wwwCom ++ ['.']] := by decide

theorem comTree_root : (comTree ['.'] .DNSKEY).1 = rootKeys := by simp [comTree]

theorem comTree_com : comTree.level (com ++ ['.']) = comLevel := by simp [Tree.level, comTree, com, comLevel]

theorem comTree_signed : SignedTree toyCrypto 1000 wwwCom comTree comCut where
  root_keys := by rw [comTree_root]; exact List.cons_ne_nil _ _
  root := by rw [comTree_root]; exact rootKeys_anchored
  cuts := by
    intro above name below hnames hcut
    rw [walkNames_wwwCom] at hnames
    have hname : name = com ++ ['.'] := by simpa [comCut] using hcut
    have habove : above = [] := by
      rcases above with _ | ⟨a, _ | ⟨b, above⟩⟩
      · rfl
      · rw [hname] at hnames; exact absurd (List.cons.inj (List.cons.inj hnames).2).1 (by decide)
      · simp at hnames
    rw [hname, habove, comTree_com]
    show LevelAccepted toyCrypto 1000 (comTree ['.'] .DNSKEY).1 _
    rw [comTree_root]
    exact comLevel_accepted
  no_ds := by
    intro name hmem hcut
    rw [walkNames_wwwCom] at hmem
    rcases List.mem_cons.mp hmem with rfl | hmem
    · simp [comCut] at hcut
    · rw [List.mem_singleton.mp hmem]; simp [comTree, com, wwwCom]

def comFetch : Fetch Unit := fun name t s => (comTree name t, s)

def wwwAnswer : List Record := [⟨wwwCom, .A, CLASS_IN, 3600, [192, 0, 2, 1]⟩]

theorem chainValidate_exact_www :
    (chainValidate toyCrypto 1000 wwwCom wwwAnswer [toySig wwwCom .A 77 wwwAnswer] comFetch ()).1 =
      validateRrset toyCrypto 1000 wwwAnswer [toySig wwwCom .A 77 wwwAnswer]
        (comTree (closestZone comCut (walkNames (walkLabels wwwCom) ['.'])) .DNSKEY).1 ↔
    (∀ name ∈ walkNames (walkLabels wwwCom) ['.'], comCut name) ∨ wwwAnswer = [] ∨
      [toySig wwwCom .A 77 wwwAnswer] = [] :=
  chainValidate_exact_iff toyCrypto 1000 wwwCom wwwAnswer [toySig wwwCom .A 77 wwwAnswer] comFetch () comTree comCut
    (fun _ _ _ => rfl) comTree_signed

def wrongAnswer : List Record := [⟨wwwCom, .A, CLASS_IN, 3600, [192, 0, 2, 2]⟩]

/-- A signature over another address, for a host in a signed zone: under the zone's keys it is Bogus, but
    the walk stops at the host's own name and says Insecure. -/
theorem wwwBadSignature_insecure : Describes comFetch comTree ∧ SignedTree toyCrypto 1000 wwwCom comTree comCut ∧
    (chainValidate toyCrypto 1000 wwwCom wwwAnswer [toySig wwwCom .A 77 wrongAnswer] comFetch ()).1 = .Insecure ∧
    validateRrset toyCrypto 1000 wwwAnswer [toySig wwwCom .A 77 wrongAnswer]
      (comTree (closestZone comCut (walkNames (walkLabels wwwCom) ['.'])) .DNSKEY).1 =
        .Bogus "signature mismatch" := by
  have hzone : (comTree (closestZone comCut (walkNames (walkLabels wwwCom) ['.'])) .DNSKEY).1 = comKeys := by
    rw [walkNames_wwwCom]
    have : closestZone comCut [com ++ ['.'], wwwCom ++ ['.']] = com ++ ['.'] := by decide
    rw [this]
    exact congrArg Level.keys comTree_com
  have hd : Describes comFetch comTree := fun _ _ _ => rfl
  refine ⟨hd, comTree_signed, ?_, ?_⟩
  · rw [chainValidate_tree () hd comTree_signed, walkNames_wwwCom]
    exact if_neg (by decide)
  · rw [hzone]
    exact (validateRrset_toySig (by decide) wwwCom .A 77 (List.cons_ne_nil _ _) comKeys_find).trans
      (if_neg (by decide))

end Ironbind
