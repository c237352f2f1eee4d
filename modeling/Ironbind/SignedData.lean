import Ironbind.DnssecRdata

/- The octets a signature is made over, against RFC 4034. `reference` is section
   3.1.8.1: the RRSIG's fields with the signer's name in canonical form, then the
   RRset in canonical form and order (sections 6.2 and 6.3), the owner a wildcard
   where the RRSIG counts fewer labels than it has. `build_signed_data` sorts whole
   encoded records, RDLENGTH in front of the data, keeps duplicates, and takes
   owner, signer and data as they are; `Regular` lists the sets on which none of
   this shows, and `buildSignedData_reference_iff` says there are no others. The
   comparison goes through the blocks both sides write: they are prefix-free
   (`rrBlock_decodes`), so equal octets are equal lists of data. -/
namespace Ironbind
open Codec

/-! Canonical record data (RFC 4034, section 6.2). -/

/-- What record data is made of, as far as the names in it can be found. -/
inductive RdataField where
  | octets (n : Nat)
  | string
  | addressSuffix
  | name
  deriving DecidableEq

/-- The octets a field other than a name takes up at the start of the data. -/
def RdataField.width (d : Bytes) : RdataField → Nat
  | octets n => n
  | string => 1 + (d.headD 0).toNat
  | addressSuffix => 1 + (128 - (d.headD 0).toNat + 7) / 8
  | name => 0

/-- The layout of the types whose names are folded to lower case; other data is left alone. -/
def rdataLayout (code : UInt16) : List RdataField :=
  match code.toNat with
  | 2 | 3 | 4 | 5 | 7 | 8 | 9 | 12 | 39 => [.name]
  | 6 | 14 | 17 => [.name, .name]
  | 15 | 18 | 21 | 36 => [.octets 2, .name]
  | 26 => [.octets 2, .name, .name]
  | 33 => [.octets 6, .name]
  | 35 => [.octets 4, .string, .string, .string, .name]
  | 38 => [.addressSuffix, .name]
  | 24 | 46 => [.octets 18, .name]
  | 30 | 47 => [.name]
  | _ => []

def lowerOctet (b : UInt8) : UInt8 := if 65 ≤ b ∧ b ≤ 90 then b + 32 else b

/-- The name at the start of the data in lower case, and what stands behind it; the number
    is how many octets of the current label are left. -/
def lowerName : Nat → Bytes → Bytes × Bytes
  | _, [] => ([], [])
  | 0, b :: d => if b = 0 then ([0], d) else (b :: (lowerName b.toNat d).1, (lowerName b.toNat d).2)
  | k + 1, b :: d => (lowerOctet b :: (lowerName k d).1, (lowerName k d).2)

def lowerFields : List RdataField → Bytes → Bytes
  | [], d => d
  | f :: fs, d =>
    if f = .name then (lowerName 0 d).1 ++ lowerFields fs (lowerName 0 d).2
    else d.take (f.width d) ++ lowerFields fs (d.drop (f.width d))

def canonicalRdata (t : RType) (d : Bytes) : Bytes := lowerFields (rdataLayout t.toU16) d

theorem lowerOctet_idem (b : UInt8) : lowerOctet (lowerOctet b) = lowerOctet b := by
  revert b; decide +kernel

theorem lowerName_length : ∀ (d : Bytes) (k : Nat), (lowerName k d).1.length + (lowerName k d).2.length = d.length
  | [], _ => by simp [lowerName]
  | b :: d, 0 => by
    rw [lowerName]
    split
    · simp [Nat.add_comm]
    · have := lowerName_length d b.toNat
      simp only [List.length_cons]; omega
  | b :: d, k + 1 => by
    have := lowerName_length d k
    simp only [lowerName, List.length_cons]; omega

/-- A name in lower case is left as it is, with anything behind it that was not part of the name. -/
theorem lowerName_idem : ∀ (d : Bytes) (k : Nat) (s : Bytes), ((lowerName k d).2 = [] → s = []) →
    lowerName k ((lowerName k d).1 ++ s) = ((lowerName k d).1, s)
  | [], k, s, h => by
    have hs : s = [] := h (by simp [lowerName])
    simp [hs, lowerName]
  | b :: d, 0, s, h => by
    rw [lowerName] at h ⊢
    by_cases hb : b = 0
    · simp [hb, lowerName]
    · rw [if_neg hb] at h ⊢
      simp only [List.cons_append, lowerName, if_neg hb]
      rw [lowerName_idem d b.toNat s h]
  | b :: d, k + 1, s, h => by
    simp only [lowerName] at h
    simp only [List.cons_append, lowerName, lowerOctet_idem]
    rw [lowerName_idem d k s h]

theorem lowerFields_length : ∀ (fs : List RdataField) (d : Bytes), (lowerFields fs d).length = d.length
  | [], d => rfl
  | f :: fs, d => by
    rw [lowerFields]
    split
    · have h1 := lowerName_length d 0
      have h2 := lowerFields_length fs (lowerName 0 d).2
      rw [List.length_append]; omega
    · have := lowerFields_length fs (d.drop (f.width d))
      simp only [List.length_append, List.length_take, this, List.length_drop]; omega

/-- A field takes up the same octets whatever stands behind it. -/
theorem RdataField.width_take (f : RdataField) (d s : Bytes) (h : d = [] → s = []) :
    f.width (d.take (f.width d) ++ s) = f.width d := by
  cases d with
  | nil => rw [h rfl]; simp
  | cons b d => cases f <;> simp [RdataField.width, Nat.add_comm 1]

theorem lowerFields_idem : ∀ (fs : List RdataField) (d : Bytes),
    lowerFields fs (lowerFields fs d) = lowerFields fs d
  | [], d => rfl
  | f :: fs, d => by
    by_cases hf : f = .name
    · have hrest : (lowerName 0 d).2 = [] → lowerFields fs (lowerName 0 d).2 = [] := fun h =>
        List.length_eq_zero_iff.mp (by rw [lowerFields_length, h]; rfl)
      simp only [lowerFields, if_pos hf, lowerName_idem d 0 _ hrest]
      rw [lowerFields_idem fs]
    · simp only [lowerFields, if_neg hf]
      set w := f.width d with hw
      set s := lowerFields fs (d.drop w) with hs
      have hlen : s.length = d.length - w := by rw [hs, lowerFields_length, List.length_drop]
      have hnil : d = [] → s = [] := fun h => List.length_eq_zero_iff.mp (by rw [hlen, h]; simp)
      have htake : (d.take w ++ s).take w = d.take w ∧ (d.take w ++ s).drop w = s := by
        rcases Nat.le_total w d.length with hle | hle
        · have hl : (d.take w).length = w := List.length_take_of_le hle
          exact ⟨List.take_left' hl, List.drop_left' hl⟩
        · have : s = [] := List.length_eq_zero_iff.mp (by omega)
          rw [this, List.append_nil, List.take_take, Nat.min_self]
          exact ⟨rfl, List.drop_eq_nil_of_le (by rw [List.length_take]; omega)⟩
      rw [hw, RdataField.width_take f d s hnil, ← hw, htake.1, htake.2, hs, lowerFields_idem fs]

theorem canonicalRdata_length (t : RType) (d : Bytes) : (canonicalRdata t d).length = d.length :=
  lowerFields_length _ d

theorem canonicalRdata_idem (t : RType) (d : Bytes) : canonicalRdata t (canonicalRdata t d) = canonicalRdata t d :=
  lowerFields_idem _ d

/-! The reference (RFC 4034, sections 3.1.8.1 and 6.3). -/

/-- An RRset: records of one name, up to case, one type and one class, each with data that
    RDLENGTH can announce. -/
def RRset (n : DomainName) (t : RType) (rclass : UInt16) (rrset : List Record) : Prop :=
  ∀ r ∈ rrset, toAsciiLowercase r.name = n.text ∧ r.rtype = t ∧ r.rclass = rclass ∧ r.rdata.length < 65536

theorem isLabel_star : IsLabel ['*'] := ⟨by decide, by decide, by decide⟩

/-- The owner a signature that counts `labels` labels was made for: the wildcard above the others
    when the name has more. -/
def signedOwner (labels : UInt8) (n : DomainName) : DomainName :=
  if labels.toNat < n.labels.length then
    { labels := ['*'] :: n.labels.drop (n.labels.length - labels.toNat)
      wf := fun l hl => (List.mem_cons.mp hl).elim (fun h => h ▸ isLabel_star)
        fun h => n.wf l (List.mem_of_mem_drop h) }
  else n

/-- The record data of a set in canonical form and order, each once. -/
def canonicalSet (t : RType) (rdatas : List Bytes) : List Bytes :=
  ((rdatas.map (canonicalRdata t)).dedup).insertionSort (· ≤ ·)

/-- A record of the signed data: owner, type, class, original TTL, and the data behind its length. -/
def rrBlock (owner : DomainName) (t : RType) (rclass : UInt16) (ttl : UInt32) (d : Bytes) : Bytes :=
  recordHead owner.wire t.toU16 rclass ttl (UInt16.ofNat d.length) ++ d

def reference (rrsig : Rrsig) (n : DomainName) (t : RType) (rclass : UInt16) (rdatas : List Bytes) : Bytes :=
  rrsigFields { rrsig with signerName := toAsciiLowercase rrsig.signerName } ++
    (canonicalSet t rdatas).flatMap (rrBlock (signedOwner rrsig.labels n) t rclass rrsig.origTtl)

/-! Blocks. -/

theorem signedOwner_labels_iff (labels : UInt8) (n : DomainName) : (signedOwner labels n).labels = n.labels ↔
    n.labels.length ≤ labels.toNat ∨ n.labels = ['*'] :: n.labels.drop (n.labels.length - labels.toNat) := by
  unfold signedOwner
  split
  · next h =>
    constructor
    · intro e; exact .inr e.symm
    · rintro (h' | h')
      · omega
      · exact h'.symm
  · next h => exact ⟨fun _ => .inl (Nat.le_of_not_lt h), fun _ => rfl⟩

theorem signedOwner_lower {labels : UInt8} {n : DomainName} (hl : n.Lower) : (signedOwner labels n).Lower := by
  unfold signedOwner
  split
  · rw [DomainName.Lower, List.map_cons, List.map_drop, hl]; rfl
  · exact hl

/-- Reading a block of the signed data: the owner's labels and the data. -/
def rrReader : Parser (List Text × Bytes) := do
  let labels ← Parser.nameParts
  let _ ← Parser.u16
  let _ ← Parser.u16
  let _ ← Parser.u32
  let rdlen ← Parser.u16
  let d ← Parser.bytes rdlen.toNat
  pure (labels, d)

theorem rrBlock_decodes {owner : DomainName} (hl : owner.Lower) (t : RType) (rclass : UInt16) (ttl : UInt32)
    {d : Bytes} (hd : d.length < 65536) : Decodes rrReader (rrBlock owner t rclass ttl d) (owner.labels, d) := by
  have hname := nameParts_decodes (fun l h => (owner.wf l h).wireLabel)
  rw [show owner.labels.map toAsciiLowercase = owner.labels from hl] at hname
  have hbytes := bytes_decodes d
  rw [← UInt16.toNat_ofNat_of_lt' (n := d.length) hd] at hbytes
  simp only [rrBlock, recordHead, List.append_assoc]
  exact hname.bind' <| (u16_decodes _).bind' <| (u16_decodes _).bind' <| (u32_decodes _).bind' <|
    (u16_decodes _).bind' hbytes.map'

/-- Equal blocks are equal lists of data, under one owner if there are any. -/
theorem rrBlocks_inj {n n' : DomainName} (hl : n.Lower) (hl' : n'.Lower) (t : RType) (rclass : UInt16) (ttl : UInt32)
    {l l' : List Bytes} (h : ∀ d ∈ l, d.length < 65536) (h' : ∀ d ∈ l', d.length < 65536) :
    l.flatMap (rrBlock n t rclass ttl) = l'.flatMap (rrBlock n' t rclass ttl) ↔
      l = l' ∧ (l = [] ∨ n'.labels = n.labels) := by
  have hblock : ∀ (m : DomainName) (ds : List Bytes), ds.flatMap (rrBlock m t rclass ttl) =
      (ds.map fun d => (m.labels, d)).flatMap fun p =>
        recordHead (encodeLabels p.1 ++ [0]) t.toU16 rclass ttl (UInt16.ofNat p.2.length) ++ p.2 := by
    intro m ds
    rw [List.flatMap_map]; rfl
  constructor
  · intro e
    rw [hblock, hblock] at e
    have e := Decodes.flatMap_inj (x := rrReader) _ (fun p hp => ?_) (fun p hp => ?_) e
    · constructor
      · have := congrArg (List.map Prod.snd) e
        simpa using this
      · cases l with
        | nil => exact .inl rfl
        | cons d l =>
          cases l' with
          | nil => simp at e
          | cons d' l' =>
            simp only [List.map_cons, List.cons.injEq, Prod.mk.injEq] at e
            exact .inr e.1.1.symm
    · obtain ⟨d, hd, rfl⟩ := List.mem_map.mp hp
      exact ⟨rrBlock_decodes hl t rclass ttl (h d hd), by simp [recordHead]⟩
    · obtain ⟨d, hd, rfl⟩ := List.mem_map.mp hp
      exact ⟨rrBlock_decodes hl' t rclass ttl (h' d hd), by simp [recordHead]⟩
  · rintro ⟨rfl, rfl | hn⟩
    · rfl
    · rw [hblock, hblock, hn]

/-! The order of the code. -/

/-- What the code sorts by, once the records have one head: the data behind its length. -/
def lengthFirst (d : Bytes) : Bytes := be16 (UInt16.ofNat d.length) ++ d

theorem lengthFirst_le_iff {d e : Bytes} (hd : d.length < 65536) (he : e.length < 65536) :
    lengthFirst d ≤ lengthFirst e ↔ d.length < e.length ∨ d.length = e.length ∧ d ≤ e := by
  have hi : ∀ b : Bytes, b.length < 65536 → (UInt16.ofNat b.length >>> 8).toUInt8.toNat = b.length / 256 := by
    intro b hb
    simp [Nat.shiftRight_eq_div_pow]; omega
  have lo : ∀ b : Bytes, (UInt16.ofNat b.length).toUInt8.toNat = b.length % 256 := by
    intro b
    simp
  simp only [lengthFirst, be16, List.cons_append, List.nil_append, cons_le_cons_iff, UInt8.lt_iff_toNat_lt,
    ← UInt8.toNat_inj, hi d hd, hi e he, lo]
  constructor
  · rintro (h | ⟨h1, h | ⟨h2, h⟩⟩)
    · left; omega
    · left; omega
    · right; exact ⟨by omega, h⟩
  · rintro (h | ⟨h1, h2⟩)
    · by_cases hq : d.length / 256 < e.length / 256
      · exact .inl hq
      · right; exact ⟨by omega, .inl (by omega)⟩
    · right; rw [h1]; exact ⟨rfl, .inr ⟨rfl, h2⟩⟩

theorem RRset.lower {n : DomainName} {t : RType} {rclass : UInt16} {rrset : List Record}
    (h : RRset n t rclass rrset) (hne : rrset ≠ []) : n.Lower := by
  obtain ⟨r, rs, rfl⟩ := List.exists_cons_of_ne_nil hne
  have hname := congrArg labelsOf (h r List.mem_cons_self).1
  rw [labelsOf_lower, n.labelsOf_text] at hname
  rw [DomainName.Lower, ← hname, List.map_map]
  exact List.map_congr_left fun l _ => toAsciiLowercase_idem l

/-- The records of an RRset, in the order the code gives them. -/
theorem buildSignedData_eq {n : DomainName} {t : RType} {rclass : UInt16} {rrset : List Record} (rrsig : Rrsig)
    (h : RRset n t rclass rrset) : buildSignedData rrsig rrset = rrsigFields rrsig ++
      ((rrset.map (·.rdata)).insertionSort (fun d e => lengthFirst d ≤ lengthFirst e)).flatMap
        (rrBlock n t rclass rrsig.origTtl) := by
  have hblock : rrset.map (fun r => canonicalRr { r with ttl := rrsig.origTtl }) =
      (rrset.map (·.rdata)).map (rrBlock n t rclass rrsig.origTtl) := by
    rw [List.map_map]
    refine List.map_congr_left fun r hr => ?_
    obtain ⟨hname, ht, hc, -⟩ := h r hr
    simp only [canonicalRr, hname, n.builder_text, ht, hc, Function.comp, rrBlock, recordHead, Builder.u16,
      Builder.u32, Builder.raw, List.append_assoc]
  have horder : ∀ d e, lengthFirst d ≤ lengthFirst e ↔
      rrBlock n t rclass rrsig.origTtl d ≤ rrBlock n t rclass rrsig.origTtl e := by
    intro d e
    have hd : ∀ d, rrBlock n t rclass rrsig.origTtl d =
        (n.wire ++ (be16 t.toU16 ++ (be16 rclass ++ be32 rrsig.origTtl))) ++ lengthFirst d := by
      intro d
      simp only [rrBlock, recordHead, lengthFirst, List.append_assoc]
    rw [hd, hd, append_le_append_iff]
  rw [buildSignedData, hblock, ← List.map_insertionSort _ _ _ _ fun d _ e _ => horder d e]
  rfl

/-- A set on which the code's shortcuts do not show: the signer's name is written in lower case
    already, the RRSIG counts all the owner's labels (or the owner is that wildcard), the record
    data is canonical, none is there twice, and shorter data never sorts behind longer. -/
structure Regular (rrsig : Rrsig) (n : DomainName) (t : RType) (rdatas : List Bytes) : Prop where
  signer : Builder.name (toAsciiLowercase rrsig.signerName) = Builder.name rrsig.signerName
  owner : rdatas ≠ [] → n.labels.length ≤ rrsig.labels.toNat ∨
    n.labels = ['*'] :: n.labels.drop (n.labels.length - rrsig.labels.toNat)
  canonical : ∀ d ∈ rdatas, canonicalRdata t d = d
  once : rdatas.Nodup
  lengths : ∀ d ∈ rdatas, ∀ e ∈ rdatas, d.length < e.length → d ≤ e

/-- Two orders that sort a list the same way agree on its members. -/
theorem le_of_sorted_both {R : Bytes → Bytes → Prop} (hR : ∀ d, R d d) {l : List Bytes} (h : l.Pairwise R)
    (h' : l.Pairwise (· ≤ ·)) {d e : Bytes} (hd : d ∈ l) (he : e ∈ l) (hne : ¬ R e d) : d ≤ e := by
  have hboth := (h.and h').imp fun {a b} hab => (Or.inl hab : (R a b ∧ a ≤ b) ∨ (R b a ∧ b ≤ a))
  have : Std.Symm fun a b : Bytes => (R a b ∧ a ≤ b) ∨ (R b a ∧ b ≤ a) := ⟨fun _ _ h => h.symm⟩
  rcases hboth.forall_of_forall (fun a _ => .inl ⟨hR a, le_refl a⟩) hd he with h | h
  · exact h.2
  · exact absurd h.1 hne

/-- The code's order gives the canonical set exactly on regular data. -/
theorem sorted_eq_canonicalSet_iff {t : RType} {rdatas : List Bytes} (hlen : ∀ d ∈ rdatas, d.length < 65536) :
    rdatas.insertionSort (fun d e => lengthFirst d ≤ lengthFirst e) = canonicalSet t rdatas ↔
      (∀ d ∈ rdatas, canonicalRdata t d = d) ∧ rdatas.Nodup ∧
      ∀ d ∈ rdatas, ∀ e ∈ rdatas, d.length < e.length → d ≤ e := by
  have hcode : (rdatas.insertionSort fun d e => lengthFirst d ≤ lengthFirst e).Perm rdatas :=
    List.perm_insertionSort _ _
  have : Std.Total fun d e : Bytes => lengthFirst d ≤ lengthFirst e := ⟨fun d e => le_total _ _⟩
  have : IsTrans Bytes fun d e => lengthFirst d ≤ lengthFirst e := ⟨fun _ _ _ => le_trans⟩
  have hsorted := List.pairwise_insertionSort (fun d e => lengthFirst d ≤ lengthFirst e) rdatas
  constructor
  · intro h
    have hperm : rdatas.Perm ((rdatas.map (canonicalRdata t)).dedup) := by
      rw [h] at hcode
      exact hcode.symm.trans (List.perm_insertionSort _ _)
    refine ⟨fun d hd => ?_, hperm.nodup_iff.mpr (List.nodup_dedup _), fun d hd e he hde => ?_⟩
    · obtain ⟨e, -, rfl⟩ := List.mem_map.mp (List.mem_dedup.mp (hperm.mem_iff.mp hd))
      exact canonicalRdata_idem t e
    · have hle : (rdatas.insertionSort fun d e => lengthFirst d ≤ lengthFirst e).Pairwise (· ≤ ·) := by
        rw [h]; exact List.pairwise_insertionSort _ _
      refine le_of_sorted_both (R := fun d e => lengthFirst d ≤ lengthFirst e) (fun d => le_refl _) hsorted hle
        (hcode.mem_iff.mpr hd) (hcode.mem_iff.mpr he) ?_
      rw [lengthFirst_le_iff (hlen e he) (hlen d hd)]
      omega
  · rintro ⟨hcanon, honce, hlengths⟩
    have hset : (rdatas.map (canonicalRdata t)).dedup = rdatas := by
      rw [List.map_congr_left hcanon, List.map_id', List.Nodup.dedup honce]
    have hle : (rdatas.insertionSort fun d e => lengthFirst d ≤ lengthFirst e).Pairwise (· ≤ ·) := by
      refine hsorted.imp_of_mem fun {d e} hd he hde => ?_
      have hd := hcode.mem_iff.mp hd
      have he := hcode.mem_iff.mp he
      rcases (lengthFirst_le_iff (hlen d hd) (hlen e he)).mp hde with h | h
      · exact hlengths d hd e he h
      · exact h.2
    rw [canonicalSet, hset]
    exact (hcode.trans (List.perm_insertionSort _ _).symm).eq_of_pairwise (fun _ _ _ _ => le_antisymm) hle
      (List.pairwise_insertionSort _ _)

/-! The signer's name. -/

theorem rrsigFields_lower (r : Rrsig) :
    (rrsigFields { r with signerName := toAsciiLowercase r.signerName }).length = (rrsigFields r).length ∧
    (rrsigFields { r with signerName := toAsciiLowercase r.signerName } = rrsigFields r ↔
      Builder.name (toAsciiLowercase r.signerName) = Builder.name r.signerName) := by
  constructor
  · simp only [rrsigFields, List.length_append, Builder.name_eq, labelsOf_lower, encodeLabels_length_lower]
  · exact List.append_right_inj _

/-- **The signed data, and where it leaves RFC 4034.** What is signed and verified is the reference's
    octet string exactly for regular sets. -/
theorem buildSignedData_reference_iff (rrsig : Rrsig) (n : DomainName) (t : RType) (rclass : UInt16)
    (rrset : List Record) (h : RRset n t rclass rrset) :
    buildSignedData rrsig rrset = reference rrsig n t rclass (rrset.map (·.rdata)) ↔
      Regular rrsig n t (rrset.map (·.rdata)) := by
  set rdatas := rrset.map (·.rdata) with hrd
  have hlen : ∀ d ∈ rdatas, d.length < 65536 := by
    intro d hd
    obtain ⟨r, hr, rfl⟩ := List.mem_map.mp hd
    exact (h r hr).2.2.2
  have hcanon : ∀ d ∈ canonicalSet t rdatas, d.length < 65536 := by
    intro d hd
    obtain ⟨e, he, rfl⟩ := List.mem_map.mp (List.mem_dedup.mp ((List.perm_insertionSort _ _).mem_iff.mp hd))
    rw [canonicalRdata_length]; exact hlen e he
  have hcode : ∀ d, d ∈ rdatas.insertionSort (fun d e => lengthFirst d ≤ lengthFirst e) ↔ d ∈ rdatas := fun d =>
    (List.perm_insertionSort _ _).mem_iff
  have hbody : (rdatas.insertionSort fun d e => lengthFirst d ≤ lengthFirst e).flatMap
        (rrBlock n t rclass rrsig.origTtl) =
      (canonicalSet t rdatas).flatMap (rrBlock (signedOwner rrsig.labels n) t rclass rrsig.origTtl) ↔
      rdatas.insertionSort (fun d e => lengthFirst d ≤ lengthFirst e) = canonicalSet t rdatas ∧
        (rdatas ≠ [] → (signedOwner rrsig.labels n).labels = n.labels) := by
    by_cases hne : rrset = []
    · simp [hrd, hne, canonicalSet]
    · have hlow := h.lower hne
      have hne' : rdatas ≠ [] := by simpa [hrd] using hne
      have hsne : rdatas.insertionSort (fun d e => lengthFirst d ≤ lengthFirst e) ≠ [] := fun e =>
        hne' ((List.perm_nil.mp (e ▸ (List.perm_insertionSort _ rdatas).symm)))
      rw [rrBlocks_inj hlow (signedOwner_lower hlow) t rclass _ (fun d hd => hlen d ((hcode d).mp hd)) hcanon]
      simp [hsne, hne']
  obtain ⟨hl, hfields⟩ := rrsigFields_lower rrsig
  rw [buildSignedData_eq rrsig h, reference]
  constructor
  · intro e
    obtain ⟨hf, hb⟩ := List.append_inj e hl.symm
    obtain ⟨hset, howner⟩ := hbody.mp hb
    obtain ⟨hc, ho, hlengths⟩ := (sorted_eq_canonicalSet_iff hlen).mp hset
    exact ⟨hfields.mp hf.symm, fun hne => (signedOwner_labels_iff _ _).mp (howner hne), hc, ho, hlengths⟩
  · intro hreg
    rw [hfields.mpr hreg.signer, hbody.mpr ⟨(sorted_eq_canonicalSet_iff hlen).mpr
      ⟨hreg.canonical, hreg.once, hreg.lengths⟩, fun hne => (signedOwner_labels_iff _ _).mpr (hreg.owner hne)⟩]

/-- Two mail exchangers: the longer data has the lower preference. -/
def mxSet : List Record :=
  [⟨['a'], .MX, CLASS_IN, 60, [0, 20, 1, 98, 0]⟩, ⟨['a'], .MX, CLASS_IN, 60, [0, 10, 2, 98, 98, 0]⟩]

def mxSig : Rrsig := ⟨15, 8, 1, 60, 4294967295, 0, 1, ['a'], []⟩

theorem mxSet_rrset : RRset nameA .MX CLASS_IN mxSet := by unfold RRset; decide

theorem buildSignedData_reference_mxSet :
    buildSignedData mxSig mxSet = reference mxSig nameA .MX CLASS_IN (mxSet.map (·.rdata)) ↔
      Regular mxSig nameA .MX (mxSet.map (·.rdata)) :=
  buildSignedData_reference_iff mxSig nameA .MX CLASS_IN mxSet mxSet_rrset

/-- The code puts the shorter data first, the RFC the lower preference. -/
theorem mxSet_signedData_ne : RRset nameA .MX CLASS_IN mxSet ∧
    buildSignedData mxSig mxSet ≠ reference mxSig nameA .MX CLASS_IN (mxSet.map (·.rdata)) :=
  ⟨mxSet_rrset, by decide⟩

end Ironbind
