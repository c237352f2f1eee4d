import Ironbind.Lib.Circle
import Ironbind.Dnssec

/- The zone store (`zone.rs`): RRsets by owner and type code, the set of owner
   names, and the NSEC chain. The hash map of RRsets is an association list whose
   keys are distinct; the order a walk over the map meets them in is a parameter
   (`HashOrder`), any permutation. The B-tree of names is a strictly increasing
   list in the byte order of strings. Sorting is stable insertion. -/
namespace Ironbind
open Codec

/-! Owner names. -/

/-- The keys of a B-tree: strictly increasing, as strings compare. -/
structure NameSet where
  keys : List Text
  sorted : keys.Pairwise fun a b => utf8 a < utf8 b

def insertName (name : Text) : List Text → List Text
  | [] => [name]
  | key :: keys =>
    if utf8 name < utf8 key then name :: key :: keys
    else if name = key then key :: keys
    else key :: insertName name keys

theorem mem_insertName {name a : Text} : ∀ {keys : List Text}, a ∈ insertName name keys ↔ a = name ∨ a ∈ keys
  | [] => by simp [insertName]
  | key :: keys => by
    rw [insertName]
    split
    · simp
    · split
      · next h => simp [h]
      · rw [List.mem_cons, mem_insertName, List.mem_cons]; tauto

theorem insertName_sorted {name : Text} : ∀ {keys : List Text}, (keys.Pairwise fun a b => utf8 a < utf8 b) →
    (insertName name keys).Pairwise fun a b => utf8 a < utf8 b
  | [], _ => by simp [insertName]
  | key :: keys, h => by
    obtain ⟨hkey, hkeys⟩ := List.pairwise_cons.mp h
    rw [insertName]
    split
    · next hlt =>
      refine List.pairwise_cons.mpr ⟨fun b hb => ?_, h⟩
      rcases List.mem_cons.mp hb with rfl | hb
      · exact hlt
      · exact hlt.trans (hkey b hb)
    · next hlt =>
      split
      · exact h
      · next hne =>
        refine List.pairwise_cons.mpr ⟨fun b hb => ?_, insertName_sorted hkeys⟩
        rcases mem_insertName.mp hb with rfl | hb
        · exact lt_of_le_of_ne (not_lt.mp hlt) fun e => hne (utf8_injective e).symm
        · exact hkey b hb

def NameSet.empty : NameSet := ⟨[], List.Pairwise.nil⟩
def NameSet.insert (s : NameSet) (name : Text) : NameSet := ⟨insertName name s.keys, insertName_sorted s.sorted⟩

theorem NameSet.mem_insert {s : NameSet} {name a : Text} : a ∈ (s.insert name).keys ↔ a = name ∨ a ∈ s.keys :=
  mem_insertName

theorem NameSet.nodup (s : NameSet) : s.keys.Nodup :=
  s.sorted.imp fun {a b} h (e : a = b) => lt_irrefl _ (e ▸ h)

/-! The store. -/

/-- A key of the map of RRsets: the owner in lower case and the type code. -/
abbrev RrsetKey : Type := Text × UInt16

abbrev RrsetMap : Type := AList fun _ : RrsetKey => List Record

/-- The order in which a walk over the hash map meets its entries. -/
structure HashOrder where
  entries : List (Sigma fun _ : RrsetKey => List Record) → List (Sigma fun _ : RrsetKey => List Record)
  perm : ∀ l, (entries l).Perm l

structure Zone where
  origin : Text
  rrsets : RrsetMap
  names : NameSet
  nsecOwners : List Text

namespace Zone

def new (origin : Text) : Zone where
  origin := toAsciiLowercase (trimEndMatches '.' origin)
  rrsets := ∅
  names := .empty
  nsecOwners := []

def add (z : Zone) (r : Record) : Zone :=
  let key : RrsetKey := (toAsciiLowercase r.name, r.rtype.toU16)
  { z with
    names := z.names.insert (toAsciiLowercase r.name)
    rrsets := z.rrsets.insert key (((z.rrsets.lookup key).getD []) ++ [r]) }

def lookup (z : Zone) (name : Text) (qtype : RType) : Option (List Record) :=
  z.rrsets.lookup (toAsciiLowercase name, qtype.toU16)

/-- Names that own records, and empty non-terminals above them. -/
def nameExists (z : Zone) (name : Text) : Bool :=
  let lower := toAsciiLowercase name
  z.names.keys.contains lower || z.names.keys.any fun existing => ('.' :: lower).isSuffixOf existing

def isAuthoritativeFor (z : Zone) (name : Text) : Bool :=
  let n := toAsciiLowercase name
  n == z.origin || ('.' :: z.origin).isSuffixOf n

def soa (z : Zone) : Option (List Record) := z.lookup z.origin .SOA

def iterRrsets (ho : HashOrder) (z : Zone) : List (List Record) := (ho.entries z.rrsets.entries).map (·.2)

end Zone

/-! Canonical order. -/

/-- A name's labels from the root down, in lower case, as octets. -/
def canonicalKey (name : Text) : List Bytes :=
  (((trimEndMatches '.' name).splitOn '.').reverse.filter (· ≠ [])).map fun label => utf8 (toAsciiLowercase label)

def canonicalOrder (a b : Text) : Ordering :=
  if canonicalKey a < canonicalKey b then .lt else if canonicalKey a = canonicalKey b then .eq else .gt

/-! Type bitmaps. -/

def setBit (bits : Bytes) (bit : Nat) : Bytes := bits.modify (bit / 8) (· ||| (0x80 >>> UInt8.ofNat (bit % 8)))

/-- A type entered into the windows, which are kept in the order of their numbers. -/
def addType (t : UInt16) : List (UInt8 × Bytes) → List (UInt8 × Bytes)
  | [] => [((t >>> 8).toUInt8, setBit (List.replicate 32 0) (t &&& 0xFF).toNat)]
  | (win, bits) :: windows =>
    if (t >>> 8).toUInt8 < win then
      ((t >>> 8).toUInt8, setBit (List.replicate 32 0) (t &&& 0xFF).toNat) :: (win, bits) :: windows
    else if (t >>> 8).toUInt8 = win then (win, setBit bits (t &&& 0xFF).toNat) :: windows
    else (win, bits) :: addType t windows

/-- A window on the wire, without the zero octets at its end. -/
def encodeWindow (w : UInt8 × Bytes) : Bytes :=
  let used := (w.2.rdropWhile (· == 0)).length
  if used = 0 then [] else w.1 :: UInt8.ofNat used :: w.2.take used

def encodeNsecBitmap (types : List UInt16) : Bytes :=
  (types.foldl (fun windows t => addType t windows) []).flatMap encodeWindow

/-! The NSEC chain. -/

namespace Zone

/-- The type codes at an owner. The bitmap made of them does not depend on their order. -/
def typesAt (z : Zone) (owner : Text) : List UInt16 :=
  (z.rrsets.entries.filter fun e => e.1.1 = owner).map fun e => e.1.2

def nsecRecord (z : Zone) (owners : List Text) (ttl : UInt32) (index : Nat) (owner : Text) : Record where
  name := owner
  rtype := .NSEC
  rclass := CLASS_IN
  ttl := ttl
  rdata := Builder.name ((owners[(index + 1) % owners.length]?).getD [])
    ++ encodeNsecBitmap (z.typesAt owner ++ [RType.RRSIG.toU16, RType.NSEC.toU16])

def buildNsecChain (z : Zone) (ttl : UInt32) : Zone :=
  let owners := z.names.keys.insertionSort fun a b => canonicalOrder a b ≠ .gt
  let z := owners.zipIdx.foldl (fun z o => z.add (z.nsecRecord owners ttl o.2 o.1)) z
  { z with nsecOwners := owners }

def isSigned (z : Zone) : Bool := !z.nsecOwners.isEmpty

/-- The last owner that sorts before `name`, the last of all when there is none. -/
def nsecCoveringOwner (z : Zone) (name : Text) : Option Text :=
  let position := Circle.partitionPoint (fun owner => canonicalOrder owner name == .lt) z.nsecOwners
  if position = 0 then
    if z.nsecOwners.length = 0 then none else z.nsecOwners[z.nsecOwners.length - 1]?
  else z.nsecOwners[position - 1]?

end Zone

/-- What stands behind the first dot. -/
def parentName : Text → Option Text
  | [] => none
  | c :: rest => if c = '.' then some rest else parentName rest

/-- The loop of `closest_encloser`; each pass makes the candidate shorter. -/
def closestEncloserLoop (z : Zone) : Nat → Text → Text
  | 0, candidate => candidate
  | fuel + 1, candidate =>
    if candidate = z.origin then candidate
    else
      match parentName candidate with
      | none => z.origin
      | some parent => if z.nameExists parent then parent else closestEncloserLoop z fuel parent

def Zone.closestEncloser (z : Zone) (name : Text) : Text :=
  closestEncloserLoop z (name.length + 1) (toAsciiLowercase name)

/-! NSEC3, for zones that carry it. -/

structure Nsec3Params where
  algorithm : UInt8
  flags : UInt8
  iterations : UInt16
  salt : Bytes

def Nsec3Params.parse : Bytes → Option Nsec3Params
  | algorithm :: flags :: hi :: lo :: saltLen :: rest =>
    if rest.length < saltLen.toNat then none
    else some ⟨algorithm, flags, hi.toUInt16 <<< 8 ||| lo.toUInt16, rest.take saltLen.toNat⟩
  | _ => none

def Nsec3Params.hashName (c : Crypto) (params : Nsec3Params) (name : Text) : Bytes :=
  (List.replicate params.iterations.toNat ()).foldl (fun hash _ => c.sha1 (hash ++ params.salt))
    (c.sha1 (canonicalName name ++ params.salt))

def base32Alphabet : List Char := "0123456789ABCDEFGHIJKLMNOPQRSTUV".toList

/-- The digits that are ready, five bits each; at most two are after one octet. -/
def base32Emit (buf : UInt32) : Nat → Nat → Text × Nat
  | 0, bits => ([], bits)
  | fuel + 1, bits =>
    if bits ≥ 5 then
      let digit := base32Alphabet.getD ((buf >>> UInt32.ofNat (bits - 5)) &&& 0x1f).toNat '0'
      (digit :: (base32Emit buf fuel (bits - 5)).1, (base32Emit buf fuel (bits - 5)).2)
    else ([], bits)

def base32Loop : UInt32 → Nat → Bytes → Text
  | buf, bits, [] =>
    if bits > 0 then [base32Alphabet.getD ((buf <<< UInt32.ofNat (5 - bits)) &&& 0x1f).toNat '0'] else []
  | buf, bits, b :: input =>
    let buf := (buf <<< 8) ||| b.toUInt32
    let emitted := base32Emit buf 2 (bits + 8)
    emitted.1 ++ base32Loop buf emitted.2 input

def base32hexEncode (input : Bytes) : Text := base32Loop 0 0 input

namespace Zone

def nsec3Params (z : Zone) : Option Nsec3Params := do
  let records ← z.lookup z.origin .NSEC3PARAM
  let r ← records.head?
  Nsec3Params.parse r.rdata

/-- The first label of an NSEC3 owner, in upper case: its hash. -/
def nsec3Label (name : Text) : Text := ((name.splitOn '.').headD []).map Char.toUpper

/-- The walk over the sorted NSEC3 records for the one before the target. -/
def nsec3Walk (target : Text) : Record → List (Text × Record) → Record
  | prev, [] => prev
  | prev, entry :: entries => if utf8 target < utf8 entry.1 then prev else nsec3Walk target entry.2 entries

def nsec3Covering (c : Crypto) (ho : HashOrder) (z : Zone) (qname : Text) : Option Record := do
  let params ← z.nsec3Params
  let targetHash := params.hashName c qname
  let entries := ((z.iterRrsets ho).flatten.filter fun r => r.rtype = .NSEC3).map fun r => (nsec3Label r.name, r)
  let entries := entries.insertionSort fun a b => utf8 a.1 ≤ utf8 b.1
  let last ← entries.getLast?
  pure (nsec3Walk (base32hexEncode targetHash) last.2 entries)

end Zone

/-! What the store holds. -/

namespace Zone
variable {z : Zone}

theorem lookup_eq (z : Zone) (name : Text) (t : RType) :
    z.lookup name t = z.rrsets.lookup (toAsciiLowercase name, t.toU16) := rfl

theorem lookup_lower (z : Zone) (name : Text) (t : RType) : z.lookup (toAsciiLowercase name) t = z.lookup name t := by
  rw [lookup_eq, lookup_eq, toAsciiLowercase_idem]

theorem mem_names_add (z : Zone) (r : Record) (n : Text) :
    n ∈ (z.add r).names.keys ↔ n = toAsciiLowercase r.name ∨ n ∈ z.names.keys := NameSet.mem_insert

@[simp] theorem origin_add (z : Zone) (r : Record) : (z.add r).origin = z.origin := rfl
@[simp] theorem nsecOwners_add (z : Zone) (r : Record) : (z.add r).nsecOwners = z.nsecOwners := rfl

/-- A record is in the store. -/
def Holds (z : Zone) (r : Record) : Prop := ∃ k rs, z.rrsets.lookup k = some rs ∧ r ∈ rs

/-- A walk over the store meets what it holds. -/
theorem mem_flatten_iterRrsets {ho : HashOrder} {r : Record} : r ∈ (z.iterRrsets ho).flatten ↔ z.Holds r := by
  simp only [iterRrsets, List.mem_flatten, List.mem_map, (ho.perm _).mem_iff, Holds]
  constructor
  · rintro ⟨rs, ⟨⟨k, rs'⟩, he, rfl⟩, hr⟩
    exact ⟨k, rs', AList.mem_lookup_iff.mpr he, hr⟩
  · rintro ⟨k, rs, hk, hr⟩
    exact ⟨rs, ⟨⟨k, rs⟩, AList.mem_lookup_iff.mp hk, rfl⟩, hr⟩

theorem holds_of_soa {soa : Record} (h : z.soa.bind List.head? = some soa) : z.Holds soa := by
  obtain ⟨rs, hrs, hsoa⟩ := Option.bind_eq_some_iff.mp h
  exact ⟨_, rs, hrs, List.mem_of_mem_head? hsoa⟩

theorem not_holds_new (origin : Text) (r : Record) : ¬ (new origin).Holds r := by
  rintro ⟨k, rs, hk, -⟩
  simp [new] at hk

theorem holds_add {r r' : Record} (h : (z.add r).Holds r') : r' = r ∨ z.Holds r' := by
  obtain ⟨k, rs, hk, hr⟩ := h
  by_cases he : k = (toAsciiLowercase r.name, r.rtype.toU16)
  · rw [he, add, AList.lookup_insert, Option.some.injEq] at hk
    rw [← hk, List.mem_append, List.mem_singleton] at hr
    rcases hr with hr | hr
    · cases hl : z.rrsets.lookup (toAsciiLowercase r.name, r.rtype.toU16) with
      | none => rw [hl] at hr; exact absurd hr List.not_mem_nil
      | some old => rw [hl] at hr; exact .inr ⟨_, old, hl, hr⟩
    · exact .inl hr
  · rw [add, AList.lookup_insert_ne he] at hk
    exact .inr ⟨k, rs, hk, hr⟩

/-- The names are the owners of the RRsets, and an RRset is not empty and holds records of its key. -/
structure WF (z : Zone) : Prop where
  names : ∀ n, n ∈ z.names.keys ↔ ∃ t, (z.rrsets.lookup (n, t)).isSome
  records : ∀ k rs, z.rrsets.lookup k = some rs →
    rs ≠ [] ∧ ∀ r ∈ rs, toAsciiLowercase r.name = k.1 ∧ r.rtype.toU16 = k.2

theorem wf_new (origin : Text) : (new origin).WF where
  names := fun n => by simp [new, NameSet.empty]
  records := fun k rs h => by simp [new] at h

/-- Entering a record keeps the store well formed. -/
theorem WF.add (h : z.WF) (r : Record) : (z.add r).WF where
  names := fun n => by
    rw [mem_names_add, h.names]
    constructor
    · rintro (rfl | ⟨t, ht⟩)
      · exact ⟨r.rtype.toU16, by simp [Zone.add]⟩
      · by_cases he : (n, t) = (toAsciiLowercase r.name, r.rtype.toU16)
        · exact ⟨t, by rw [he]; simp [Zone.add]⟩
        · exact ⟨t, by rw [Zone.add, AList.lookup_insert_ne he]; exact ht⟩
    · rintro ⟨t, ht⟩
      by_cases he : (n, t) = (toAsciiLowercase r.name, r.rtype.toU16)
      · exact .inl (Prod.mk.inj he).1
      · rw [Zone.add, AList.lookup_insert_ne he] at ht
        exact .inr ⟨t, ht⟩
  records := fun k rs hk => by
    by_cases he : k = (toAsciiLowercase r.name, r.rtype.toU16)
    · subst he
      rw [Zone.add, AList.lookup_insert, Option.some.injEq] at hk
      subst hk
      refine ⟨by simp, fun r' hr' => ?_⟩
      rcases List.mem_append.mp hr' with hr' | hr'
      · cases hl : z.rrsets.lookup (toAsciiLowercase r.name, r.rtype.toU16) with
        | none => rw [hl] at hr'; exact absurd hr' List.not_mem_nil
        | some rs => rw [hl] at hr'; exact (h.records _ rs hl).2 r' hr'
      · rw [List.mem_singleton.mp hr']; exact ⟨rfl, rfl⟩
    · rw [Zone.add, AList.lookup_insert_ne he] at hk
      exact h.records k rs hk

/-- Owner names are in lower case. -/
theorem WF.lower (h : z.WF) {n : Text} (hn : n ∈ z.names.keys) : toAsciiLowercase n = n := by
  obtain ⟨t, ht⟩ := (h.names n).mp hn
  obtain ⟨rs, hrs⟩ := Option.isSome_iff_exists.mp ht
  obtain ⟨hne, hr⟩ := h.records _ rs hrs
  obtain ⟨r, rest, rfl⟩ := List.exists_cons_of_ne_nil hne
  have hname : toAsciiLowercase r.name = n := (hr r List.mem_cons_self).1
  rw [← hname, toAsciiLowercase_idem]

/-- A name that owns an RRset is an owner name. -/
theorem WF.mem_of_lookup (h : z.WF) {name : Text} {t : RType} {rs : List Record} (hl : z.lookup name t = some rs) :
    toAsciiLowercase name ∈ z.names.keys := (h.names _).mpr ⟨t.toU16, by rw [lookup_eq] at hl; rw [hl]; rfl⟩

theorem nameExists_of_mem {n : Text} (hn : toAsciiLowercase n ∈ z.names.keys) : z.nameExists n = true := by
  simp [nameExists, hn]

/-- A name exists when an owner name equals it or lies below it, up to case. -/
theorem nameExists_iff (z : Zone) (name : Text) : z.nameExists name = true ↔
    ∃ o ∈ z.names.keys, o = toAsciiLowercase name ∨ '.' :: toAsciiLowercase name <:+ o := by
  simp only [nameExists, Bool.or_eq_true, List.contains_iff_mem, List.any_eq_true, List.isSuffixOf_iff_suffix]
  constructor
  · rintro (h | ⟨o, ho, hs⟩)
    · exact ⟨_, h, .inl rfl⟩
    · exact ⟨o, ho, .inr hs⟩
  · rintro ⟨o, ho, rfl | hs⟩
    · exact .inl ho
    · exact .inr ⟨o, ho, hs⟩

end Zone

end Ironbind
