import Ironbind.SignThenValidate
import Ironbind.TypeBitmap

/- The NSEC chain of a signed zone. Its records are read back as a resolver reads
   them (`parseNsec`): the next name, and the bitmap behind it. Owner names that are
   dot-joined labels sort strictly in canonical order, so the sorted list is a circle
   of points, and following the next names goes around it (`nsec_goes_around`), the
   bitmap at an owner holds its types (`nsec_bitmap`), and the binary search for a
   name finds the arc it lies on (`nsec_covers`). -/
namespace Ironbind
open Codec

/-! Names and their order. -/

/-- A name of dot-joined labels of one to 63 octets. -/
def Dotted (n : Text) : Prop := ∃ ls : List Text, (∀ l ∈ ls, IsLabel l) ∧ n = ['.'].intercalate ls

/-- RFC 4034 section 6.1: names compare as their labels do from the root down, each as
    lower-case octets, a missing label before any other. -/
def rfcKey (name : Text) : List Bytes := ((labelsOf name).map fun label => utf8 (toAsciiLowercase label)).reverse

theorem labelsOf_intercalate {ls : List Text} (h : ∀ l ∈ ls, IsLabel l) : labelsOf (['.'].intercalate ls) = ls :=
  pieces_intercalate (fun l hl => (h l hl).no_dot) fun l hl => (h l hl).ne_nil

/-- The labels of a name, joined again, are the same labels. -/
theorem labelsOf_intercalate_labelsOf (n : Text) : labelsOf (['.'].intercalate (labelsOf n)) = labelsOf n :=
  pieces_intercalate (fun _ => not_mem_of_mem_pieces) fun _ => ne_nil_of_mem_pieces

theorem rfcKey_joined (n : Text) : rfcKey (['.'].intercalate (labelsOf n)) = rfcKey n := by
  rw [rfcKey, labelsOf_intercalate_labelsOf, rfcKey]

theorem Dotted.labels {n : Text} (h : Dotted n) : (∀ l ∈ labelsOf n, IsLabel l) ∧ n = ['.'].intercalate (labelsOf n) := by
  obtain ⟨ls, hls, rfl⟩ := h
  rw [labelsOf_intercalate hls]
  exact ⟨hls, rfl⟩

theorem Dotted.wireLabels {n : Text} (h : Dotted n) : ∀ l ∈ labelsOf n, WireLabel l :=
  fun l hl => (h.labels.1 l hl).wireLabel

theorem canonicalKey_eq (name : Text) : canonicalKey name = rfcKey name := by
  rw [canonicalKey, rfcKey, List.filter_reverse, List.map_reverse, ← labelsOf_trim]
  rfl

/-- Lower-case names with one key are one name. -/
theorem rfcKey_inj {a b : Text} (ha : Dotted a) (hb : Dotted b) (hla : toAsciiLowercase a = a)
    (hlb : toAsciiLowercase b = b) (h : rfcKey a = rfcKey b) : a = b := by
  have hlabels : ∀ {n : Text}, toAsciiLowercase n = n → rfcKey n = ((labelsOf n).map utf8).reverse := fun {n} hn => by
    rw [rfcKey]
    conv_rhs => rw [← hn, labelsOf_lower, List.map_map]
    rfl
  rw [hlabels hla, hlabels hlb, List.reverse_inj] at h
  have hinj : Function.Injective (List.map utf8) := List.map_injective_iff.mpr fun _ _ => utf8_injective
  rw [ha.labels.2, hb.labels.2, hinj h]

theorem canonicalOrder_le_iff (a b : Text) : canonicalOrder a b ≠ .gt ↔ rfcKey a ≤ rfcKey b := by
  rw [canonicalOrder, canonicalKey_eq, canonicalKey_eq]
  split
  · next h => simp [h.le]
  · split
    · next h => simp [h.le]
    · next hlt hne => simpa using lt_of_le_of_ne (not_lt.mp hlt) (Ne.symm hne)

theorem canonicalOrder_lt_iff (a b : Text) : (canonicalOrder a b == .lt) = decide (rfcKey a < rfcKey b) := by
  rw [canonicalOrder, canonicalKey_eq, canonicalKey_eq]
  split
  · next h => simp [h]
  · next h => split <;> simp [h]

namespace Zone
variable {z : Zone}

/-- Owner names stand in increasing order. -/
theorem sortedOwners_le (z : Zone) : z.sortedOwners.Pairwise fun a b => rfcKey a ≤ rfcKey b := by
  have htotal : Std.Total fun a b : Text => canonicalOrder a b ≠ .gt := ⟨fun a b => by
    rw [canonicalOrder_le_iff, canonicalOrder_le_iff]; exact le_total _ _⟩
  have htrans : IsTrans Text fun a b => canonicalOrder a b ≠ .gt := ⟨fun a b c hab hbc => by
    rw [canonicalOrder_le_iff] at hab hbc ⊢; exact hab.trans hbc⟩
  have hle : z.sortedOwners.Pairwise fun a b => canonicalOrder a b ≠ .gt := List.pairwise_insertionSort _ z.names.keys
  exact hle.imp fun {a b} hab => (canonicalOrder_le_iff a b).mp hab

/-- Dot-joined labels stand in strictly increasing order. -/
theorem WF.sortedOwners_sorted (h : z.WF) (hnames : ∀ n ∈ z.names.keys, Dotted n) :
    z.sortedOwners.Pairwise fun a b => rfcKey a < rfcKey b := by
  refine (z.sortedOwners_le.and z.sortedOwners_nodup).imp_of_mem fun {a b} ha hb hab => ?_
  have ha := mem_sortedOwners.mp ha
  have hb := mem_sortedOwners.mp hb
  refine lt_of_le_of_ne hab.1 fun e => hab.2 ?_
  exact rfcKey_inj (hnames a ha) (hnames b hb) (h.lower ha) (h.lower hb) e

/-- The search for a covering owner is the search on the circle. -/
theorem nsecCoveringOwner_eq (z : Zone) (name : Text) (hne : z.nsecOwners ≠ []) :
    z.nsecCoveringOwner name = z.nsecOwners[Circle.coverIndex rfcKey z.nsecOwners (rfcKey name)]? := by
  have hlen : z.nsecOwners.length ≠ 0 := fun h => hne (List.length_eq_zero_iff.mp h)
  -- the two tests differ in how the order is decided only
  have hposition : Circle.partitionPoint (fun owner => canonicalOrder owner name == .lt) z.nsecOwners =
      Circle.partitionPoint (fun b => @decide (rfcKey b < rfcKey name) (LinearOrder.toDecidableLT _ _))
        z.nsecOwners := by
    congr 1
    funext owner
    rw [canonicalOrder_lt_iff]
    exact decide_eq_decide.mpr Iff.rfl
  simp only [nsecCoveringOwner, Circle.coverIndex, hposition, if_neg hlen]
  split <;> rfl

end Zone

/-! NSEC records, read back. -/

structure Nsec where
  next : Text
  bitmap : Bytes

/-- The next name, its labels joined by dots, and the bitmap behind it. -/
def parseNsec (rdata : Bytes) : Option Nsec :=
  match Parser.nameParts rdata 0 with
  | (.ok parts, pos) => some ⟨['.'].intercalate parts, rdata.drop pos⟩
  | (.error _, _) => none

/-- The NSEC at an owner. -/
def nsecAt (z : Zone) (owner : Text) : Option Nsec :=
  match z.lookup owner .NSEC with
  | some [r] => parseNsec r.rdata
  | _ => none

/-- The next name is read back with its labels. -/
theorem parseNsec_eq {next : Text} (hwire : ∀ l ∈ labelsOf next, WireLabel l) (hl : toAsciiLowercase next = next)
    (bitmap : Bytes) : parseNsec (Builder.name next ++ bitmap) = some ⟨['.'].intercalate (labelsOf next), bitmap⟩ := by
  have hdec := nameParts_decodes hwire [] bitmap
  rw [← labelsOf_lower, hl, ← Builder.name_eq] at hdec
  have hdec : Parser.nameParts (Builder.name next ++ bitmap) 0 = (.ok (labelsOf next), (Builder.name next).length) := by
    simpa using hdec
  rw [parseNsec, hdec]
  simp only [List.drop_left]

namespace SignedAs
variable {rsa : Rsa} {now : UInt32} {ho : HashOrder} {z z' : Zone} (s : SignedAs rsa now ho z z')

section
variable (hz : z.Loaded) (hlabels : ∀ l ∈ labelsOf z.origin, WireLabel l)
include s hz hlabels

/-- The NSEC record at an owner of the finished zone. -/
theorem lookup_nsec {index : Nat} {owner : Text} (howner : z'.nsecOwners[index]? = some owner) :
    z'.lookup owner .NSEC = some [s.keyed.nsecRecord z'.nsecOwners s.ttl index owner] := by
  rw [s.nsecOwners hz] at howner ⊢
  have hmem : owner ∈ s.keyed.names.keys := Zone.mem_sortedOwners.mp (List.mem_of_getElem? howner)
  rw [Zone.lookup, (s.wf_keyed hz).lower hmem, (s.wf hz).lookup_iff,
    s.recordsAt hz hlabels (by decide : RType.NSEC.toU16 ≠ RType.RRSIG.toU16)]
  refine ⟨?_, List.cons_ne_nil _ _⟩
  exact (s.wf_keyed hz).nsecAt_buildNsecChain s.ttl howner (s.nsecAt_keyed hz owner)

theorem mem_nsecOwners {n : Text} : n ∈ z'.nsecOwners ↔ n ∈ z'.names.keys := by
  rw [s.nsecOwners hz, Zone.mem_sortedOwners, s.mem_names hz hlabels]

/-- The types in the finished zone are those the bitmap was made of: the types at the time, RRSIG and NSEC. -/
theorem recordsAt_ne_nil_iff {owner : Text} (howner : owner ∈ s.keyed.names.keys) (t : UInt16) :
    z'.recordsAt (owner, t) ≠ [] ↔ t ∈ s.keyed.typesAt owner ++ [RType.RRSIG.toU16, RType.NSEC.toU16] := by
  have hset : ∀ {t : UInt16}, t ∈ s.keyed.typesAt owner ↔ s.keyed.recordsAt (owner, t) ≠ [] := fun {t} => by
    rw [Zone.mem_typesAt, Option.isSome_iff_exists]
    constructor
    · rintro ⟨rs, hrs⟩
      obtain ⟨hat, hne⟩ := (s.wf_keyed hz).lookup_iff.mp hrs
      rw [hat]; exact hne
    · exact fun hne => ⟨_, (s.wf_keyed hz).lookup_iff.mpr ⟨rfl, hne⟩⟩
  simp only [List.mem_append, List.mem_cons, List.not_mem_nil, or_false]
  by_cases hrrsig : t = RType.RRSIG.toU16
  · -- some RRset of the owner was signed
    subst hrrsig
    refine ⟨fun _ => .inr (.inl rfl), fun _ hnil => ?_⟩
    obtain ⟨t, ht⟩ := (s.wf_chained hz).mem_names_iff.mp ((s.mem_names_chained hz).mpr howner)
    have hcovering := s.covering hz hlabels ht
    obtain ⟨first, more, hsigs, _⟩ := signOne_ok (s.signOne_sigs (s.mem_iterRrsets hz ht))
    rw [hnil, List.filter_nil, show s.sigs _ = first :: more from hsigs] at hcovering
    exact absurd hcovering.symm (List.cons_ne_nil _ _)
  · rw [s.recordsAt hz hlabels hrrsig]
    by_cases hnsec : t = RType.NSEC.toU16
    · subst hnsec
      refine ⟨fun _ => .inr (.inr rfl), fun _ => ?_⟩
      obtain ⟨index, hi⟩ := List.getElem?_of_mem (Zone.mem_sortedOwners.mpr howner)
      have hat := (s.wf_keyed hz).nsecAt_buildNsecChain s.ttl hi (s.nsecAt_keyed hz owner)
      rw [show s.chained.recordsAt _ = _ from hat]
      exact List.cons_ne_nil _ _
    · rw [s.recordsAt_chained hz hnsec, hset]
      simp [hrrsig, hnsec]

end

section
variable (hz : z.Loaded) (hwire : ∀ n ∈ z'.names.keys, ∀ l ∈ labelsOf n, WireLabel l)
include s hz hwire

theorem wireLabels : ∀ l ∈ labelsOf z.origin, WireLabel l := by
  refine hwire z.origin ?_
  have hres := s.result_eq
  have hmem : z.origin ∈ s.chained.names.keys :=
    (s.mem_names_chained hz).mpr ((s.mem_names_keyed hz).mpr (.inr rfl))
  rw [hres]
  exact (Zone.mem_names_foldl_add _ _ _).mpr (.inl hmem)

theorem origin_mem : z.origin ∈ z'.names.keys :=
  (s.mem_names hz (s.wireLabels hz hwire)).mpr ((s.mem_names_keyed hz).mpr (.inr rfl))

omit hwire in
theorem owners_le : z'.nsecOwners.Pairwise fun a b => rfcKey a ≤ rfcKey b := by
  rw [s.nsecOwners hz]
  exact Zone.sortedOwners_le _

theorem owners_ne_nil : z'.nsecOwners ≠ [] :=
  List.ne_nil_of_mem ((s.mem_nsecOwners hz (s.wireLabels hz hwire)).mpr (s.origin_mem hz hwire))

/-- The NSEC at an owner is read back: the labels of the next owner by index, and the bitmap. -/
theorem nsecAt_eq {index : Nat} {owner : Text} (howner : z'.nsecOwners[index]? = some owner) :
    ∃ next, z'.nsecOwners[(index + 1) % z'.nsecOwners.length]? = some next ∧
      nsecAt z' owner = some ⟨['.'].intercalate (labelsOf next), encodeNsecBitmap
        (s.keyed.typesAt owner ++ [RType.RRSIG.toU16, RType.NSEC.toU16])⟩ := by
  have hlabels := s.wireLabels hz hwire
  have hlen : 0 < z'.nsecOwners.length := List.length_pos_of_mem (List.mem_of_getElem? howner)
  have hnext := List.getElem?_eq_getElem (Nat.mod_lt (index + 1) hlen)
  refine ⟨_, hnext, ?_⟩
  have hmem := (s.mem_nsecOwners hz hlabels).mp (List.mem_of_getElem? hnext)
  rw [nsecAt, s.lookup_nsec hz hlabels howner]
  simp only [Zone.nsecRecord, hnext, Option.getD_some]
  exact parseNsec_eq (hwire _ hmem) ((s.wf hz).lower hmem) _

/-- The bitmap at an owner holds the types of its RRsets. -/
theorem nsec_bitmap {o : Text} (ho : o ∈ z'.names.keys) : ∃ nsec, nsecAt z' o = some nsec ∧
    ∀ t, bitmapContains nsec.bitmap t = true ↔ (z'.rrsets.lookup (o, t)).isSome := by
  have hlabels := s.wireLabels hz hwire
  obtain ⟨index, hindex⟩ := List.getElem?_of_mem ((s.mem_nsecOwners hz hlabels).mpr ho)
  obtain ⟨next, _, hnsec⟩ := s.nsecAt_eq hz hwire hindex
  refine ⟨_, hnsec, fun t => ?_⟩
  rw [bitmapContains_encode, ← s.recordsAt_ne_nil_iff hz hlabels ((s.mem_names hz hlabels).mp ho),
    Option.isSome_iff_exists]
  constructor
  · exact fun hne => ⟨_, (s.wf hz).lookup_iff.mpr ⟨rfl, hne⟩⟩
  · rintro ⟨rs, hrs⟩
    obtain ⟨hat, hne⟩ := (s.wf hz).lookup_iff.mp hrs
    rw [hat]; exact hne

/-- The covering owner of a name and the arc that its NSEC spans. -/
theorem nsec_arc (name : Text) : ∃ a b, z'.nsecCoveringOwner name = some a ∧
    z'.nsecOwners[Circle.coverIndex rfcKey z'.nsecOwners (rfcKey name)]? = some a ∧
    z'.nsecOwners[(Circle.coverIndex rfcKey z'.nsecOwners (rfcKey name) + 1) % z'.nsecOwners.length]? = some b ∧
    ∃ nsec, nsecAt z' a = some nsec ∧ rfcKey nsec.next = rfcKey b := by
  have hne := s.owners_ne_nil hz hwire
  obtain ⟨a, b, ha, hb, -⟩ := Circle.cover_arc (s.owners_le hz) hne (rfcKey name)
  obtain ⟨next, hnext, hnsec⟩ := s.nsecAt_eq hz hwire ha
  obtain rfl := Option.some.inj (hnext.symm.trans hb)
  exact ⟨a, next, (Zone.nsecCoveringOwner_eq z' name hne).trans ha, ha, hb, _, hnsec, rfcKey_joined next⟩

/-- A name that is no owner lies between its covering owner and the next. -/
theorem nsec_covers {name : Text} (hname : ∀ o ∈ z'.names.keys, rfcKey o ≠ rfcKey name) :
    ∃ o ∈ z'.names.keys, z'.nsecCoveringOwner name = some o ∧
      ∃ nsec, nsecAt z' o = some nsec ∧ Circle.Between (rfcKey o) (rfcKey nsec.next) (rfcKey name) := by
  have hlabels := s.wireLabels hz hwire
  obtain ⟨a, b, hcovering, ha, hb, nsec, hnsec, hnext⟩ := s.nsec_arc hz hwire name
  obtain ⟨a', b', ha', hb', hbetween⟩ := Circle.cover_between (s.owners_le hz) (s.owners_ne_nil hz hwire)
    fun o ho => hname o ((s.mem_nsecOwners hz hlabels).mp ho)
  obtain rfl := Option.some.inj (ha.symm.trans ha')
  obtain rfl := Option.some.inj (hb.symm.trans hb')
  exact ⟨a, (s.mem_nsecOwners hz hlabels).mp (List.mem_of_getElem? ha), hcovering, nsec, hnsec, hnext ▸ hbetween⟩

/-- No owner lies on the arc of a covering owner. -/
theorem nsec_ne_owner {name other o : Text} {nsec : Nsec} (ho : z'.nsecCoveringOwner other = some o)
    (hnsec : nsecAt z' o = some nsec) (hbetween : Circle.Between (rfcKey o) (rfcKey nsec.next) (rfcKey name)) :
    ∀ owner ∈ z'.names.keys, rfcKey owner ≠ rfcKey name := by
  obtain ⟨a, b, hcovering, ha, hb, nsec', hnsec', hnext⟩ := s.nsec_arc hz hwire other
  obtain rfl := Option.some.inj (ho.symm.trans hcovering)
  obtain rfl := Option.some.inj (hnsec.symm.trans hnsec')
  rw [hnext] at hbetween
  exact fun owner howner => Circle.ne_of_cover (s.owners_le hz) ha hb hbetween owner
    ((s.mem_nsecOwners hz (s.wireLabels hz hwire)).mpr howner)

end

variable (hz : z.Loaded) (hnames : ∀ n ∈ z'.names.keys, Dotted n)
include s hz hnames

theorem owners_sorted : z'.nsecOwners.Pairwise fun a b => rfcKey a < rfcKey b := by
  have hlabels := s.wireLabels hz fun n hn => (hnames n hn).wireLabels
  rw [s.nsecOwners hz]
  exact (s.wf_keyed hz).sortedOwners_sorted fun n hn => hnames n ((s.mem_names hz hlabels).mpr hn)

/-- Following the next names from an owner visits the owners behind it, then those before it, and comes back. -/
theorem nsec_goes_around {o : Text} (ho : o ∈ z'.names.keys) :
    ∃ before after : List Text, (before ++ o :: after).Perm z'.names.keys ∧
      (before ++ o :: after).Pairwise (fun a b => rfcKey a < rfcKey b) ∧
      List.IsChain (fun a b => (nsecAt z' a).map Nsec.next = some b) (o :: after ++ before ++ [o]) := by
  have hwire := fun n hn => (hnames n hn).wireLabels
  have hlabels := s.wireLabels hz hwire
  obtain ⟨before, after, howners⟩ := List.append_of_mem ((s.mem_nsecOwners hz hlabels).mpr ho)
  have hsorted := s.owners_sorted hz hnames
  have hnodup : z'.nsecOwners.Nodup := hsorted.imp fun {a b} h (e : a = b) => lt_irrefl _ (e ▸ h)
  have hperm : z'.nsecOwners.Perm z'.names.keys :=
    (List.perm_ext_iff_of_nodup hnodup z'.names.nodup).mpr fun n => s.mem_nsecOwners hz hlabels
  refine ⟨before, after, howners ▸ hperm, howners ▸ hsorted, ?_⟩
  have hstep : ∀ i a, z'.nsecOwners[i]? = some a →
      (nsecAt z' a).map Nsec.next = z'.nsecOwners[(i + 1) % z'.nsecOwners.length]? := by
    intro i a ha
    obtain ⟨next, hnext, hnsec⟩ := s.nsecAt_eq hz hwire ha
    have hmem := (s.mem_nsecOwners hz hlabels).mp (List.mem_of_getElem? hnext)
    simp only [hnsec, Option.map_some, hnext, ← (hnames next hmem).labels.2]
  exact Circle.isChain_around hstep howners

end SignedAs

/-- **The NSEC chain of a signed zone.** From any owner the next names visit every owner once, in
    canonical order, and return; the bitmap at an owner holds exactly its types; and a name that
    is no owner is covered by the owner that the search finds. -/
theorem signZone_nsecChain (rsa : Rsa) (files : Files) (now : UInt32) (ho : HashOrder) (origin content keyDir : Text)
    (z z' : Zone) (count : Nat) (hload : (Zone.new origin).loadFile content = .ok z)
    (hkey : z.lookup z.origin .DNSKEY = none) (hnames : ∀ n ∈ z'.names.keys, Dotted n)
    (hsign : signZone rsa files now ho z keyDir = ⟨z', .ok count, []⟩) :
    (∀ o ∈ z'.names.keys, ∃ before after : List Text, (before ++ o :: after).Perm z'.names.keys ∧
      (before ++ o :: after).Pairwise (fun a b => rfcKey a < rfcKey b) ∧
      List.IsChain (fun a b => (nsecAt z' a).map Nsec.next = some b) (o :: after ++ before ++ [o])) ∧
    (∀ o ∈ z'.names.keys, ∃ nsec, nsecAt z' o = some nsec ∧
      ∀ t, bitmapContains nsec.bitmap t = true ↔ (z'.rrsets.lookup (o, t)).isSome) ∧
    ∀ name, (∀ o ∈ z'.names.keys, rfcKey o ≠ rfcKey name) →
      ∃ o ∈ z'.names.keys, z'.nsecCoveringOwner name = some o ∧
        ∃ nsec, nsecAt z' o = some nsec ∧ Circle.Between (rfcKey o) (rfcKey nsec.next) (rfcKey name) := by
  have hz := Zone.loadFile_loaded hload
  obtain ⟨s⟩ := signZone_signed hkey hsign
  have hwire := fun n hn => (hnames n hn).wireLabels
  exact ⟨fun o => s.nsec_goes_around hz hnames, fun o => s.nsec_bitmap hz hwire, fun name => s.nsec_covers hz hwire⟩

theorem sampleSigning_names : sampleSigning.zone.names.keys = [['w', '.', 'x'], ['x']] := by decide

theorem sampleSigning_dotted : ∀ n ∈ sampleSigning.zone.names.keys, Dotted n := by
  have hlabel : ∀ c : Char, c ≠ '.' → c.utf8Size = 1 → IsLabel [c] := fun c hdot hsize => by
    have hlen : (utf8 [c]).length = 1 := by rw [utf8_length_cons, hsize]; rfl
    exact ⟨by simpa using Ne.symm hdot, by omega, by omega⟩
  have hw := hlabel 'w' (by decide) (by decide)
  have hx := hlabel 'x' (by decide) (by decide)
  rw [sampleSigning_names]
  intro n hn
  rcases List.mem_cons.mp hn with rfl | hn
  · exact ⟨[['w'], ['x']], by simpa using ⟨hw, hx⟩, rfl⟩
  · rw [List.mem_singleton.mp hn]
    exact ⟨[['x']], by simpa using hx, rfl⟩

theorem signZone_nsecChain_sample : ∃ o ∈ sampleSigning.zone.names.keys,
    sampleSigning.zone.nsecCoveringOwner ['a', '.', 'x'] = some o ∧ ∃ nsec, nsecAt sampleSigning.zone o = some nsec ∧
      Circle.Between (rfcKey o) (rfcKey nsec.next) (rfcKey ['a', '.', 'x']) :=
  (signZone_nsecChain sampleRsa sampleFiles 1000000 listOrder ['x'] sampleFile ['k'] sampleZone sampleSigning.zone 6
    sampleZone_loads (by decide) sampleSigning_dotted sampleSigning_succeeds).2.2 ['a', '.', 'x']
      (by rw [sampleSigning_names]; decide)

end Ironbind
