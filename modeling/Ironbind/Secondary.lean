import Ironbind.Forwarding
import Ironbind.Lib.DeltaStream
import Ironbind.ReloadWatcher
import Ironbind.TransferContents

/- A secondary of this server. It asks for its zone over TCP, the first time for all of it and
   later for what is new since the serial it has. What a transfer means to it is
   `ZoneCopy.accept`, which is not code of this repository. A copy of one version becomes
   the version that is served, if a serial stands for the same records wherever it is used
   and no record changes its TTL alone (`fetchZone_of`): by differences where the history
   leads from the one to the other, and whole otherwise. -/
namespace Ironbind
open Codec Delta DeltaStream

/-! The secondary. -/

/-- A zone as a secondary has it: by its SOA record, and as the records it holds. -/
structure ZoneCopy where
  soa : Record
  data : Set RecordData

def isSoa (r : Record) : Bool := r.rtype = .SOA

/-- What the records of a transfer make of a copy. A SOA record alone leaves it. Where the second record is a SOA record
    with another serial, they are differences to the copy, between two of the new SOA record; otherwise they are the
    zone. -/
def ZoneCopy.accept (held : Option ZoneCopy) : List Record → Option ZoneCopy
  | soa :: next :: rest =>
    if next.rtype = .SOA ∧ soaSerial next.rdata ≠ soaSerial soa.rdata then
      held.map fun copy =>
        ⟨soa, Patch.run ((differences isSoa (next :: rest)).map fun d => d.patch recordData) copy.data⟩
    else some ⟨soa, {x | x ∈ (soa :: next :: rest).map recordData}⟩
  | _ => held

/-- The request for the zone, or for what is new since the copy. -/
def transferQuery (id : UInt16) (origin : Text) (since : Option ZoneCopy) : Packet where
  id := id
  flags := 0
  questions := [⟨origin, if since.isSome then .IXFR else .AXFR, CLASS_IN⟩]
  answers := []
  authority := since.toList.map ZoneCopy.soa
  additional := []
  ednsUdpSize := 0
  dnssecOk := false

/-- The records of the messages that come back. -/
def receivedRecords (stream : Bytes) : Option (List Record) :=
  (deframe stream).bind fun messages => (messages.mapM fun m => (parsePacket m).toOption).map sentRecords

/-- A transfer: the request goes out on a connection of its own, and what comes back is taken up if it can be read. -/
def fetchZone {τ : Type} (v : Serving τ) (id : UInt16) (origin : Text) (full : Bool) (held : Option ZoneCopy) :
    Option ZoneCopy :=
  match receivedRecords (handleTcp (fun _ => v)
      (frame (serialize (transferQuery id origin (if full then none else held)) true))) with
  | some rs => ZoneCopy.accept held rs
  | none => held

/-- The copy is the zone, and the SOA record that it is known by has the zone's serial. -/
structure ZoneCopy.Of (copy : ZoneCopy) (z : Zone) : Prop where
  data : copy.data = z.data
  serial : soaSerial copy.soa.rdata = z.serial
  rtype : copy.soa.rtype = .SOA
  portable : Portable copy.soa
  short : (Builder.record copy.soa).length ≤ 1000

/-! The zones. -/

/-- A zone that a transfer can carry: a serial, no SOA record but the one, and records the format has room for, so
    small that 64 of them are a message. -/
structure Transferable (z : Zone) : Prop where
  serial : z.serial ≠ none
  sole : ∀ r soa, z.Holds r → r.rtype = .SOA → z.apexSoa = some soa → recordData r = recordData soa
  portable : ∀ r, z.Holds r → Portable r
  short : ∀ r, z.Holds r → (Builder.record r).length ≤ 1000

/-- How an operator keeps the zone: each version can be transferred, one serial stands for the same records, and from
    one version to the next no record changes its TTL alone. -/
structure Maintained (origin : Text) (ls : List Load) : Prop where
  transferable : ∀ z ∈ published origin ls, Transferable z
  serials : ∀ y ∈ published origin ls, ∀ z ∈ published origin ls, y.serial = z.serial → y.data = z.data
  lifetimes : ∀ before after y z, published origin ls = before ++ y :: z :: after →
    ∀ a ∈ y.plainData, ∀ b ∈ z.plainData, a.key = b.key → a = b

/-- No zone is in the way of another: of all that are loaded, those of the origin are the ones that answer for it. -/
def SetApart (origin : Text) (ls : List Load) : Prop :=
  ∀ l ∈ ls, ∀ z, l.read = .ok z → (z.isAuthoritativeFor origin = true ↔ l.2.1 = origin)

/-! The loads and the history. -/

section
variable {origin : Text} {ls : List Load}

theorem mem_published {z : Zone} : z ∈ published origin ls ↔ ∃ l ∈ ls, l.2.1 = origin ∧ l.read = .ok z := by
  rw [published, List.mem_filterMap]
  refine exists_congr fun l => and_congr_right fun _ => ?_
  split
  · next ho =>
    cases hread : l.read with
    | error e => exact iff_of_false (fun h => by cases h) fun h => by cases h.2
    | ok y => exact ⟨fun h => ⟨ho, congrArg _ (Option.some.inj h)⟩, fun h => congrArg some (Except.ok.inj h.2)⟩
  · next ho => exact iff_of_false (fun h => by cases h) fun h => ho h.1

theorem published_append (ls ls' : List Load) :
    published origin (ls ++ ls') = published origin ls ++ published origin ls' :=
  List.filterMap_append

theorem published_soaTyped {z : Zone} (h : z ∈ published origin ls) : z.SoaTyped := by
  obtain ⟨l, -, -, hread⟩ := mem_published.mp h
  exact readZone_soaTyped hread

theorem Maintained.prefix {ls' : List Load} (h : Maintained origin (ls ++ ls')) : Maintained origin ls := by
  have hsub : ∀ z ∈ published origin ls, z ∈ published origin (ls ++ ls') := fun z hz => by
    rw [published_append]
    exact List.mem_append_left _ hz
  refine ⟨fun z hz => h.transferable z (hsub z hz), fun y hy z hz => h.serials y (hsub y hy) z (hsub z hz), ?_⟩
  intro before after y z heq
  refine h.lifetimes before (after ++ published origin ls') y z ?_
  rw [published_append, heq, List.append_assoc]
  rfl

namespace ZoneManager

theorem replay_concat (ls : List Load) (l : Load) : replay (ls ++ [l]) = (replay ls).attempt l := List.foldl_concat ..

theorem getZone_replay (origin : Text) (ls : List Load) : (replay ls).getZone origin = (published origin ls).getLast? := by
  induction ls using List.reverseRecOn with
  | nil => rfl
  | append_singleton ls l ih =>
    rw [replay_concat, ReloadWatcher.lookup_attempt, ih, published_concat, List.getLast?_append]
    congr 1
    by_cases ho : l.2.1 = origin
    · rw [if_pos ho]
      subst ho
      cases hread : l.read with
      | error e => rw [published_failed hread]; rfl
      | ok z => rw [published_read hread]; rfl
    · rw [if_neg ho, published_other ho]
      rfl

theorem formed_replay (ls : List Load) : (replay ls).Formed := by
  refine List.foldlRecOn ls _ formed_new fun m hm l _ => ?_
  rw [attempt]
  cases hread : l.read with
  | error e => exact hm
  | ok z => exact hm.install (readZone_soaTyped hread)

/-- The records of a difference are those of the zones it was made of. -/
theorem holds_of_buildDelta {ho ho' : HashOrder} {old new : Zone} {d : ZoneDelta} {r : Record}
    (h : buildDelta ho ho' old new = some d) (hr : r ∈ d.records) : old.Holds r ∨ new.Holds r := by
  obtain ⟨hfrom, hto, -, -, hremoved, hadded⟩ := buildDelta_eq_some h
  rw [ZoneDelta.records, hremoved, hadded, List.mem_append, List.mem_cons, List.mem_cons] at hr
  rcases hr with (rfl | hr) | rfl | hr
  · exact .inl (Zone.holds_apexSoa hfrom)
  · exact .inl (mem_diffRecords.mp (List.mem_of_mem_filter hr)).1
  · exact .inr (Zone.holds_apexSoa hto)
  · exact .inr (mem_diffRecords.mp (List.mem_of_mem_filter hr)).1

/-- What the history holds was published. -/
theorem drawn_replay (origin : Text) (ls : List Load) : ∀ d ∈ (replay ls).queue origin, ∀ r ∈ d.records,
    ∃ z ∈ published origin ls, z.Holds r := by
  induction ls using List.reverseRecOn with
  | nil => exact fun d hd => by cases hd
  | append_singleton ls l ih =>
    have hold : ∀ d ∈ (replay ls).queue origin, ∀ r ∈ d.records, ∃ z ∈ published origin (ls ++ [l]), z.Holds r := by
      intro d hd r hr
      obtain ⟨z, hz, hholds⟩ := ih d hd r hr
      rw [published_concat]
      exact ⟨z, List.mem_append_left _ hz, hholds⟩
    rw [replay_concat, attempt]
    cases hread : l.read with
    | error e => exact hold
    | ok z =>
      by_cases ho : l.2.1 = origin
      · subst ho
        have hz : z ∈ published l.2.1 (ls ++ [l]) := by
          rw [published_concat, published_read hread]
          exact List.mem_append_right _ (List.mem_singleton_self z)
        cases hrec : recordedDelta l.1 (replay ls) l.2.1 z with
        | none =>
          show ∀ d ∈ (install l.1 l.2.1 l.2.2 (replay ls) z).queue l.2.1, _
          rw [queue_install_none hrec]
          exact hold
        | some new =>
          show ∀ d ∈ (install l.1 l.2.1 l.2.2 (replay ls) z).queue l.2.1, _
          rw [queue_install_some hrec]
          intro d hd
          rcases List.mem_append.mp ((pushDelta_suffix _ _ _).subset hd) with hd | hd
          · exact hold d hd
          · obtain rfl := List.mem_singleton.mp hd
            -- the new difference, of the zone in place and the one that was read
            obtain ⟨old, hplace, hbuilt, -⟩ := recordedDelta_some hrec
            have holdPublished : old ∈ published l.2.1 (ls ++ [l]) := by
              rw [getZone_replay] at hplace
              rw [published_concat]
              exact List.mem_append_left _ (List.mem_of_getLast? hplace)
            intro r hr
            rcases holds_of_buildDelta hbuilt hr with hheld | hheld
            · exact ⟨old, holdPublished, hheld⟩
            · exact ⟨z, hz, hheld⟩
      · have hother := (@install_other (replay ls) origin l.1 l.2.1 l.2.2 z ho).2
        show ∀ d ∈ (install l.1 l.2.1 l.2.2 (replay ls) z).queue origin, _
        rw [hother]
        exact hold

end ZoneManager

theorem Transferable.isSoa_data {z : Zone} (h : Transferable z) {soa : Record} (hsoa : z.apexSoa = some soa)
    {x : RecordData}
    (hx : x ∈ z.data) (hrtype : x.2.1 = .SOA) : x = recordData soa := by
  obtain ⟨r, hr, rfl⟩ := hx
  exact h.sole r soa hr hrtype hsoa

/-- With another serial the SOA record is another. -/
theorem soaSerial_of_recordData {r r' : Record} (h : recordData r = recordData r') :
    soaSerial r.rdata = soaSerial r'.rdata :=
  congrArg (fun x : RecordData => soaSerial x.2.2.2) h

/-- Between two versions with serials of their own nothing is lost. -/
theorem Maintained.carried (h : Maintained origin ls) {before after : List Zone} {y z : Zone}
    (heq : published origin ls = before ++ y :: z :: after) (hne : y.serial ≠ z.serial) : Carried y z := by
  have hy : y ∈ published origin ls := by
    rw [heq]
    exact List.mem_append_right _ List.mem_cons_self
  have hz : z ∈ published origin ls := by
    rw [heq]
    exact List.mem_append_right _ (List.mem_cons_of_mem _ List.mem_cons_self)
  refine ⟨fun a ha b hb hkey => ?_, fun a b ha hb => ⟨fun hmem => hne ?_, fun x ht hxa hxb => ?_⟩⟩
  · obtain rfl := h.lifetimes before after y z heq a ha b hb hkey
    exact ⟨hb.1, ha.1⟩
  · -- the SOA record of the old version is not in the new one
    have hrtype : a.rtype = .SOA := (published_soaTyped hy).apexSoa ha
    have hsame := (h.transferable z hz).isSoa_data hb hmem hrtype
    rw [Zone.serial, Zone.serial, ha, hb]
    exact soaSerial_of_recordData hsame
  · exact iff_of_false (fun hx => hxa ((h.transferable y hy).isSoa_data ha hx ht))
      fun hx => hxb ((h.transferable z hz).isSoa_data hb hx ht)

/-- So the manager can keep track of the zone. -/
theorem Maintained.reproducible (h : Maintained origin ls) : Reproducible origin ls := by
  rintro before l after z rfl ho hread
  have hpublished : published origin (before ++ l :: after) = published origin before ++ z :: published origin after := by
    rw [published_append, show l :: after = [l] ++ after from rfl, published_append, ← ho, published_read hread]
    rfl
  have hz : z ∈ published origin (before ++ l :: after) := by
    rw [hpublished]
    exact List.mem_append_right _ List.mem_cons_self
  have hmem : ∀ p ∈ published origin before, p ∈ published origin (before ++ l :: after) := fun p hp => by
    rw [hpublished]
    exact List.mem_append_left _ hp
  have hplace : ∀ old, (ZoneManager.replay before).getZone origin = some old →
      ∃ earlier, published origin before = earlier ++ [old] := fun old hold => by
    rw [ZoneManager.getZone_replay] at hold
    exact ⟨_, (List.dropLast_append_getLast? old hold).symm⟩
  refine ⟨fun old s hold hadvances => ?_, fun old hold hstays _ => ?_⟩
  · obtain ⟨earlier, hearlier⟩ := hplace old hold
    obtain ⟨hserial, t, ht, hne⟩ := hadvances
    have holdMem : old ∈ published origin before := by
      rw [hearlier]
      exact List.mem_append_right _ (List.mem_singleton_self old)
    have hnext : published origin (before ++ l :: after) = earlier ++ old :: z :: published origin after := by
      rw [hpublished, hearlier, List.append_assoc]
      rfl
    refine ⟨h.carried hnext ?_, fun p hp hps => ?_⟩
    · rw [hserial, ht]
      exact fun he => hne (Option.some.inj he)
    · have hdata : p.data = old.data := h.serials p (hmem p hp) old (hmem old holdMem) (hps.trans hserial.symm)
      rw [Between, hdata]
      exact ⟨Set.inter_subset_left, Set.subset_union_left⟩
  · obtain ⟨earlier, hearlier⟩ := hplace old hold
    have holdMem : old ∈ published origin before := by
      rw [hearlier]
      exact List.mem_append_right _ (List.mem_singleton_self old)
    obtain ⟨s, hs⟩ := Option.ne_none_iff_exists'.mp (h.transferable old (hmem old holdMem)).serial
    obtain ⟨t, ht⟩ := Option.ne_none_iff_exists'.mp (h.transferable z hz).serial
    have hsame : s = t := by
      by_contra hne
      exact hstays s ⟨hs, t, ht, hne⟩
    exact h.serials z hz old (hmem old holdMem) (by rw [hs, ht, hsame])

/-- What a chain is made of: it starts at the serial asked for and, where its end is the serial of a version, it leads to
    that version from every one it starts at. -/
theorem Maintained.chain (h : Maintained origin ls) {serial : UInt32} {chain : List ZoneDelta}
    (hchain : (ZoneManager.replay ls).ixfrChain origin serial = some chain) {y z : Zone} (hy : y ∈ published origin ls)
    (hserial : y.serial = some serial) (hz : z ∈ published origin ls)
    (hlast : chain.getLast?.map ZoneDelta.toSerial = z.serial) :
    (∃ d rest, chain = d :: rest ∧ d.fromSerial = serial) ∧ chain <:+ (ZoneManager.replay ls).queue origin ∧
      Patch.run (chain.map ZoneDelta.patch) y.data = z.data := by
  have htracked := replay_tracked h.reproducible
  have hlinked := linked_of_replay fun p hp => (h.transferable p hp).serial
  obtain ⟨d, rest, rfl, hfrom, hsuf⟩ := ZoneManager.ixfrChain_suffix hchain
  obtain ⟨current, hcurrent⟩ : ∃ current, (ZoneManager.replay ls).getZone origin = some current := by
    rw [htracked.current]
    exact ⟨_, List.getLast?_eq_some_getLast (List.ne_nil_of_mem hy)⟩
  refine ⟨⟨d, rest, rfl, hfrom⟩, hsuf, ?_⟩
  have hcopy : ((d.entry).1, y.data) ∈ copiesOf (published origin ls) :=
    ⟨y, hy, hserial.trans (congrArg some hfrom.symm), rfl⟩
  have hlead : Patch.run ((d :: rest).map ZoneDelta.patch) y.data = current.data := by
    rw [← (htracked.exact current hcurrent).leads _ (rest.map ZoneDelta.entry) _ (hsuf.map ZoneDelta.entry) hcopy, patches,
      ← List.map_cons, List.map_map]
    rfl
  obtain ⟨first, last, hcurrentSerial, hcontiguous⟩ := hlinked.current current hcurrent
  obtain ⟨mid, hmid⟩ := hcontiguous.suffix hsuf
  have hcurrentMem : current ∈ published origin ls := by
    rw [htracked.current] at hcurrent
    exact List.mem_of_getLast? hcurrent
  have hsame : current.serial = z.serial := by
    rw [hcurrentSerial, ← hlast, hmid.getLast? (List.cons_ne_nil d rest)]
  rw [hlead, h.serials current hcurrentMem z hz hsame]

end

/-! What is sent. -/

/-- A difference of the history as it stands in the stream. -/
def ZoneDelta.difference (d : ZoneDelta) : Difference Record := ⟨d.fromSoa, d.removed, d.toSoa, d.added⟩

theorem ZoneDelta.Formed.marked {d : ZoneDelta} (h : d.Formed) : d.difference.Marked isSoa where
  before := decide_eq_true h.fromSoa
  after := decide_eq_true h.toSoa
  removed := fun r hr => decide_eq_false (h.removed r hr)
  added := fun r hr => decide_eq_false (h.added r hr)

theorem ixfrRecords_flatten (soa : Record) (deltas : List ZoneDelta) :
    ixfrRecords soa deltas = soa :: (flatten (deltas.map ZoneDelta.difference) ++ [soa]) := by
  rw [ixfrRecords, flatten, List.flatMap_map]
  rfl

namespace ZoneCopy
variable {held : Option ZoneCopy} {copy : ZoneCopy} {soa : Record} {z : Zone}

/-- The whole zone. -/
theorem accept_axfr (hz : Transferable z) (hsoa : z.apexSoa = some soa) (ho : HashOrder) :
    accept held (soa :: axfrBody ho z ++ [soa]) = some ⟨soa, z.data⟩ := by
  have hbody : ∀ r, r ∈ axfrBody ho z ↔ z.Holds r ∧ r.rtype ≠ .SOA := fun r => by
    rw [axfrBody, List.mem_mergeSort, mem_diffRecords]
  have hdata : {x | x ∈ (soa :: axfrBody ho z ++ [soa]).map recordData} = z.data := by
    ext x
    rw [Set.mem_ofPred_eq, List.mem_map]
    constructor
    · rintro ⟨r, hr, rfl⟩
      rw [List.cons_append, List.mem_cons, List.mem_append, List.mem_singleton] at hr
      rcases hr with rfl | hr | rfl
      · exact Zone.mem_data (Zone.holds_apexSoa hsoa)
      · exact Zone.mem_data ((hbody r).mp hr).1
      · exact Zone.mem_data (Zone.holds_apexSoa hsoa)
    · rintro ⟨r, hr, rfl⟩
      by_cases ht : r.rtype = .SOA
      · exact ⟨soa, List.mem_cons_self, (hz.sole r soa hr ht hsoa).symm⟩
      · exact ⟨r, List.mem_cons_of_mem _ (List.mem_append_left _ ((hbody r).mpr ⟨hr, ht⟩)), rfl⟩
  cases hlist : axfrBody ho z with
  | nil =>
    rw [hlist] at hdata
    show (if soa.rtype = .SOA ∧ soaSerial soa.rdata ≠ soaSerial soa.rdata then _ else _) = _
    rw [if_neg fun h => h.2 rfl]
    exact congrArg (fun d => some (ZoneCopy.mk soa d)) hdata
  | cons r rest =>
    have hr : r.rtype ≠ .SOA := ((hbody r).mp (by rw [hlist]; exact List.mem_cons_self)).2
    rw [hlist] at hdata
    show (if r.rtype = .SOA ∧ soaSerial r.rdata ≠ soaSerial soa.rdata then _ else _) = _
    rw [if_neg fun h => hr h.1]
    exact congrArg (fun d => some (ZoneCopy.mk soa d)) hdata

/-- The differences since the copy. -/
theorem accept_ixfr (hsoa : soa.rtype = .SOA) {d : ZoneDelta} {rest : List ZoneDelta}
    (hformed : ∀ d' ∈ d :: rest, d'.Formed)
    (hne : soaSerial soa.rdata ≠ some d.fromSerial) : accept (some copy) (ixfrRecords soa (d :: rest)) =
      some ⟨soa, Patch.run ((d :: rest).map ZoneDelta.patch) copy.data⟩ := by
  have hread : differences isSoa (flatten ((d :: rest).map ZoneDelta.difference) ++ [soa]) =
      (d :: rest).map ZoneDelta.difference :=
    differences_flatten (List.forall_mem_map.mpr fun d' hd' => (hformed d' hd').marked) (decide_eq_true hsoa)
  have hd := hformed d List.mem_cons_self
  have hcond : d.fromSoa.rtype = .SOA ∧ soaSerial d.fromSoa.rdata ≠ soaSerial soa.rdata :=
    ⟨hd.fromSoa, fun he => hne (he.symm.trans hd.fromSerial)⟩
  rw [ixfrRecords_flatten]
  refine (if_pos hcond).trans ?_
  show some (ZoneCopy.mk soa (Patch.run ((differences isSoa
    (flatten ((d :: rest).map ZoneDelta.difference) ++ [soa])).map fun e => e.patch recordData) copy.data)) = _
  rw [hread, List.map_map]
  rfl

end ZoneCopy

section
variable {τ : Type} {v : Serving τ} {origin : Text} {ls : List Load} {y z : Zone} {pkt : Packet} {q : Question}
  {held : Option ZoneCopy} {copy : ZoneCopy}

theorem ZoneCopy.of_transferable (hz : Transferable z) (htyped : z.SoaTyped) {soa : Record} (hsoa : z.apexSoa = some soa) :
    (ZoneCopy.mk soa z.data).Of z where
  data := rfl
  serial := by
    rw [Zone.serial, hsoa]
    rfl
  rtype := htyped.apexSoa hsoa
  portable := hz.portable soa (Zone.holds_apexSoa hsoa)
  short := hz.short soa (Zone.holds_apexSoa hsoa)

/-- The whole zone is asked for. -/
theorem accept_full (h : Maintained origin ls) (hz : z ∈ published origin ls) (hq : q.qtype = .AXFR) :
    ∃ copy, ZoneCopy.accept held (sentRecords (transferStream v pkt q z)) = some copy ∧ copy.Of z := by
  have htransferable := h.transferable z hz
  obtain ⟨s, hs⟩ := Option.ne_none_iff_exists'.mp htransferable.serial
  obtain ⟨soa, hsoa, -⟩ := Option.bind_eq_some_iff.mp hs
  rw [transferStream, if_pos hq, sentRecords_axfrStream hsoa, ZoneCopy.accept_axfr htransferable hsoa]
  exact ⟨_, rfl, ZoneCopy.of_transferable htransferable (published_soaTyped hz) hsoa⟩

/-- What is new since the copy is asked for. -/
theorem accept_since (h : Maintained origin ls) (hmanager : v.manager = ZoneManager.replay ls)
    (hy : y ∈ published origin ls)
    (hz : z ∈ published origin ls) (hq : q.qtype = .IXFR) (hname : q.name = origin) (hcopy : copy.Of y)
    (hserial : some (requesterSerial pkt) = y.serial) :
    ∃ copy', ZoneCopy.accept (some copy) (sentRecords (transferStream v pkt q z)) = some copy' ∧ copy'.Of z := by
  have htransferable := h.transferable z hz
  obtain ⟨s, hs⟩ := Option.ne_none_iff_exists'.mp htransferable.serial
  obtain ⟨soa, hsoa, hsoaSerial⟩ := Option.bind_eq_some_iff.mp hs
  have hours : (extractSerial soa.rdata).getD 0 = s := by rw [extractSerial, hsoaSerial]; rfl
  have htyped := published_soaTyped hz
  have hwhole : ∃ copy', ZoneCopy.accept (some copy) (sentRecords (axfrStream v.handler.hashOrder pkt z)) = some copy' ∧
      copy'.Of z := by
    rw [sentRecords_axfrStream hsoa, ZoneCopy.accept_axfr htransferable hsoa]
    exact ⟨_, rfl, ZoneCopy.of_transferable htransferable htyped hsoa⟩
  have hixfr : q.qtype ≠ .AXFR := by rw [hq]; decide
  rw [transferStream, if_neg hixfr, hname, hmanager]
  dsimp only
  rw [ixfrStream, show z.soa.bind List.head? = some soa from hsoa]
  dsimp only
  rw [hours]
  split
  · next hsame =>
    -- nothing is new: the copy has the serial of the zone
    have hzy : z.data = y.data := h.serials z hz y hy (by rw [hs, hsame, hserial])
    exact ⟨copy, rfl, hcopy.data.trans hzy.symm, by rw [hcopy.serial, hs, hsame, hserial], hcopy.rtype, hcopy.portable,
      hcopy.short⟩
  · next hnew =>
    split
    · exact hwhole
    · next deltas hchain =>
      split
      · next hlast =>
        rw [← hs] at hlast
        obtain ⟨⟨d, rest, rfl, hfrom⟩, hsuf, hrun⟩ := h.chain hchain hy hserial.symm hz hlast
        have hformed : ∀ d' ∈ d :: rest, d'.Formed := fun d' hd' =>
          (ZoneManager.formed_replay ls).history origin d' (hsuf.subset hd')
        have hne : soaSerial soa.rdata ≠ some d.fromSerial := by
          rw [hsoaSerial, hfrom]
          exact fun he => hnew (Option.some.inj he)
        rw [sentRecords_messages, chunks_flatten (by decide) (Nat.le_refl _),
          ZoneCopy.accept_ixfr (htyped.apexSoa hsoa) hformed hne, hcopy.data, hrun]
        exact ⟨_, rfl, ZoneCopy.of_transferable htransferable htyped hsoa⟩
      · exact hwhole

end

/-! On the wire. -/

/-- A message of a transfer: one question for the origin, no more than 64 records, and these fit. -/
structure TransferMessage (origin : Text) (p : Packet) : Prop where
  question : ∃ t, Normalised t ∧ p.questions = [⟨origin, t, CLASS_IN⟩]
  count : (p.answers ++ p.authority).length ≤ 64
  records : ∀ r ∈ p.answers ++ p.authority, Portable r ∧ (Builder.record r).length ≤ 1000
  additional : p.additional = []
  edns : p.ednsUdpSize = 0 ∧ p.dnssecOk = false

theorem recordOctets_le {n : Nat} : ∀ {rs : List Record}, (∀ r ∈ rs, (Builder.record r).length ≤ n) →
    recordOctets rs ≤ rs.length * n
  | [], _ => Nat.zero_le _
  | r :: rs, h => by
    have hr := h r List.mem_cons_self
    have hrs : recordOctets rs ≤ rs.length * n := recordOctets_le fun r hr => h r (List.mem_cons_of_mem _ hr)
    rw [recordOctets_cons, List.length_cons, Nat.succ_mul]
    omega

section
variable {origin : Text} (horigin : FitsWire origin) (hspelt : readName origin = origin)
include horigin hspelt

/-- Such a message is read as it was written, and 16 bits count its octets. -/
theorem TransferMessage.decodes {p : Packet} (h : TransferMessage origin p) :
    parsePacket (serialize p true) = .ok p ∧ (serialize p true).length ≤ 65535 := by
  obtain ⟨t, ht, hquestions⟩ := h.question
  have hcount := h.count
  rw [List.length_append] at hcount
  have hlower := readName_domain horigin
  rw [hspelt] at hlower
  have hrecords : ∀ r ∈ p.answers ++ p.authority ++ p.additional, Portable r := fun r hr => by
    rw [h.additional, List.append_nil] at hr
    exact (h.records r hr).1
  have hexpanded : Expanded p := by
    refine ⟨fun q hq => ?_, fun r hr => ?_, ?_, ?_, by omega, by omega, ?_, fun _ => h.edns.2⟩
    · rw [hquestions] at hq
      obtain rfl := List.mem_singleton.mp hq
      exact ⟨hlower, ht⟩
    · exact ⟨(hrecords r hr).owner, (hrecords r hr).rtype, (hrecords r hr).data⟩
    · rw [h.additional]
      exact fun r hr => by cases hr
    · rw [hquestions]
      exact Nat.lt_of_sub_eq_succ rfl
    · rw [additionalWritten, h.additional, h.edns.1]
      exact Nat.zero_lt_succ _
  have hread := (serialize_decodes hexpanded fun r hr => (hrecords r hr).announced).run
  refine ⟨by rw [parsePacket, Reader.run, hread], ?_⟩
  have hname := horigin.length
  have hquestion : questionOctets p.questions = (Builder.name origin).length + 4 := by
    rw [hquestions, questionOctets, List.map_cons, List.map_nil, List.sum_singleton, Builder.question, List.length_append,
      List.length_append]
    rfl
  have hoctets : recordOctets (p.answers ++ p.authority) ≤ 64 * 1000 :=
    (recordOctets_le fun r hr => (h.records r hr).2).trans (Nat.mul_le_mul_right _ h.count)
  rw [recordOctets_append] at hoctets
  rw [serialize_length, hquestion, h.additional, h.edns.1]
  show 12 + _ + _ + _ + 0 + 0 ≤ 65535
  omega

end

theorem mapM_map_some {α β : Type} {f : β → Option α} {g : α → β} : ∀ {l : List α}, (∀ a ∈ l, f (g a) = some a) →
    (l.map g).mapM f = some l
  | [], _ => rfl
  | a :: l, h => by
    rw [List.map_cons, List.mapM_cons, h a List.mem_cons_self,
      mapM_map_some fun a ha => h a (List.mem_cons_of_mem _ ha)]
    rfl

/-- The records of messages that can be read come out of the stream. -/
theorem receivedRecords_frames {packets : List Packet} (h : ∀ p ∈ packets, parsePacket (serialize p false) = .ok p ∧
    (serialize p false).length ≤ 65535) :
    receivedRecords ((packets.map fun p => serialize p false).flatMap frame) = some (sentRecords packets) := by
  have hframes : deframe ((packets.map fun p => serialize p false).flatMap frame) =
      some (packets.map fun p => serialize p false) :=
    (deframe_frames_iff _).mpr (List.forall_mem_map.mpr fun p hp => (h p hp).2)
  rw [receivedRecords, hframes, Option.bind_some, mapM_map_some fun p hp => by rw [(h p hp).1]; rfl]
  rfl

section
variable {τ : Type} {v : Serving τ} {origin : Text} {ls : List Load} {y z : Zone} {id : UInt16}
  {since held : Option ZoneCopy}

theorem transferQuery_message (hsince : ∀ copy ∈ since, ∃ y, copy.Of y) :
    TransferMessage origin (transferQuery id origin since) where
  question := ⟨if since.isSome then .IXFR else .AXFR, by unfold Normalised; split <;> rfl, rfl⟩
  count := by
    show ([] ++ since.toList.map ZoneCopy.soa).length ≤ 64
    rw [List.nil_append, List.length_map]
    cases since with
    | none => exact Nat.zero_le _
    | some copy => exact Nat.le_of_ble_eq_true rfl
  records := by
    intro r hr
    obtain ⟨copy, hcopy, rfl⟩ := List.mem_map.mp (show r ∈ since.toList.map ZoneCopy.soa from hr)
    obtain ⟨y, hy⟩ := hsince copy (Option.mem_toList.mp hcopy)
    exact ⟨hy.portable, hy.short⟩
  additional := rfl
  edns := ⟨rfl, rfl⟩

/-- The messages that answer it are made of what was published. -/
theorem transferStream_message (h : Maintained origin ls) (hmanager : v.manager = ZoneManager.replay ls)
    (hz : z ∈ published origin ls) {p : Packet}
    (hp : p ∈ transferStream v (transferQuery id origin since)
      ⟨origin, if since.isSome then .IXFR else .AXFR, CLASS_IN⟩ z) :
    TransferMessage origin p := by
  obtain ⟨answers, rfl, hcount, hheld⟩ := mem_transferStream v hp
  have hanswers : ∀ r ∈ answers, ∃ y ∈ published origin ls, y.Holds r := by
    intro r hr
    rcases hheld r hr with hr | ⟨queue, d, hqueue, hd, hr⟩
    · exact ⟨z, hz, hr⟩
    · rw [hmanager] at hqueue
      refine ZoneManager.drawn_replay origin ls d ?_ r hr
      rw [ZoneManager.queue, hqueue]
      exact hd
  refine ⟨⟨_, by unfold Normalised; split <;> rfl, rfl⟩, ?_, fun r hr => ?_, rfl, rfl, rfl⟩
  · show (answers ++ []).length ≤ 64
    rw [List.append_nil]
    exact hcount
  · obtain ⟨y, hy, hr⟩ := hanswers r ((List.append_nil answers) ▸ hr)
    exact ⟨(h.transferable y hy).portable r hr, (h.transferable y hy).short r hr⟩

variable (horigin : FitsWire origin) (hspelt : readName origin = origin)
  (hempty : v.handler.tsigKeys.isEmpty = true) (hmanager : v.manager = ZoneManager.replay ls)
  (hfind : v.zones.find? (fun zone => zone.isAuthoritativeFor origin) = some z) (h : Maintained origin ls)
  (hz : z ∈ published origin ls)
include horigin hspelt hempty hmanager hfind h hz

/-- What comes back on the connection is the stream. -/
theorem receivedRecords_handleTcp (hsince : ∀ copy ∈ since, ∃ y, copy.Of y) :
    receivedRecords (handleTcp (fun _ => v) (frame (serialize (transferQuery id origin since) true))) =
      some (sentRecords (transferStream v (transferQuery id origin since)
        ⟨origin, if since.isSome then .IXFR else .AXFR, CLASS_IN⟩ z)) := by
  obtain ⟨hparse, hlength⟩ := (@transferQuery_message origin id since hsince).decodes horigin hspelt
  have hne : serialize (transferQuery id origin since) true ≠ [] := by
    rw [serialize_eq_header]
    exact List.cons_ne_nil _ _
  have hverified : ¬ Unverified v (serialize (transferQuery id origin since) true) := by
    rintro ⟨hkeys, -⟩
    rw [hempty] at hkeys
    cases hkeys
  have htransfer := zoneTransfer_of_verified v hparse rfl (by split <;> simp) hverified
  rw [hfind] at htransfer
  have hreplies : tcpReplies v (serialize (transferQuery id origin since) true) =
      (transferStream v (transferQuery id origin since) ⟨origin, if since.isSome then .IXFR else .AXFR, CLASS_IN⟩ z).map
        fun p => serialize p false := by
    rw [tcpReplies, maybeZoneTransfer, htransfer]
    show streamBytes v.handler.hmac v.signTimes v.handler.tsigKeys _ = _
    simp only [streamBytes, TsigKeyring.get_eq_none_of_isEmpty hempty]
  rw [handleTcp, queriesOf_frame hne hlength]
  simp only [List.zipIdx_cons, List.zipIdx_nil, List.flatMap_cons, List.flatMap_nil, List.append_nil, hreplies]
  refine receivedRecords_frames fun p hp => ?_
  have hmessage := transferStream_message h hmanager hz hp
  have hplain : serialize p false = serialize p true := by
    rw [serialize, serialize, hmessage.edns.1]
    rfl
  rw [hplain]
  exact hmessage.decodes horigin hspelt

/-- One transfer: the copy becomes the zone that is served. -/
theorem fetchZone_of (hheld : ∀ copy ∈ held, ∃ y ∈ published origin ls, copy.Of y) (full : Bool) :
    ∃ copy, fetchZone v id origin full held = some copy ∧ copy.Of z := by
  have hsince : ∀ copy ∈ (if full then none else held), ∃ y ∈ published origin ls, copy.Of y := by
    intro copy hcopy
    cases full with
    | true => cases hcopy
    | false => exact hheld copy hcopy
  rw [fetchZone, receivedRecords_handleTcp horigin hspelt hempty hmanager hfind h hz fun copy hcopy =>
    (hsince copy hcopy).imp fun y hy => hy.2]
  generalize hgeneral : (if full then none else held) = since at hsince ⊢
  cases since with
  | none => exact accept_full h hz rfl
  | some copy =>
    obtain rfl : held = some copy := by
      cases full with
      | true => cases hgeneral
      | false => exact hgeneral
    obtain ⟨y, hy, hcopy⟩ := hsince copy rfl
    refine accept_since h hmanager hy hz rfl rfl hcopy ?_
    have hserial : requesterSerial (transferQuery id origin (some copy)) = (soaSerial copy.soa.rdata).getD 0 := by
      have hfound : [copy.soa].find? (fun r => decide (r.rtype = .SOA)) = some copy.soa :=
        List.find?_cons_of_pos (decide_eq_true hcopy.rtype)
      show (([copy.soa].find? fun r => decide (r.rtype = .SOA)).bind fun r => soaSerial r.rdata).getD 0 = _
      rw [hfound]
      rfl
    obtain ⟨s, hs⟩ := Option.ne_none_iff_exists'.mp (h.transferable y hy).serial
    rw [hserial, hcopy.serial, hs]
    rfl

end

end Ironbind
