import Ironbind.DeltaChains
import Ironbind.SignedReplies

/- Which zone a transfer sends. `handle_query` answers from the zone with the longest
   origin that holds the name, `maybe_zone_transfer` sends the first one of the list,
   and takes the history that is filed under the name in the question, where
   `load_zone` files it under the name of the file. `serves_own_iff` is exactly when
   the two paths agree on the zone and its history. -/
namespace Ironbind
open Codec

/-! The zones of a server, and the two ways to find one. -/

/-- A zone with the name of the file it is loaded from. -/
abbrev ZoneEntry : Type := Text × Zone

/-- The server has the zones of its manager, in the order some hash map walks them. -/
structure Lists {σ : Type} (v : Serving σ) (es : List ZoneEntry) : Prop where
  entries : es.Perm (v.manager.zones.entries.map fun e => (e.1, e.2))
  zones : v.zones = es.map Prod.snd

def ZoneEntry.Holds (name : Text) (e : ZoneEntry) : Bool := e.2.isAuthoritativeFor name

def ZoneEntry.originLength (e : ZoneEntry) : Nat := (utf8 e.2.origin).length

/-- The zone `handle_query` answers from: the last one of the longest origin. -/
def answeringEntry (es : List ZoneEntry) (name : Text) : Option ZoneEntry :=
  (es.filter (ZoneEntry.Holds name)).reverse.argmax ZoneEntry.originLength

/-- The zone `maybe_zone_transfer` sends. -/
def transferEntry (es : List ZoneEntry) (name : Text) : Option ZoneEntry := es.find? (ZoneEntry.Holds name)

theorem answeringEntry_concat (es : List ZoneEntry) (e : ZoneEntry) (name : Text) : answeringEntry (es ++ [e]) name =
    if e.Holds name then
      match answeringEntry es name with
      | none => some e
      | some b => if b.originLength ≤ e.originLength then some e else some b
    else answeringEntry es name := by
  rw [answeringEntry, List.filter_append, List.filter_cons, List.filter_nil]
  by_cases hholds : e.Holds name
  · rw [if_pos hholds, if_pos hholds, List.reverse_append, List.reverse_singleton, List.singleton_append,
      List.argmax_cons, ← answeringEntry]
    cases answeringEntry es name with
    | none => rfl
    | some b =>
      by_cases hle : b.originLength ≤ e.originLength
      · simp only [if_pos hle, if_neg (Nat.not_lt.mpr hle)]
      · simp only [if_neg hle, if_pos (Nat.lt_of_not_le hle)]
  · rw [if_neg hholds, if_neg hholds, List.append_nil, ← answeringEntry]

theorem authoritativeZone_eq (es : List ZoneEntry) (name : Text) :
    authoritativeZone (es.map Prod.snd) name = (answeringEntry es name).map Prod.snd := by
  induction es using List.reverseRecOn with
  | nil => rfl
  | append_singleton es e ih =>
    rw [List.map_append, List.map_singleton, authoritativeZone_concat, answeringEntry_concat, ih]
    by_cases hholds : e.Holds name
    · have hauth : e.2.isAuthoritativeFor name = true := hholds
      rw [if_pos hauth, if_pos hholds]
      cases answeringEntry es name with
      | none => rfl
      | some b =>
        dsimp only [Option.map_some]
        by_cases hle : b.originLength ≤ e.originLength
        · rw [if_pos hle]; exact if_pos hle
        · rw [if_neg hle]; exact if_neg hle
    · have hauth : ¬ e.2.isAuthoritativeFor name = true := hholds
      rw [if_neg hauth, if_neg hholds]

theorem transferZone_eq (es : List ZoneEntry) (name : Text) :
    (es.map Prod.snd).find? (fun zone => zone.isAuthoritativeFor name) = (transferEntry es name).map Prod.snd :=
  List.find?_map

/-- The name is the apex of the zone; the root's is written as a dot. -/
def IsApex (z : Zone) (name : Text) : Prop := toAsciiLowercase name = if z.origin = [] then ['.'] else z.origin

instance (z : Zone) (name : Text) : Decidable (IsApex z name) :=
  inferInstanceAs (Decidable (_ = _))

theorem IsApex.holds {z : Zone} {name : Text} (h : IsApex z name) : z.isAuthoritativeFor name = true := by
  rw [IsApex] at h
  rw [Zone.isAuthoritativeFor, Bool.or_eq_true, beq_iff_eq, List.isSuffixOf_iff_suffix]
  split at h
  · next hroot => rw [h, hroot]; exact .inr (List.suffix_refl _)
  · exact .inl h

/-- A zone that holds the name, with an origin as long as the apex zone's, has its apex there. -/
theorem IsApex.of_length_le {z z' : Zone} {name : Text} (h : IsApex z name) (hholds : z'.isAuthoritativeFor name = true)
    (hle : (utf8 z.origin).length ≤ (utf8 z'.origin).length) : IsApex z' name := by
  rw [Zone.isAuthoritativeFor, Bool.or_eq_true, beq_iff_eq, List.isSuffixOf_iff_suffix] at hholds
  rw [IsApex] at h ⊢
  rcases hholds with heq | ⟨front, hfront⟩
  · rw [heq]
    split
    · next hroot =>
      rw [hroot] at heq
      rw [heq] at h
      split at h
      · cases h
      · next hne => exact absurd h.symm hne
    · rfl
  · -- behind a dot, only the origin of the root is as long
    have hlength : (utf8 (toAsciiLowercase name)).length = (utf8 front).length + (1 + (utf8 z'.origin).length) := by
      rw [← hfront, utf8_append, utf8_cons, List.length_append, List.length_append]
      rfl
    split at h
    · have hone : front.length + (z'.origin.length + 1) = 1 := by
        rw [← List.length_cons, ← List.length_append, hfront, h]
        rfl
      have hroot : z'.origin = [] := List.length_eq_zero_iff.mp (by omega)
      rw [if_pos hroot, h]
    · rw [h] at hlength
      omega

/-- Some zone has its apex at the name: so has the one that is answered from. -/
theorem answeringEntry_of_apex {es : List ZoneEntry} {name : Text} {e : ZoneEntry} (he : e ∈ es)
    (hapex : IsApex e.2 name) :
    ∃ e', answeringEntry es name = some e' ∧ e' ∈ es ∧ IsApex e'.2 name := by
  have hmem : e ∈ (es.filter (ZoneEntry.Holds name)).reverse :=
    List.mem_reverse.mpr (List.mem_filter.mpr ⟨he, hapex.holds⟩)
  cases hbest : answeringEntry es name with
  | none =>
    rw [List.argmax_eq_none.mp hbest] at hmem
    exact absurd hmem List.not_mem_nil
  | some e' =>
    obtain ⟨hin, hholds⟩ := List.mem_filter.mp (List.mem_reverse.mp (List.argmax_mem hbest))
    have hle : e.originLength ≤ e'.originLength := List.le_of_mem_argmax hmem hbest
    exact ⟨e', rfl, hin, hapex.of_length_le hholds hle⟩

/-! Answers from a zone and its history. -/

/-- The serial a transfer compares the requested one with. -/
def Zone.currentSerial (z : Zone) : UInt32 := z.serial.getD 0

/-- The whole zone: its SOA, the other records in the order of some hash map, and the SOA again. -/
def FullZone (z : Zone) (rs : List Record) : Prop :=
  ∃ ho soa body, z.apexSoa = some soa ∧ rs = soa :: body ++ [soa] ∧ body.Perm (diffRecords ho z)

/-- The differences are a stretch of the history without a break, from one serial to the other. -/
def IsChain (queue : List ZoneDelta) (first last : UInt32) (ds : List ZoneDelta) : Prop :=
  ds <:+: queue ∧ Contiguous first ds last

/-- The records answer a request for the zone: incrementally when its history holds a chain from the
    requested serial to the current one, with one SOA when they are the same, else in full. -/
structure OwnAnswer (z : Zone) (queue : List ZoneDelta) (qtype : RType) (serial : UInt32) (rs : List Record) : Prop where
  axfr : qtype = .AXFR → FullZone z rs
  current : qtype = .IXFR → serial = z.currentSerial → ∃ soa, z.apexSoa = some soa ∧ rs = [soa]
  incremental : qtype = .IXFR → serial ≠ z.currentSerial → (∃ ds, IsChain queue serial z.currentSerial ds) →
    ∃ soa ds, z.apexSoa = some soa ∧ IsChain queue serial z.currentSerial ds ∧ rs = ixfrRecords soa ds
  full : qtype = .IXFR → serial ≠ z.currentSerial → (¬ ∃ ds, IsChain queue serial z.currentSerial ds) → FullZone z rs

/-- In the differences filed under the asked name, the run from the earliest one at the serial on
    reaches the current serial without a break exactly when the zone's own history holds a chain,
    and is one. -/
def FiledAlike (filed own : List ZoneDelta) (serial current : UInt32) : Prop :=
  if Contiguous serial (runFrom serial filed) current then runFrom serial filed <:+: own
  else ¬ ∃ ds, IsChain own serial current ds

theorem apexSoa_of_fullZone {z : Zone} {rs : List Record} (h : FullZone z rs) : ∃ soa, z.apexSoa = some soa := by
  obtain ⟨_, soa, _, hsoa, _, _⟩ := h
  exact ⟨soa, hsoa⟩

/-- Only a zone with an SOA is answered from. -/
theorem OwnAnswer.apexSoa {z : Zone} {queue : List ZoneDelta} {qtype : RType} {serial : UInt32} {rs : List Record}
    (h : OwnAnswer z queue qtype serial rs) (hqtype : qtype = .AXFR ∨ qtype = .IXFR) : ∃ soa, z.apexSoa = some soa := by
  rcases hqtype with hq | hq
  · exact apexSoa_of_fullZone (h.axfr hq)
  · by_cases hserial : serial = z.currentSerial
    · obtain ⟨soa, hsoa, -⟩ := h.current hq hserial
      exact ⟨soa, hsoa⟩
    · by_cases hchain : ∃ ds, IsChain queue serial z.currentSerial ds
      · obtain ⟨soa, _, hsoa, -, -⟩ := h.incremental hq hserial hchain
        exact ⟨soa, hsoa⟩
      · exact apexSoa_of_fullZone (h.full hq hserial hchain)

theorem ixfrRecords_eq (soa : Record) (ds : List ZoneDelta) :
    ixfrRecords soa ds = soa :: ds.flatMap ZoneDelta.records ++ [soa] := rfl

/-- A full answer is not an incremental one: behind the first SOA it goes on without another. -/
theorem FullZone.ne_ixfrRecords {z : Zone} {rs : List Record} (h : FullZone z rs) {soa : Record} {d : ZoneDelta}
    {ds : List ZoneDelta} (hd : d.Formed) : rs ≠ ixfrRecords soa (d :: ds) := by
  rintro rfl
  obtain ⟨ho, soa', body, -, heq, hbody⟩ := h
  rw [ixfrRecords_eq, List.cons_append, List.cons_append, List.flatMap_cons, ZoneDelta.records] at heq
  obtain ⟨rfl, heq⟩ := List.cons.inj heq
  obtain rfl := List.append_cancel_right heq
  exact (mem_diffRecords.mp (hbody.subset List.mem_cons_self)).2 hd.fromSoa

theorem Contiguous.exists_cons {first last : UInt32} {ds : List ZoneDelta} (h : Contiguous first ds last)
    (hne : first ≠ last) :
    ∃ d rest, ds = d :: rest := by
  cases ds with
  | nil => exact absurd h hne
  | cons d rest => exact ⟨d, rest, rfl⟩

section
variable {z : Zone} {queue run : List ZoneDelta} {serial : UInt32} {soa : Record} {rs : List Record}
  (hserial : serial ≠ z.currentSerial) (hformed : ∀ d ∈ queue, d.Formed)
include hserial hformed

/-- A full answer is due when the history holds no chain. -/
theorem ownAnswer_full_iff (hfull : FullZone z rs) :
    OwnAnswer z queue .IXFR serial rs ↔ ¬ ∃ ds, IsChain queue serial z.currentSerial ds := by
  constructor
  · intro h hchain
    obtain ⟨soa, ds, -, ⟨hin, hlinked⟩, rfl⟩ := h.incremental rfl hserial hchain
    obtain ⟨d, rest, rfl⟩ := hlinked.exists_cons hserial
    exact hfull.ne_ixfrRecords (hformed d (hin.subset List.mem_cons_self)) rfl
  · intro hnone
    exact ⟨fun haxfr => (nomatch haxfr), fun _ heq => absurd heq hserial, fun _ _ hchain => absurd hchain hnone,
      fun _ _ _ => hfull⟩

/-- An incremental answer is due when the chain is one of the history. -/
theorem ownAnswer_incremental_iff (hsoa : z.apexSoa = some soa) (hrun : ∀ d ∈ run, d.Formed)
    (hlinked : Contiguous serial run z.currentSerial) :
    OwnAnswer z queue .IXFR serial (ixfrRecords soa run) ↔ run <:+: queue := by
  constructor
  · intro h
    by_cases hchain : ∃ ds, IsChain queue serial z.currentSerial ds
    · obtain ⟨soa', ds, hsoa', ⟨hin, -⟩, heq⟩ := h.incremental rfl hserial hchain
      obtain rfl : soa = soa' := Option.some.inj (hsoa.symm.trans hsoa')
      have hsame : run.flatMap ZoneDelta.records = ds.flatMap ZoneDelta.records := by
        rw [ixfrRecords_eq, ixfrRecords_eq] at heq
        exact (List.cons.inj (List.append_cancel_right heq)).2
      rw [records_injective hrun (fun d hd => hformed d (hin.subset hd)) hsame]
      exact hin
    · obtain ⟨d, rest, rfl⟩ := hlinked.exists_cons hserial
      exact absurd rfl ((h.full rfl hserial hchain).ne_ixfrRecords (hrun d List.mem_cons_self))
  · intro hin
    exact ⟨fun haxfr => (nomatch haxfr), fun _ heq => absurd heq hserial,
      fun _ _ _ => ⟨soa, run, hsoa, ⟨hin, hlinked⟩, rfl⟩, fun _ _ hnone => absurd ⟨run, hin, hlinked⟩ hnone⟩

end

section
variable {σ : Type} {v : Serving σ} {pkt : Packet} {q : Question} {zone : Zone} {soa : Record}

theorem fullZone_axfrStream (hsoa : zone.apexSoa = some soa) :
    FullZone zone (sentRecords (axfrStream v.handler.hashOrder pkt zone)) :=
  ⟨v.handler.hashOrder, soa, axfrBody v.handler.hashOrder zone, hsoa, sentRecords_axfrStream hsoa, List.mergeSort_perm _ _⟩

/-- What is sent for an IXFR request. -/
theorem sentRecords_ixfr (hsoa : zone.apexSoa = some soa) (hq : q.qtype = .IXFR) :
    sentRecords (transferStream v pkt q zone) =
      if requesterSerial pkt = zone.currentSerial then [soa]
      else if Contiguous (requesterSerial pkt) (runFrom (requesterSerial pkt) (v.manager.queue q.name))
        zone.currentSerial then
        ixfrRecords soa (runFrom (requesterSerial pkt) (v.manager.queue q.name))
      else sentRecords (axfrStream v.handler.hashOrder pkt zone) := by
  have hserial : (extractSerial soa.rdata).getD 0 = zone.currentSerial := by
    rw [Zone.currentSerial, Zone.serial, hsoa]
    rfl
  have hstream : transferStream v pkt q zone = ixfrStream v.handler.hashOrder pkt zone (requesterSerial pkt)
      (v.manager.ixfrChain q.name (requesterSerial pkt)) := if_neg (by rw [hq]; decide)
  rw [hstream, ixfrStream, show zone.soa.bind List.head? = some soa from hsoa]
  dsimp only
  rw [hserial]
  by_cases hcurrent : requesterSerial pkt = zone.currentSerial
  · rw [if_pos hcurrent.symm, if_pos hcurrent]
    exact sentRecords_messages pkt [[soa]]
  · rw [if_neg (Ne.symm hcurrent), if_neg hcurrent]
    by_cases hlinked : Contiguous (requesterSerial pkt) (runFrom (requesterSerial pkt) (v.manager.queue q.name))
        zone.currentSerial
    · have hne : runFrom (requesterSerial pkt) (v.manager.queue q.name) ≠ [] := fun hnil => by
        rw [hnil] at hlinked
        exact hcurrent hlinked
      have hchain := ZoneManager.ixfrChain_iff.mpr ⟨rfl, hne, _, hlinked⟩
      rw [hchain, if_pos hlinked]
      dsimp only
      rw [if_pos (hlinked.getLast? hne), sentRecords_messages, chunks_flatten (by decide) (Nat.le_refl _)]
    · rw [if_neg hlinked]
      cases hchain : v.manager.ixfrChain q.name (requesterSerial pkt) with
      | none => rfl
      | some ds =>
        dsimp only
        rw [if_neg fun hlast => ?_]
        obtain ⟨rfl, hne, last, hrun⟩ := ZoneManager.ixfrChain_iff.mp hchain
        obtain rfl : last = zone.currentSerial := Option.some.inj ((hrun.getLast? hne).symm.trans hlast)
        exact hlinked hrun

/-- A zone is answered from its own history when it has an SOA and what is filed under the asked name is alike. -/
theorem ownAnswer_iff (hformed : v.manager.Formed) {own : Text} (hqtype : q.qtype = .AXFR ∨ q.qtype = .IXFR) :
    OwnAnswer zone (v.manager.queue own) q.qtype (requesterSerial pkt) (sentRecords (transferStream v pkt q zone)) ↔
      zone.apexSoa ≠ none ∧ (q.qtype = .IXFR → requesterSerial pkt ≠ zone.currentSerial →
        FiledAlike (v.manager.queue q.name) (v.manager.queue own) (requesterSerial pkt) zone.currentSerial) := by
  cases hsoa : zone.apexSoa with
  | none =>
    refine ⟨fun h => ?_, fun h => absurd rfl h.1⟩
    obtain ⟨soa, hsome⟩ := h.apexSoa hqtype
    rw [hsoa] at hsome
    cases hsome
  | some soa =>
    have hfull : FullZone zone (sentRecords (axfrStream v.handler.hashOrder pkt zone)) := fullZone_axfrStream hsoa
    rcases hqtype with hq | hq
    · have hnot : q.qtype ≠ .IXFR := by rw [hq]; decide
      have hstream : transferStream v pkt q zone = axfrStream v.handler.hashOrder pkt zone := if_pos hq
      rw [hstream]
      exact ⟨fun _ => ⟨Option.some_ne_none _, fun hixfr => absurd hixfr hnot⟩, fun _ =>
        ⟨fun _ => hfull, fun hixfr => absurd hixfr hnot, fun hixfr => absurd hixfr hnot, fun hixfr => absurd hixfr hnot⟩⟩
    · rw [hq, sentRecords_ixfr hsoa hq]
      by_cases hserial : requesterSerial pkt = zone.currentSerial
      · rw [if_pos hserial]
        exact ⟨fun _ => ⟨Option.some_ne_none _, fun _ hne => absurd hserial hne⟩, fun _ =>
          ⟨fun haxfr => (nomatch haxfr), fun _ _ => ⟨soa, hsoa, rfl⟩, fun _ hne => absurd hserial hne,
            fun _ hne => absurd hserial hne⟩⟩
      · have hown : ∀ d ∈ v.manager.queue own, d.Formed := fun d hd => hformed.history own d hd
        have hall : ∀ {p : Prop}, some soa ≠ none ∧
            (RType.IXFR = .IXFR → requesterSerial pkt ≠ zone.currentSerial → p) ↔ p :=
          ⟨fun h => h.2 rfl hserial, fun h => ⟨Option.some_ne_none _, fun _ _ => h⟩⟩
        rw [if_neg hserial, hall, FiledAlike]
        split
        · next hlinked =>
          refine ownAnswer_incremental_iff hserial hown hsoa (fun d hd => ?_) hlinked
          exact hformed.history q.name d ((runFrom_suffix _ _).subset hd)
        · exact ownAnswer_full_iff hserial hown hfull

end

/-! The two paths. -/

section
variable {σ : Type} (v : Serving σ) (es : List ZoneEntry) (data : Bytes) (pkt : Packet) (q : Question) (e : ZoneEntry)

/-- The transfer sends the zone of the entry, from the history of the file it is loaded from. -/
structure ServesOwn : Prop where
  zone : transferEntry es q.name = some e
  sends : ∃ packets, zoneTransfer v data = some (.stream packets) ∧
    OwnAnswer e.2 (v.manager.queue e.1) q.qtype (requesterSerial pkt) (sentRecords packets)

/-- No zone listed before it holds the name, it has an SOA, and for an incremental transfer the history filed
    under the asked name is like its own. -/
structure Agreeing : Prop where
  foremost : ∃ before after, es = before ++ e :: after ∧ ∀ e' ∈ before, e'.2.isAuthoritativeFor q.name = false
  soa : e.2.apexSoa ≠ none
  history : q.qtype = .IXFR → requesterSerial pkt ≠ e.2.currentSerial →
    FiledAlike (v.manager.queue q.name) (v.manager.queue e.1) (requesterSerial pkt) e.2.currentSerial

variable {v es data pkt q e} in
/-- What is sent for an entry that is found. -/
theorem zoneTransfer_of_entry (hlists : Lists v es) (hparse : parsePacket data = .ok pkt)
    (hq : pkt.questions.head? = some q) (hqtype : q.qtype = .AXFR ∨ q.qtype = .IXFR) (hverified : ¬ Unverified v data)
    (hzone : transferEntry es q.name = some e) :
    zoneTransfer v data = some (.stream (transferStream v pkt q e.2)) := by
  rw [zoneTransfer_of_verified v hparse hq hqtype hverified, hlists.zones, transferZone_eq, hzone]
  rfl

end

/-- **When a transfer serves the zone that queries are answered from.** A request for the apex of a loaded zone that is not
    refused gets the records of the zone that `handle_query` answers from, incrementally exactly when this zone's
    own history holds a chain, if and only if the two are `Agreeing`. -/
theorem serves_own_iff {σ : Type} (v : Serving σ) (ops : List ManagerOp) (es : List ZoneEntry) (data : Bytes)
    (pkt : Packet)
    (q : Question) (hrun : v.manager = ops.foldl ManagerOp.run .new) (hlists : Lists v es)
    (hparse : parsePacket data = .ok pkt) (hq : pkt.questions.head? = some q) (hqtype : q.qtype = .AXFR ∨ q.qtype = .IXFR)
    (hverified : ¬ Unverified v data) (hapex : ∃ e ∈ es, IsApex e.2 q.name) :
    ∃ e ∈ es, IsApex e.2 q.name ∧ answeringEntry es q.name = some e ∧ authoritativeZone v.zones q.name = some e.2 ∧
      (ServesOwn v es data pkt q e ↔ Agreeing v es pkt q e) := by
  obtain ⟨e₀, he₀, hapex⟩ := hapex
  obtain ⟨e, hbest, he, hapex⟩ := answeringEntry_of_apex he₀ hapex
  have hformed : v.manager.Formed := hrun ▸ formed_of_run ops
  have hanswer : OwnAnswer e.2 (v.manager.queue e.1) q.qtype (requesterSerial pkt)
      (sentRecords (transferStream v pkt q e.2)) ↔
      e.2.apexSoa ≠ none ∧ (q.qtype = .IXFR → requesterSerial pkt ≠ e.2.currentSerial →
        FiledAlike (v.manager.queue q.name) (v.manager.queue e.1) (requesterSerial pkt) e.2.currentSerial) :=
    ownAnswer_iff hformed hqtype
  refine ⟨e, he, hapex, hbest, by rw [hlists.zones, authoritativeZone_eq, hbest]; rfl, fun h => ?_, fun h => ?_⟩
  · obtain ⟨packets, hsent, howned⟩ := h.sends
    rw [zoneTransfer_of_entry hlists hparse hq hqtype hverified h.zone] at hsent
    cases hsent
    obtain ⟨-, before, after, hsplit, hbefore⟩ := List.find?_eq_some_iff_append.mp h.zone
    obtain ⟨hsoa, hhistory⟩ := hanswer.mp howned
    exact ⟨⟨before, after, hsplit, fun e' he' => by simpa [ZoneEntry.Holds] using hbefore e' he'⟩,
      hsoa, hhistory⟩
  · obtain ⟨before, after, hsplit, hbefore⟩ := h.foremost
    have hfirst : transferEntry es q.name = some e :=
      List.find?_eq_some_iff_append.mpr ⟨hapex.holds, before, after, hsplit, fun e' he' => by
        simpa [ZoneEntry.Holds] using hbefore e' he'⟩
    exact ⟨hfirst, transferStream v pkt q e.2, zoneTransfer_of_entry hlists hparse hq hqtype hverified hfirst,
      hanswer.mpr ⟨h.soa, h.history⟩⟩

/-! Three servers. -/

/-- A server without keys, with the zones it has loaded in one order. -/
def loadedServing (ops : List ManagerOp) (es : List ZoneEntry) : Serving Unit where
  handler := { plainHandler with tsigKeys := .new }
  zones := es.map Prod.snd
  manager := ops.foldl ManagerOp.run .new
  cache := .new
  upstream := ()
  clocks := noClocks
  signTimes := fun _ => 0
  peer := .V4 0
  admitted := true

/-- The newest zone first. -/
def loadedEntries (ops : List ManagerOp) : List ZoneEntry :=
  (ops.foldl ManagerOp.run .new).zones.entries.map fun e => (e.1, e.2)

/-- An IXFR request for `x` from serial 1. -/
def ixfrRequest : Bytes :=
  [0, 7, 0, 0, 0, 1, 0, 0, 0, 1, 0, 0, 1, 0x78, 0, 0, 251, 0, 1, 1, 0x78, 0, 0, 6, 0, 1, 0, 0, 0, 0, 0, 22, 0, 0,
    0, 0, 0, 1, 0, 0, 0, 0, 0, 0, 0, 0, 0, 0, 0, 0, 0, 0, 0, 0]

def ixfrQuestion : Question := ⟨['x'], .IXFR, CLASS_IN⟩

theorem ixfrRequest_parses : ∃ pkt, parsePacket ixfrRequest = .ok pkt ∧ pkt.questions.head? = some ixfrQuestion ∧
    requesterSerial pkt = 1 := ⟨_, rfl, rfl, by decide⟩

theorem not_unverified_loaded (ops : List ManagerOp) (es : List ZoneEntry) (data : Bytes) :
    ¬ Unverified (loadedServing ops es) data := fun h =>
  absurd (show TsigKeyring.new.isEmpty = false from h.1) (by decide)

def movedOps : List ManagerOp := [loadOf hourFile, loadOf movedFile]

theorem lists_loaded (ops : List ManagerOp) {es : List ZoneEntry} (h : es.Perm (loadedEntries ops)) :
    Lists (loadedServing ops es) es := ⟨h, rfl⟩

/-- The history has what the run of it needs. -/
theorem filedAlike_self {queue : List ZoneDelta} {serial current : UInt32}
    (h : Contiguous serial (runFrom serial queue) current) :
    FiledAlike queue queue serial current := by
  rw [FiledAlike, if_pos h]
  exact (runFrom_suffix _ _).isInfix

theorem moved_entries : (loadedEntries movedOps).length = 1 ∧
    (∀ e ∈ loadedEntries movedOps, e.1 = ['x'] ∧ e.2.apexSoa.isSome = true ∧ e.2.currentSerial = 2) ∧
    Contiguous 1 (runFrom 1 ((loadedServing movedOps (loadedEntries movedOps)).manager.queue ['x'])) 2 := by
  decide

/-- A zone that is filed under its own name: its two loads are sent as one difference. -/
theorem serves_own_moved : ∃ pkt, parsePacket ixfrRequest = .ok pkt ∧ ∃ e ∈ loadedEntries movedOps,
    requesterSerial pkt ≠ e.2.currentSerial ∧
      ServesOwn (loadedServing movedOps (loadedEntries movedOps)) (loadedEntries movedOps) ixfrRequest pkt
        ixfrQuestion e := by
  obtain ⟨pkt, hparse, hq, hserial⟩ := ixfrRequest_parses
  obtain ⟨hone, hall, hlinked⟩ := moved_entries
  obtain ⟨e, he, -, -, -, hiff⟩ := serves_own_iff (loadedServing movedOps (loadedEntries movedOps)) movedOps
    (loadedEntries movedOps) ixfrRequest pkt ixfrQuestion rfl (lists_loaded movedOps (.refl _)) hparse hq (.inr rfl)
    (not_unverified_loaded _ _ _) (by decide)
  obtain ⟨hfile, hsoa, hcurrent⟩ := hall e he
  obtain ⟨e', hentries⟩ := List.length_eq_one_iff.mp hone
  obtain rfl : e = e' := List.mem_singleton.mp (hentries ▸ he)
  refine ⟨pkt, hparse, e, he, by rw [hserial, hcurrent]; decide, hiff.mpr ⟨⟨[], [], hentries, fun _ h => ?_⟩, ?_, ?_⟩⟩
  · exact absurd h List.not_mem_nil
  · exact Option.isSome_iff_ne_none.mp hsoa
  · intro _ _
    rw [hfile, hserial, hcurrent]
    exact filedAlike_self hlinked

/-- A parent and its child, loaded from one file each. -/
def nestedOps : List ManagerOp :=
  [.loadZone (unkeyedEnv hourFile) ['x'] ['f'], .loadZone (unkeyedEnv hourFile) ['w', '.', 'x'] ['f']]

/-- An AXFR request for `w.x`. -/
def axfrRequestWX : Bytes := [0, 7, 0, 0, 0, 1, 0, 0, 0, 0, 0, 0, 1, 0x77, 1, 0x78, 0, 0, 252, 0, 1]

def axfrQuestionWX : Question := ⟨['w', '.', 'x'], .AXFR, CLASS_IN⟩

def namedFile (content : Text) : Text := "$ORIGIN x.\n".toList ++ content

/-- A zone loaded twice, from a file that is not named after it. -/
def renamedOps : List ManagerOp := [.loadZone (unkeyedEnv (namedFile hourFile)) ['d'] ['f'],
  .loadZone (unkeyedEnv (namedFile movedFile)) ['d'] ['f']]

/-- The entry that is answered from is not the first one of the parent and its child. -/
theorem nested_entries : (answeringEntry (loadedEntries nestedOps).reverse ['w', '.', 'x']).map Prod.fst =
    some ['w', '.', 'x'] ∧ (transferEntry (loadedEntries nestedOps).reverse ['w', '.', 'x']).map Prod.fst = some ['x'] ∧
    ∀ e ∈ (answeringEntry (loadedEntries nestedOps).reverse ['w', '.', 'x']).toList, IsApex e.2 ['w', '.', 'x'] := by
  decide

/-- The history is filed under the file's name. -/
theorem renamed_history : (∀ e ∈ loadedEntries renamedOps, e.1 = ['d'] ∧ e.2.currentSerial = 2) ∧
    Contiguous 1 ((renamedOps.foldl ManagerOp.run .new).queue ['d']) 2 ∧
    ¬ Contiguous 1 (runFrom 1 ((renamedOps.foldl ManagerOp.run .new).queue ['x'])) 2 ∧
    ∃ e ∈ loadedEntries renamedOps, IsApex e.2 ['x'] := by
  decide

/-- With the parent listed first the child's transfer is the parent's zone; with the history filed under
    another name an IXFR request is answered in full, though the history has the difference. -/
theorem transfers_disagree :
    (Lists (loadedServing nestedOps (loadedEntries nestedOps).reverse) (loadedEntries nestedOps).reverse ∧
      ∃ pkt e, parsePacket axfrRequestWX = .ok pkt ∧ pkt.questions.head? = some axfrQuestionWX ∧
        answeringEntry (loadedEntries nestedOps).reverse ['w', '.', 'x'] = some e ∧ IsApex e.2 ['w', '.', 'x'] ∧
        ¬ ServesOwn (loadedServing nestedOps (loadedEntries nestedOps).reverse) (loadedEntries nestedOps).reverse
          axfrRequestWX pkt axfrQuestionWX e) ∧
    (Lists (loadedServing renamedOps (loadedEntries renamedOps)) (loadedEntries renamedOps) ∧
      ∃ pkt e, parsePacket ixfrRequest = .ok pkt ∧ answeringEntry (loadedEntries renamedOps) ['x'] = some e ∧
        IsApex e.2 ['x'] ∧
        ¬ ServesOwn (loadedServing renamedOps (loadedEntries renamedOps)) (loadedEntries renamedOps) ixfrRequest pkt
          ixfrQuestion e) := by
  refine ⟨⟨lists_loaded nestedOps (List.reverse_perm _), ?_⟩, lists_loaded renamedOps (.refl _), ?_⟩
  · obtain ⟨hanswering, htransfer, hapex⟩ := nested_entries
    obtain ⟨e, he, hfile⟩ := Option.map_eq_some_iff.mp hanswering
    refine ⟨_, e, rfl, rfl, he, hapex e (by rw [he]; exact List.mem_singleton_self e), fun h => ?_⟩
    have hzone : transferEntry (loadedEntries nestedOps).reverse ['w', '.', 'x'] = some e := h.zone
    rw [hzone, Option.map_some, hfile] at htransfer
    exact absurd htransfer (by decide)
  · obtain ⟨pkt, hparse, hq, hserial⟩ := ixfrRequest_parses
    obtain ⟨hall, hown, hfiled, e₀, he₀, hapex₀⟩ := renamed_history
    obtain ⟨e, hbest, he, hapex⟩ := answeringEntry_of_apex he₀ hapex₀
    refine ⟨pkt, e, hparse, hbest, hapex, fun h => ?_⟩
    obtain ⟨hfile, hcurrent⟩ := hall e he
    obtain ⟨packets, hsent, howned⟩ := h.sends
    rw [zoneTransfer_of_entry (lists_loaded renamedOps (.refl _)) hparse hq (.inr rfl)
      (not_unverified_loaded _ _ _) h.zone]
      at hsent
    cases hsent
    have halike := ((ownAnswer_iff (formed_of_run renamedOps) (.inr rfl)).mp howned).2 rfl
      (by rw [hserial, hcurrent]; decide)
    rw [hfile, hserial, hcurrent] at halike
    have hnone : ¬ ∃ ds, IsChain ((renamedOps.foldl ManagerOp.run .new).queue ['d']) 1 2 ds := (if_neg hfiled).mp halike
    exact hnone ⟨_, List.infix_refl _, hown⟩

end Ironbind
