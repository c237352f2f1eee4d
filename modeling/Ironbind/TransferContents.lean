import Ironbind.DeltaChains
import Ironbind.TransferSigning

/- What a transfer is made of. A full transfer sends the whole zone: its SOA, the other
   records in order, each as often as the zone has it, and the SOA again, in messages of
   1 to 64 records (`axfrStream_complete`), which read back from their octets, signed or
   not (`axfrStream_received`). An incremental one needs a chain: a stretch of
   the history, up to its end, that leads on from the client's serial. The search for it
   settles for the earliest difference that starts there, so it finds a chain exactly when
   the history has no gap behind that one (`ixfrChain_serves_iff`); only a zone without a
   serial leaves a gap. -/
namespace Ironbind
open Codec

/-! Full transfers. -/

/-- The records of a zone other than SOA records, each as often as it is stored. -/
def Zone.plainRecords (z : Zone) : Multiset Record :=
  ↑((z.rrsets.entries.flatMap fun e => e.2).filter fun r => r.rtype ≠ .SOA)

/-- By owner, as strings compare, and then by type code. -/
def InOrder (a b : Record) : Prop := utf8 a.name < utf8 b.name ∨ a.name = b.name ∧ a.rtype.toU16 ≤ b.rtype.toU16

/-- The messages send the zone between two of its SOA, in order, 1 to 64 records each, and repeat what was asked. -/
structure SendsZone (req : Packet) (zone : Zone) (soa : Record) (packets : List Packet) : Prop where
  records : ∃ body : List Record, sentRecords packets = soa :: body ++ [soa] ∧ ↑body = zone.plainRecords ∧
    body.Pairwise InOrder
  messages : ∀ p ∈ packets, 1 ≤ p.answers.length ∧ p.answers.length ≤ 64 ∧ p.id = req.id ∧ p.questions = req.questions

theorem axfrOrder_iff {a b : Record} : axfrOrder a b = true ↔ InOrder a b := by
  simp [axfrOrder, InOrder]

theorem inOrder_trans {a b c : Record} (hab : InOrder a b) (hbc : InOrder b c) : InOrder a c := by
  rcases hab with hab | ⟨hname, hab⟩
  · rcases hbc with hbc | ⟨hname, -⟩
    · exact .inl (lt_trans hab hbc)
    · rw [hname] at hab
      exact .inl hab
  · rcases hbc with hbc | ⟨hname', hbc⟩
    · rw [← hname] at hbc
      exact .inl hbc
    · exact .inr ⟨hname.trans hname', UInt16.le_trans hab hbc⟩

theorem inOrder_total (a b : Record) : InOrder a b ∨ InOrder b a := by
  rcases lt_trichotomy (utf8 a.name) (utf8 b.name) with h | h | h
  · exact .inl (.inl h)
  · have hname := utf8_injective h
    rcases UInt16.le_total a.rtype.toU16 b.rtype.toU16 with hle | hle
    · exact .inl (.inr ⟨hname, hle⟩)
    · exact .inr (.inr ⟨hname.symm, hle⟩)
  · exact .inr (.inl h)

/-- The body is in order, whatever order the map is walked in. -/
theorem axfrBody_sorted (ho : HashOrder) (zone : Zone) : (axfrBody ho zone).Pairwise InOrder := by
  have htrans : ∀ a b c : Record, axfrOrder a b → axfrOrder b c → axfrOrder a c := by
    intro a b c hab hbc
    rw [axfrOrder_iff] at *
    exact inOrder_trans hab hbc
  have htotal : ∀ a b : Record, (axfrOrder a b || axfrOrder b a) = true := by
    intro a b
    rw [Bool.or_eq_true, axfrOrder_iff, axfrOrder_iff]
    exact inOrder_total a b
  have hsorted := List.pairwise_mergeSort htrans htotal (diffRecords ho zone)
  exact hsorted.imp fun h => axfrOrder_iff.mp h

/-- ... and has the zone's records, no more and no fewer of each. -/
theorem axfrBody_records (ho : HashOrder) (zone : Zone) : (↑(axfrBody ho zone) : Multiset Record) = zone.plainRecords := by
  apply Multiset.coe_eq_coe.mpr
  have hwalk : (zone.iterRrsets ho).flatten.Perm (zone.rrsets.entries.flatMap fun e => e.2) := by
    rw [Zone.iterRrsets, ← List.flatMap_def]
    exact (ho.perm _).flatMap_right _
  exact (List.mergeSort_perm _ _).trans (hwalk.filter _)

theorem packRecords_length_pos {soa : Record} {m : List Record} : ∀ {body current : List Record},
    1 ≤ current.length → m ∈ packRecords soa current body → 1 ≤ m.length
  | [], current, hc, hm => by
    rw [packRecords] at hm
    split at hm
    · rcases List.mem_cons.mp hm with rfl | hm
      · exact hc
      · rw [List.mem_singleton.mp hm]
        simp
    · rw [List.mem_singleton.mp hm]
      simp
  | rr :: body, current, hc, hm => by
    rw [packRecords] at hm
    split at hm
    · rcases List.mem_cons.mp hm with rfl | hm
      · exact hc
      · -- the record that did not fit starts the next message
        exact packRecords_length_pos (by simp) hm
    · exact packRecords_length_pos (by simp) hm

/-- **A full transfer is complete**, for every zone with a SOA record at its apex. -/
theorem axfrStream_complete (ho : HashOrder) (req : Packet) (zone : Zone) (soa : Record)
    (hsoa : zone.soa.bind List.head? = some soa) : SendsZone req zone soa (axfrStream ho req zone) where
  records := ⟨axfrBody ho zone, sentRecords_axfrStream hsoa, axfrBody_records ho zone, axfrBody_sorted ho zone⟩
  messages := by
    intro p hp
    rw [axfrStream, hsoa] at hp
    obtain ⟨m, hm, rfl⟩ := List.mem_map.mp hp
    have hpos : 1 ≤ m.length := packRecords_length_pos (by simp) hm
    have hle : m.length ≤ MAX_RRS_PER_MSG := packRecords_length_le (singleton_length_le soa) hm
    exact ⟨hpos, hle, rfl, rfl⟩

/-- A zone that takes two messages. -/
theorem wideZone_sent : SendsZone (Packet.newResponse 7 0) wideZone xSoa
      (axfrStream plainHandler.hashOrder (Packet.newResponse 7 0) wideZone) ∧
    (axfrStream plainHandler.hashOrder (Packet.newResponse 7 0) wideZone).length = 2 :=
  ⟨axfrStream_complete _ _ _ _ wideZone_soa, wideZone_length _⟩

/-! Full transfers on the wire. -/

section
variable {ho : HashOrder} {req : Packet} {zone : Zone} {soa : Record}

/-- Changes to the messages that leave their answers, IDs and questions leave what is sent. -/
theorem SendsZone.map {packets : List Packet} (h : SendsZone req zone soa packets) (f : Packet × Nat → Packet)
    (hf : ∀ e, (f e).answers = e.1.answers ∧ (f e).id = e.1.id ∧ (f e).questions = e.1.questions) :
    SendsZone req zone soa (packets.zipIdx.map f) where
  records := by
    have hsent : sentRecords (packets.zipIdx.map f) = sentRecords packets := by
      rw [sentRecords, List.flatMap_map]
      calc packets.zipIdx.flatMap (fun e => (f e).answers)
          = packets.zipIdx.flatMap (fun e => e.1.answers) := List.flatMap_congr fun e _ => (hf e).1
        _ = (packets.zipIdx.map fun e => e.1).flatMap (fun p => p.answers) := (List.flatMap_map ..).symm
        _ = sentRecords packets := by rw [List.zipIdx_map_fst, sentRecords]
    rw [hsent]
    exact h.records
  messages := by
    intro p hp
    obtain ⟨e, he, rfl⟩ := List.mem_map.mp hp
    have := h.messages e.1 (List.fst_mem_of_mem_zipIdx he)
    rw [(hf e).1, (hf e).2.1, (hf e).2.2]
    exact this

variable (hquestions : ∀ q ∈ req.questions, (∃ n : DomainName, n.Lower ∧ q.name = n.text) ∧ Normalised q.qtype)
  (hcount : req.questions.length < 65536) (hportable : ∀ r, zone.Holds r → Portable r)
include hquestions hcount hportable

/-- A message of the transfer is one the wire format is made for. -/
theorem buildAxfrMsg_expanded {p : Packet} (hp : p ∈ axfrStream ho req zone) : Expanded p ∧
    (∀ r ∈ p.answers ++ p.authority ++ p.additional, r.rdata.length ≤ 65535) ∧ p.additional = [] ∧ p.ednsUdpSize = 0 := by
  obtain ⟨answers, rfl, hlen, hholds⟩ := mem_axfrStream hp
  have hrecords : ∀ r ∈ answers ++ [] ++ [], Portable r := by
    intro r hr
    rw [List.append_nil, List.append_nil] at hr
    exact hportable r (hholds r hr)
  refine ⟨⟨hquestions, fun r hr => ?_, fun _ h => absurd h List.not_mem_nil, hcount, ?_, ?_, ?_, fun _ => rfl⟩,
    fun r hr => (hrecords r hr).announced, rfl, rfl⟩
  · exact ⟨(hrecords r hr).owner, (hrecords r hr).rtype, (hrecords r hr).data⟩
  · exact Nat.lt_of_le_of_lt hlen (by decide)
  · show 0 < 65536
    decide
  · show 0 < 65536
    decide

/-- **A full transfer arrives.** Records the wire can carry are sent in octets that read back, signed or not, as messages
    of the same zone. -/
theorem axfrStream_received (hsoa : zone.soa.bind List.head? = some soa) (hmac : Hmac) (signTimes : Nat → Nat)
    {keyring : TsigKeyring} (hkey : ∀ key, keyring.get TRANSFER_KEY = some key →
      (∃ n : DomainName, n.Lower ∧ key.name = n.text) ∧ (Builder.name key.algorithm).length ≤ 65487) :
    ∃ packets, (streamBytes hmac signTimes keyring (axfrStream ho req zone)).map parsePacket = packets.map .ok ∧
      SendsZone req zone soa packets := by
  have hsends := axfrStream_complete ho req zone soa hsoa
  have hplain : ∀ p ∈ axfrStream ho req zone, serialize p false = serialize p true := by
    intro p hp
    rw [serialize, serialize, (buildAxfrMsg_expanded hquestions hcount hportable hp).2.2.2]
    rfl
  unfold streamBytes
  cases hget : keyring.get TRANSFER_KEY with
  | none =>
    refine ⟨_, ?_, hsends⟩
    rw [List.map_map]
    refine List.map_congr_left fun p hp => ?_
    obtain ⟨hexpanded, hlen, -⟩ := buildAxfrMsg_expanded hquestions hcount hportable hp
    rw [Function.comp_apply, hplain p hp]
    exact parse_serialize p hexpanded hlen
  | some key =>
    obtain ⟨⟨n, hlower, hname⟩, halg⟩ := hkey key hget
    refine ⟨_, ?_, hsends.map (fun e => signedPacket hmac (signTimes e.2) e.1 key) fun e => ⟨rfl, rfl, rfl⟩⟩
    simp only [List.map_map]
    refine List.map_congr_left fun e he => ?_
    have hp := List.fst_mem_of_mem_zipIdx he
    obtain ⟨hexpanded, hlen, hnone, hedns⟩ := buildAxfrMsg_expanded hquestions hcount hportable hp
    simp only [Function.comp_apply]
    rw [hplain e.1 hp]
    exact parse_signMessage hmac _ hexpanded hlen hedns (by rw [hnone]; decide) hname hlower halg

end

theorem wideZone_portable : ∀ r, wideZone.Holds r → Portable r := by
  intro r hr
  have hroot : DomainName.Lower ⟨[], fun _ h => absurd h List.not_mem_nil⟩ := rfl
  rcases holds_wideZone hr with rfl | ⟨i, rfl⟩
  · exact ⟨⟨nameX, by unfold DomainName.Lower nameX; decide, rfl⟩, rfl,
      ⟨_, _, 1, 2, 3, 4, 5, hroot, hroot, rfl⟩, by decide⟩
  · exact ⟨⟨nameWX, by unfold DomainName.Lower nameWX; decide, rfl⟩, rfl, Nat.le_of_ble_eq_true rfl,
      Nat.le_of_ble_eq_true rfl⟩

/-- The octets of the two messages, signed with the transfer key. -/
theorem wideZone_received : ∃ packets, (streamBytes prefixHmac (fun _ => 1000) (TsigKeyring.new.insert transferKey)
      (axfrStream plainHandler.hashOrder axfrQuery wideZone)).map parsePacket = packets.map .ok ∧
    SendsZone axfrQuery wideZone xSoa packets := by
  refine axfrStream_received axfrQuery_expanded.questions axfrQuery_expanded.question_count wideZone_portable
    wideZone_soa _ _ fun key hkey => ?_
  have hget : (TsigKeyring.new.insert transferKey).get TRANSFER_KEY = some transferKey :=
    TsigKeyring.get_insert _ transferKey
  obtain rfl := Option.some.inj (hget.symm.trans hkey)
  exact ⟨⟨transferName, by unfold DomainName.Lower transferName; decide, rfl⟩, by decide⟩

/-! Chains of the history. -/

/-- A stretch of the history, up to its end, whose differences follow one another from a serial on. -/
def Leads (queue : List ZoneDelta) (serial : UInt32) (ds : List ZoneDelta) : Prop :=
  ds <:+ queue ∧ ds ≠ [] ∧ ∃ last, Contiguous serial ds last

/-- A chain is found exactly when there is one, what is found is one, and the history is no longer than it may be. -/
structure ServesChain (m : ZoneManager) (origin : Text) (serial : UInt32) : Prop where
  found : (m.ixfrChain origin serial).isSome ↔ ∃ ds, Leads (m.queue origin) serial ds
  chain : ∀ ds, m.ixfrChain origin serial = some ds → Leads (m.queue origin) serial ds
  bounded : (m.queue origin).length ≤ m.historyCap

/-- Where some difference leads on from the serial, the earliest that starts there does. -/
def EarliestLeads (queue : List ZoneDelta) (serial : UInt32) : Prop :=
  (∃ ds, Leads queue serial ds) → ∃ last, Contiguous serial (runFrom serial queue) last

section
variable {queue ds : List ZoneDelta} {serial first last : UInt32} {d : ZoneDelta}

/-- A stretch that starts at the serial starts no earlier than the first difference that does. -/
theorem Leads.runFrom_ne_nil (h : Leads queue serial ds) : runFrom serial queue ≠ [] := by
  obtain ⟨hsuffix, hne, last, hlinked⟩ := h
  obtain ⟨d, rest, rfl⟩ := List.exists_cons_of_ne_nil hne
  intro hnil
  rw [runFrom, List.dropWhile_eq_nil_iff] at hnil
  have hnot := hnil d (hsuffix.subset List.mem_cons_self)
  simp [hlinked.1] at hnot

theorem Contiguous.concat : ∀ {queue : List ZoneDelta} {first : UInt32}, Contiguous first queue d.fromSerial →
    Contiguous first (queue ++ [d]) d.toSerial
  | [], _, h => ⟨h.symm, rfl⟩
  | _ :: _, _, h => ⟨h.1, Contiguous.concat h.2⟩

theorem Contiguous.suffix : ∀ {queue : List ZoneDelta} {first : UInt32}, Contiguous first queue last → ds <:+ queue →
    ∃ mid, Contiguous mid ds last
  | [], first, h, hs => ⟨first, by rw [List.suffix_nil.mp hs]; exact h⟩
  | d :: queue, first, h, hs => by
    rcases List.suffix_cons_iff.mp hs with rfl | hs
    · exact ⟨first, h⟩
    · exact Contiguous.suffix h.2 hs

theorem pushDelta_length_le (cap : Nat) (queue : List ZoneDelta) (d : ZoneDelta) :
    (ZoneManager.pushDelta cap queue d).length ≤ cap := by
  rw [ZoneManager.pushDelta, List.length_drop]
  omega

end

/-- The history of every origin within its cap. -/
def ZoneManager.Capped (m : ZoneManager) : Prop := ∀ origin, (m.queue origin).length ≤ m.historyCap

theorem ZoneManager.Capped.install {m : ZoneManager} (h : m.Capped) (env : LoadEnv) (origin path : Text) (z : Zone) :
    (ZoneManager.install env origin path m z).Capped := by
  intro origin'
  show _ ≤ m.historyCap
  by_cases ho : origin = origin'
  · subst ho
    cases hrec : recordedDelta env m origin z with
    | none => rw [queue_install_none hrec]; exact h origin
    | some d => rw [queue_install_some hrec]; exact pushDelta_length_le _ _ d
  · rw [(install_other ho).2]
    exact h origin'

theorem capped_of_run (ops : List ManagerOp) : (ops.foldl ManagerOp.run .new).Capped := by
  rw [ManagerOp.runs_eq]
  refine List.foldlRecOn _ _ (fun _ => Nat.zero_le _) fun m hm l _ => ?_
  rw [ZoneManager.attempt]
  cases l.read with
  | error e => exact hm
  | ok z => exact hm.install l.1 l.2.1 l.2.2 z

/-- Where a chain starts anywhere, the one found is the history from the earliest difference on. -/
theorem serves_iff {m : ZoneManager} {origin : Text} {serial : UInt32} (hcap : m.Capped) :
    ServesChain m origin serial ↔ EarliestLeads (m.queue origin) serial := by
  constructor
  · intro h hleads
    obtain ⟨ds, hds⟩ := Option.isSome_iff_exists.mp (h.found.mpr hleads)
    obtain ⟨rfl, -, hlinked⟩ := ZoneManager.ixfrChain_iff.mp hds
    exact hlinked
  · intro h
    have hchain : ∀ ds, m.ixfrChain origin serial = some ds → Leads (m.queue origin) serial ds := by
      intro ds hds
      obtain ⟨rfl, hne, hlinked⟩ := ZoneManager.ixfrChain_iff.mp hds
      exact ⟨runFrom_suffix serial _, hne, hlinked⟩
    refine ⟨⟨fun hsome => ?_, fun hleads => ?_⟩, hchain, hcap origin⟩
    · obtain ⟨ds, hds⟩ := Option.isSome_iff_exists.mp hsome
      exact ⟨ds, hchain ds hds⟩
    · obtain ⟨ds, hds⟩ := hleads
      have hfound := ZoneManager.ixfrChain_iff.mpr ⟨rfl, hds.runFrom_ne_nil, h ⟨ds, hds⟩⟩
      rw [hfound]
      rfl

/-! Runs without gaps. -/

/-- The history leads to the serial of the zone in place. -/
structure ZoneManager.Linked (m : ZoneManager) (origin : Text) : Prop where
  unloaded : m.getZone origin = none → m.queue origin = []
  current : ∀ z, m.getZone origin = some z → ∃ first last, z.serial = some last ∧ Contiguous first (m.queue origin) last

theorem ZoneManager.Linked.install {m : ZoneManager} {origin : Text} (h : m.Linked origin) (env : LoadEnv) (path : Text)
    {z : Zone} {t : UInt32} (hz : z.serial = some t) : (ZoneManager.install env origin path m z).Linked origin where
  unloaded := fun hnone => by rw [getZone_install] at hnone; cases hnone
  current := fun z' hz' => by
    rw [getZone_install, Option.some.injEq] at hz'
    subst hz'
    cases hrec : recordedDelta env m origin z with
    | some d =>
      obtain ⟨old, hold, hd, hs, -⟩ := recordedDelta_some hrec
      obtain ⟨-, -, -, ht, -, -⟩ := buildDelta_eq_some hd
      obtain ⟨first, last, hlast, hlinked⟩ := h.current old hold
      rw [hlast, Option.some.injEq] at hs
      rw [hs] at hlinked
      -- the difference joins on; what is dropped is dropped from the front
      rw [queue_install_some hrec]
      obtain ⟨mid, hmid⟩ := hlinked.concat.suffix (pushDelta_suffix m.historyCap (m.queue origin) d)
      exact ⟨mid, d.toSerial, ht, hmid⟩
    | none =>
      rw [queue_install_none hrec]
      cases hold : m.getZone origin with
      | none => exact ⟨t, t, hz, by rw [h.unloaded hold]; rfl⟩
      | some old =>
        obtain ⟨first, last, hlast, hlinked⟩ := h.current old hold
        have hsame : last = t := by
          by_contra hne
          exact recordedDelta_none hrec hold ⟨hlast, t, hz, hne⟩
        exact ⟨first, t, hz, hsame ▸ hlinked⟩

/-- Loads whose zones all have a serial leave no gap. -/
theorem linked_of_replay {origin : Text} {ls : List Load} (h : ∀ z ∈ published origin ls, z.serial ≠ none) :
    (ZoneManager.replay ls).Linked origin := by
  induction ls using List.reverseRecOn with
  | nil => exact ⟨fun _ => rfl, fun z hz => by cases hz⟩
  | append_singleton ls l ih =>
    rw [published_concat] at h
    have hbefore := ih fun z hz => h z (List.mem_append_left _ hz)
    rw [ZoneManager.replay, List.foldl_append, List.foldl_cons, List.foldl_nil, ← ZoneManager.replay, ZoneManager.attempt]
    cases hread : l.read with
    | error e => exact hbefore
    | ok z =>
      dsimp only
      by_cases ho : l.2.1 = origin
      · subst ho
        have hserial : z.serial ≠ none := by
          apply h z
          rw [published_read hread]
          exact List.mem_append_right _ (List.mem_singleton_self z)
        obtain ⟨t, ht⟩ := Option.ne_none_iff_exists'.mp hserial
        exact hbefore.install l.1 l.2.2 ht
      · -- another zone's load leaves this queue alone
        obtain ⟨hzone, hqueue⟩ : (ZoneManager.install l.1 l.2.1 l.2.2 (ZoneManager.replay ls) z).getZone origin =
            (ZoneManager.replay ls).getZone origin ∧
              (ZoneManager.install l.1 l.2.1 l.2.2 (ZoneManager.replay ls) z).queue origin =
                (ZoneManager.replay ls).queue origin := ZoneManager.install_other ho
        refine ⟨fun hnone => ?_, fun z' hz' => ?_⟩
        · rw [hqueue]
          exact hbefore.unloaded (hzone ▸ hnone)
        · rw [hqueue]
          exact hbefore.current z' (hzone ▸ hz')

theorem ZoneManager.Linked.earliestLeads {m : ZoneManager} {origin : Text} (h : m.Linked origin) (serial : UInt32) :
    EarliestLeads (m.queue origin) serial := by
  rintro ⟨ds, hds⟩
  obtain ⟨d, rest, hrun⟩ := List.exists_cons_of_ne_nil hds.runFrom_ne_nil
  obtain ⟨first, last, hlinked⟩ : ∃ first last, Contiguous first (m.queue origin) last := by
    cases hzone : m.getZone origin with
    | none => exact ⟨serial, serial, by rw [h.unloaded hzone]; rfl⟩
    | some z =>
      obtain ⟨first, last, -, hlinked⟩ := h.current z hzone
      exact ⟨first, last, hlinked⟩
  obtain ⟨mid, hmid⟩ := hlinked.suffix (runFrom_suffix serial (m.queue origin))
  have hmidSerial : mid = serial := by
    rw [hrun] at hmid
    exact hmid.1.symm.trans (fromSerial_of_runFrom hrun)
  exact ⟨last, hmidSerial ▸ hmid⟩

/-- **When chains are served.** After any run, a serial's chain is found if there is one exactly when the earliest
    difference that starts at the serial leads on to the end, or none does; and a run that loads no zone without a
    serial for the origin serves every chain. -/
theorem ixfrChain_serves_iff (ops : List ManagerOp) (origin : Text) :
    (∀ serial, ServesChain (ops.foldl ManagerOp.run .new) origin serial ↔
      EarliestLeads ((ops.foldl ManagerOp.run .new).queue origin) serial) ∧
    ((∀ z ∈ published origin (ops.flatMap ManagerOp.loads), z.serial ≠ none) →
      ∀ serial, ServesChain (ops.foldl ManagerOp.run .new) origin serial) := by
  have hcap := capped_of_run ops
  refine ⟨fun serial => serves_iff hcap, fun hserials serial => ?_⟩
  apply (serves_iff hcap).mpr
  rw [ManagerOp.runs_eq]
  exact (linked_of_replay hserials).earliestLeads serial

def bareFile : Text := "w 60 A 192.0.2.1
".toList

/-- Serials 1 and 2, a file without a SOA record, and serials 1 and 2 again. -/
def gapRun : List ManagerOp := [hourFile, minuteFile, bareFile, hourFile, minuteFile].map loadOf

/-- The last difference leads from serial 1 to the end, and no chain is found. -/
theorem gapRun_unserved : ¬ ServesChain (gapRun.foldl ManagerOp.run .new) ['x'] 1 := by
  have hserials : ((gapRun.foldl ManagerOp.run .new).queue ['x']).map (fun d => (d.fromSerial, d.toSerial)) =
      [(1, 2), (1, 2)] := by decide
  have hnone : ((gapRun.foldl ManagerOp.run .new).ixfrChain ['x'] 1).isSome = false := by decide
  generalize gapRun.foldl ManagerOp.run .new = m at hserials hnone ⊢
  obtain ⟨a, rest, hqueue, ha, hrest⟩ := List.map_eq_cons_iff.mp hserials
  obtain ⟨b, rest, rfl, hb, hnil⟩ := List.map_eq_cons_iff.mp hrest
  obtain rfl := List.map_eq_nil_iff.mp hnil
  intro h
  have hfrom : b.fromSerial = 1 := congrArg Prod.fst hb
  have hleads : Leads (m.queue ['x']) 1 [b] :=
    ⟨by rw [hqueue]; exact List.suffix_cons a [b], List.cons_ne_nil b [], b.toSerial, hfrom, rfl⟩
  rw [h.found.mpr ⟨[b], hleads⟩] at hnone
  cases hnone

end Ironbind
