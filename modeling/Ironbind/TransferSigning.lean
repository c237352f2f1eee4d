import Ironbind.SignedReplies
import Ironbind.SignedZone

/- The signatures on a zone transfer. Whichever key authenticated the request, its
   messages are signed with the key named `transfer-key.`, or not at all when the
   keyring has none. So a client can verify them under its own key exactly when that
   is the one, and is written in lower case (`transferStream_verifies_iff`). -/
namespace Ironbind
open Codec

/-! Messages of a stream. -/

/-- The questions of a packet that was parsed: counted by 16 bits, with labels the wire carries. -/
theorem parsePacket_questions {data : Bytes} {pkt : Packet} (h : parsePacket data = .ok pkt) :
    pkt.questions.length < 65536 ∧ ∀ q ∈ pkt.questions, ∀ l ∈ labelsOf q.name, WireLabel l := by
  obtain ⟨stop, h⟩ : ∃ stop, Parser.parse data 0 = (.ok pkt, stop) := ⟨_, Prod.ext h rfl⟩
  obtain ⟨_, _, _, h⟩ := Reader.bind_eq_ok h
  obtain ⟨_, _, _, h⟩ := Reader.bind_eq_ok h
  obtain ⟨qdcount, _, _, h⟩ := Reader.bind_eq_ok h
  obtain ⟨_, _, _, h⟩ := Reader.bind_eq_ok h
  obtain ⟨_, _, _, h⟩ := Reader.bind_eq_ok h
  obtain ⟨_, _, _, h⟩ := Reader.bind_eq_ok h
  obtain ⟨questions, _, hquestions, h⟩ := Reader.bind_eq_ok h
  obtain ⟨_, _, _, h⟩ := Reader.bind_eq_ok h
  obtain ⟨_, _, _, h⟩ := Reader.bind_eq_ok h
  obtain ⟨_, _, _, h⟩ := Reader.bind_eq_ok h
  obtain rfl : questions = pkt.questions := by cases h; rfl
  obtain ⟨hlen, hmem⟩ := Reader.times_ok hquestions
  refine ⟨hlen ▸ qdcount.toNat_lt, fun q hq => ?_⟩
  obtain ⟨p, stop, hread⟩ := hmem q hq
  obtain ⟨name, _, hname, hread⟩ := Reader.bind_eq_ok hread
  obtain ⟨_, _, _, hread⟩ := Reader.bind_eq_ok hread
  obtain ⟨_, _, _, hread⟩ := Reader.bind_eq_ok hread
  obtain rfl : name = q.name := by cases hread; rfl
  exact wireLabel_of_name hname

/-- A record the wire format can carry. -/
structure FitRecord (r : Record) : Prop where
  labels : ∀ l ∈ labelsOf r.name, WireLabel l
  rdata : r.rdata.length ≤ 65535

theorem buildAxfrMsg_fit {data : Bytes} {pkt : Packet} {answers : List Record} (h : parsePacket data = .ok pkt)
    (hlen : answers.length ≤ MAX_RRS_PER_MSG) (hfit : ∀ r ∈ answers, FitRecord r) :
    WireFit (buildAxfrMsg pkt answers) false where
  questions := (parsePacket_questions h).2
  records := by
    intro r hr
    have hr : r ∈ answers ++ [] ++ [] := hr
    rw [List.append_nil, List.append_nil] at hr
    exact ⟨(hfit r hr).labels, (hfit r hr).rdata⟩
  question_count := (parsePacket_questions h).1
  answer_count := Nat.lt_of_le_of_lt hlen (by decide)
  authority_count := by show 0 < 65536; decide
  additional_count := by show 0 < 65535; decide

/-- A message without additional records has no TSIG record. -/
theorem extractTsig_unsigned (pkt : Packet) (answers : List Record) (t : ExtractedTsig) :
    extractTsig (serialize (buildAxfrMsg pkt answers) false) ≠ .ok t := by
  intro h
  have hx := extracted_of_extractTsig h
  refine hx.arcount_ne (hx.arcount.trans ?_)
  rw [serialize_eq_header]
  exact (u16At_header _ _ _ _ _ _ _).2.2.2.2

/-! The transfer key. -/

theorem canonical_transferKey : canonical TRANSFER_KEY = TRANSFER_KEY := by decide

/-- The name of the transfer key in lower case, with its dot or without. -/
theorem eq_transferKey_iff (name : Text) : (name = "transfer-key".toList ∨ name = "transfer-key.".toList) ↔
    canonical name = TRANSFER_KEY ∧ toAsciiLowercase name = name := by
  constructor
  · rintro (rfl | rfl) <;> decide
  · rintro ⟨hc, hl⟩
    rw [canonical, hl] at hc
    split at hc
    · exact .inr hc
    · exact .inl (List.append_cancel_right (hc : name ++ ['.'] = "transfer-key".toList ++ ['.']))

theorem labels_of_canonical {name : Text} (h : canonical name = TRANSFER_KEY) :
    (labelsOf name).map toAsciiLowercase = ["transfer-key".toList] := by
  have hlabels : labelsOf (canonical name) = (labelsOf name).map toAsciiLowercase := by
    rw [canonical]
    split
    · exact labelsOf_lower name
    · rw [labelsOf_append_dot, labelsOf_lower]; simp
  rw [← hlabels, h]
  decide

theorem wireLabel_of_canonical {name : Text} (h : canonical name = TRANSFER_KEY) : ∀ l ∈ labelsOf name, WireLabel l := by
  intro l hl
  have hlow : toAsciiLowercase l ∈ (labelsOf name).map toAsciiLowercase := List.mem_map_of_mem hl
  rw [labels_of_canonical h, List.mem_singleton] at hlow
  rw [WireLabel, ← utf8_length_lower, hlow]
  decide

theorem readName_of_canonical {name : Text} (h : canonical name = TRANSFER_KEY) :
    readName name = "transfer-key".toList := by
  rw [readName, labels_of_canonical h]
  decide

/-! HMACs that tell two messages apart. -/

def Hmac.override (hmac : Hmac) (m tag : Bytes) (h : tag.length = 32) : Hmac where
  tag := fun secret message => if message = m then tag else hmac.tag secret message
  length_tag := by
    intro secret message
    split
    · exact h
    · exact hmac.length_tag secret message

theorem exists_other_tag (tag : Bytes) : ∃ other : Bytes, other.length = 32 ∧ other ≠ tag := by
  by_cases h : tag = List.replicate 32 0
  · exact ⟨List.replicate 32 1, List.length_replicate, by rw [h]; decide⟩
  · exact ⟨List.replicate 32 0, List.length_replicate, Ne.symm h⟩

/-- Two messages get tags of their own from some HMAC that treats a third as before. -/
theorem Hmac.exists_apart (hmac : Hmac) (secret : Bytes) {a b : Bytes} (hne : a ≠ b) (p : Bytes) :
    ∃ hmac' : Hmac, hmac'.tag secret p = hmac.tag secret p ∧ hmac'.tag secret a ≠ hmac'.tag secret b := by
  by_cases hp : p = a
  · obtain ⟨other, hlen, hother⟩ := exists_other_tag (hmac.tag secret a)
    refine ⟨hmac.override b other hlen, ?_, ?_⟩
    · rw [hp]; exact if_neg hne
    · show (if a = b then other else hmac.tag secret a) ≠ if b = b then other else hmac.tag secret b
      rw [if_neg hne, if_pos rfl]
      exact hother.symm
  · obtain ⟨other, hlen, hother⟩ := exists_other_tag (hmac.tag secret b)
    refine ⟨hmac.override a other hlen, if_neg hp, ?_⟩
    show (if a = a then other else hmac.tag secret a) ≠ if b = a then other else hmac.tag secret b
    rw [if_pos rfl, if_neg hne.symm]
    exact hother

/-! Streams and the key of their request. -/

/-- What `data` asks to be transferred. -/
structure TransferOf (zones : List Zone) (data : Bytes) (pkt : Packet) (q : Question) (zone : Zone) : Prop where
  parse : parsePacket data = .ok pkt
  question : pkt.questions.head? = some q
  qtype : q.qtype = .AXFR ∨ q.qtype = .IXFR
  zone : zones.find? (fun zone => zone.isAuthoritativeFor q.name) = some zone

theorem TransferOf.unique {zones : List Zone} {data : Bytes} {pkt pkt' : Packet} {q q' : Question} {zone zone' : Zone}
    (h : TransferOf zones data pkt q zone) (h' : TransferOf zones data pkt' q' zone') :
    pkt = pkt' ∧ q = q' ∧ zone = zone' := by
  obtain rfl := Except.ok.inj (h.parse.symm.trans h'.parse)
  obtain rfl := Option.some.inj (h.question.symm.trans h'.question)
  exact ⟨rfl, rfl, Option.some.inj (h.zone.symm.trans h'.zone)⟩

section
variable {σ : Type} (v : Serving σ) {data : Bytes} {key : TsigKey}

/-- The server with another HMAC. -/
def Serving.withHmac (hmac : Hmac) : Serving σ := { v with handler := { v.handler with hmac := hmac } }

/-- Every message sent for a request that is authenticated under `key`, whatever the HMAC, is itself
    authenticated under it, within the fudge of its signing. -/
def StreamVerifies (data : Bytes) (key : TsigKey) : Prop :=
  ∀ hmac, Authenticated hmac v.clocks.verify v.handler.tsigKeys data key →
    ∀ messages, maybeZoneTransfer (v.withHmac hmac) data = some messages →
    ∀ (i : Nat) (message : Bytes), messages[i]? = some message →
    ∀ t : Nat, ((t : Int) - v.signTimes i).natAbs ≤ 300 → Authenticated hmac t v.handler.tsigKeys message key

/-- The records of the zones and of their histories are such that the wire carries them. -/
structure Serving.RecordsFit : Prop where
  zones : ∀ zone ∈ v.zones, ∀ r, zone.Holds r → FitRecord r
  history : ∀ origin r, v.manager.Keeps origin r → FitRecord r

/-- The key is the transfer key, its name and algorithm in lower case, the latter HMAC-SHA256. -/
structure SignsTransfers (key : TsigKey) : Prop where
  name : key.name = "transfer-key".toList ∨ key.name = "transfer-key.".toList
  algorithm_lower : toAsciiLowercase key.algorithm = key.algorithm
  algorithm : HMAC_SHA256.isPrefixOf (canonical (readName key.algorithm)) = true

variable {v}

/-- An authenticated request is answered with the stream for what it asks. -/
theorem maybeZoneTransfer_authenticated {hmac : Hmac} (h : Authenticated hmac v.clocks.verify v.handler.tsigKeys data key)
    {pkt : Packet} {q : Question} {zone : Zone} (ht : TransferOf v.zones data pkt q zone) :
    maybeZoneTransfer (v.withHmac hmac) data =
      some (streamBytes hmac v.signTimes v.handler.tsigKeys (transferStream v pkt q zone)) := by
  have hqtype : ¬ (q.qtype ≠ .AXFR ∧ q.qtype ≠ .IXFR) := by
    rcases ht.qtype with h | h <;> simp [h]
  have hverify : verifyMessage (v.withHmac hmac).handler.hmac (v.withHmac hmac).clocks.verify data
      (v.withHmac hmac).handler.tsigKeys = .ok () := h.1
  have hzone : (v.withHmac hmac).zones.find? (fun zone => zone.isAuthoritativeFor q.name) = some zone := ht.zone
  rw [maybeZoneTransfer, zoneTransfer, ht.parse]
  simp only [ht.question, if_neg hqtype, hverify, hzone]
  rw [if_neg fun hrefused => absurd hrefused.2 (by decide)]
  rfl

/-- A stream is only sent for what the request asks. -/
theorem transferOf_of_messages {messages : List Bytes} {hmac : Hmac}
    (h : Authenticated hmac v.clocks.verify v.handler.tsigKeys data key)
    (hm : maybeZoneTransfer (v.withHmac hmac) data = some messages) :
    ∃ pkt q zone, TransferOf v.zones data pkt q zone := by
  obtain ⟨t, ht, -⟩ := Option.map_eq_some_iff.mp hm
  obtain ⟨pkt, q, hparse, hq, hqtype, ⟨⟨-, hbad⟩, -⟩ | ⟨-, zone, hzone, -⟩⟩ := zoneTransfer_cases (v.withHmac hmac) ht
  · have hverify : verifyMessage (v.withHmac hmac).handler.hmac (v.withHmac hmac).clocks.verify data
        (v.withHmac hmac).handler.tsigKeys = .ok () := h.1
    rw [hverify] at hbad
    cases hbad
  · exact ⟨pkt, q, zone, hparse, hq, hqtype, hzone⟩

theorem transferStream_fit (hfit : v.RecordsFit) {pkt : Packet} {q : Question} {zone : Zone}
    (ht : TransferOf v.zones data pkt q zone) {p : Packet} (hp : p ∈ transferStream v pkt q zone) : WireFit p false := by
  obtain ⟨answers, rfl, hlen, hrecords⟩ := mem_transferStream v hp
  refine buildAxfrMsg_fit ht.parse hlen fun r hr => ?_
  rcases hrecords r hr with hr | hr
  · exact hfit.zones zone (List.mem_of_find?_eq_some ht.zone) r hr
  · exact hfit.history _ r hr

/-- A message signed with the transfer key is authenticated under that key only. -/
theorem authenticated_transfer_iff {keyring : TsigKeyring} {k : TsigKey} (hk : keyring.get TRANSFER_KEY = some k)
    (halg : ∀ l ∈ labelsOf k.algorithm, WireLabel l) {p : Packet} (hfit : WireFit p false) (hmac : Hmac) (now t : Nat) :
    Authenticated hmac t keyring (signMessage hmac now (serialize p false) k) key ↔
      k = key ∧ HMAC_SHA256.isPrefixOf (canonical (readName k.algorithm)) = true ∧
        (((now % 2 ^ 48 : Nat) : Int) - t).natAbs ≤ 300 ∧
        hmac.tag key.secret (readPreimage now (serialize p false) k) =
          hmac.tag k.secret (signPreimage now (serialize p false) k) := by
  have hname : canonical k.name = TRANSFER_KEY := (TsigKeyring.canonical_eq_of_get hk).trans canonical_transferKey
  have hread : keyring.get (readName k.name) = some k := by
    rw [readName_of_canonical hname, ← hk]
    rfl
  rw [authenticated_signMessage hfit hmac now (wireLabel_of_canonical hname) halg, hread, Option.some.injEq]

variable (hauth : Authenticated v.handler.hmac v.clocks.verify v.handler.tsigKeys data key)
  (halg : ∀ name k, v.handler.tsigKeys.get name = some k → ∀ l ∈ labelsOf k.algorithm, WireLabel l)
  (hfit : v.RecordsFit)

include hauth halg hfit in
/-- The first message of a stream that verifies is signed with the transfer key. -/
theorem get_transferKey_of_streamVerifies (h : StreamVerifies v data key) {pkt : Packet} {q : Question} {zone : Zone}
    {p : Packet} {i : Nat} (ht : TransferOf v.zones data pkt q zone) (hp : (transferStream v pkt q zone)[i]? = some p) :
    v.handler.tsigKeys.get TRANSFER_KEY = some key ∧ HMAC_SHA256.isPrefixOf (canonical (readName key.algorithm)) = true ∧
      v.signTimes i < 2 ^ 48 ∧ readPreimage (v.signTimes i) (serialize p false) key =
        signPreimage (v.signTimes i) (serialize p false) key := by
  have hmem := List.mem_of_getElem? hp
  have hp_fit := transferStream_fit hfit ht hmem
  have hsent : ∀ hmac, Authenticated hmac v.clocks.verify v.handler.tsigKeys data key → ∀ t : Nat,
      ((t : Int) - v.signTimes i).natAbs ≤ 300 → Authenticated hmac t v.handler.tsigKeys
        ((v.handler.tsigKeys.get TRANSFER_KEY).elim (serialize p false)
          (signMessage hmac (v.signTimes i) (serialize p false)))
        key := by
    intro hmac hh t htime
    refine h hmac hh _ (maybeZoneTransfer_authenticated hh ht) i _ ?_ t htime
    rw [streamBytes_getElem?, hp]
    cases v.handler.tsigKeys.get TRANSFER_KEY <;> rfl
  cases hk : v.handler.tsigKeys.get TRANSFER_KEY with
  | none =>
    -- nothing is signed
    obtain ⟨-, t, hextract, -⟩ := hsent _ hauth (v.signTimes i) (by simp)
    rw [hk, Option.elim_none] at hextract
    obtain ⟨answers, rfl, -, -⟩ := mem_transferStream v hmem
    exact absurd hextract (extractTsig_unsigned _ _ _)
  | some k =>
    have hiff : ∀ hmac t,
        Authenticated hmac t v.handler.tsigKeys (signMessage hmac (v.signTimes i) (serialize p false) k) key ↔
        _ := fun hmac t => authenticated_transfer_iff hk (halg _ k hk) hp_fit hmac (v.signTimes i) t
    simp only [hk, Option.elim_some, hiff] at hsent
    obtain ⟨rfl, hprefix, htime, -⟩ := hsent _ hauth (v.signTimes i) (by simp)
    refine ⟨rfl, hprefix, by omega, ?_⟩
    by_contra hne
    -- an HMAC that accepts the request and tells the two inputs apart
    obtain ⟨tsig, hextract, hget, hv⟩ := authenticated_iff.mp hauth
    obtain ⟨hmac, hsame, hapart⟩ := v.handler.hmac.exists_apart k.secret hne (verifyPreimage data tsig)
    have haccepts : Authenticated hmac v.clocks.verify v.handler.tsigKeys data k :=
      authenticated_iff.mpr ⟨tsig, hextract, hget, hv.algorithm, hv.time, hsame.trans hv.mac⟩
    exact hapart (hsent hmac haccepts (v.signTimes i) (by simp)).2.2.2

include hauth halg hfit in
/-- **Transfers and the key of their request.** Every message of the stream verifies under the key that
    authenticated the request exactly when the zone has no SOA, so that nothing is sent, or the key is the
    transfer key, written in lower case, and the times of signing fit into 48 bits. -/
theorem transferStream_verifies_iff : StreamVerifies v data key ↔
    ∀ pkt q zone soa, TransferOf v.zones data pkt q zone → zone.soa.bind List.head? = some soa →
      SignsTransfers key ∧ ∀ i < (transferStream v pkt q zone).length, v.signTimes i < 2 ^ 48 := by
  constructor
  · intro h pkt q zone soa ht hsoa
    -- a zone with an SOA sends a first message, which tells the key, and each message tells its time
    have hget : ∀ i < (transferStream v pkt q zone).length, ∃ p, (transferStream v pkt q zone)[i]? = some p :=
      fun i hi => ⟨_, List.getElem?_eq_getElem hi⟩
    have hpos : 0 < (transferStream v pkt q zone).length := by
      rw [List.length_pos_iff, Ne, transferStream_eq_nil_iff v, hsoa]
      exact Option.some_ne_none soa
    obtain ⟨p, hp⟩ := hget 0 hpos
    obtain ⟨hk, hprefix, -, hsame⟩ := get_transferKey_of_streamVerifies hauth halg hfit h ht hp
    have hname : canonical key.name = TRANSFER_KEY := (TsigKeyring.canonical_eq_of_get hk).trans canonical_transferKey
    obtain ⟨hlower, halgLower⟩ := (readPreimage_eq_iff (wireLabel_of_canonical hname) (halg _ key hk) _ _).mp hsame
    refine ⟨⟨(eq_transferKey_iff key.name).mpr ⟨hname, hlower⟩, halgLower, hprefix⟩, fun i hi => ?_⟩
    obtain ⟨p', hp'⟩ := hget i hi
    exact (get_transferKey_of_streamVerifies hauth halg hfit h ht hp').2.2.1
  · intro h hmac hh messages hm i message hi t htime
    obtain ⟨pkt, q, zone, ht⟩ := transferOf_of_messages hh hm
    obtain rfl := Option.some.inj (hm.symm.trans (maybeZoneTransfer_authenticated hh ht))
    rw [streamBytes_getElem?, Option.map_eq_some_iff] at hi
    obtain ⟨p, hp, rfl⟩ := hi
    cases hsoa : zone.soa.bind List.head? with
    | none =>
      rw [(transferStream_eq_nil_iff v).mpr hsoa] at hp
      cases hp
    | some soa =>
      obtain ⟨hkey, htimes⟩ := h pkt q zone soa ht hsoa
      obtain ⟨hname, hlower⟩ := (eq_transferKey_iff key.name).mp hkey.name
      have hk : v.handler.tsigKeys.get TRANSFER_KEY = some key := by
        obtain ⟨tsig, -, hget, -⟩ := authenticated_iff.mp hh
        rw [← hget]
        exact TsigKeyring.get_congr (canonical_transferKey.trans
          (hname.symm.trans (TsigKeyring.canonical_eq_of_get hget)))
      have hsame := (readPreimage_eq_iff (wireLabel_of_canonical hname) (halg _ key hk) (v.signTimes i)
        (serialize p false)).mpr ⟨hlower, hkey.algorithm_lower⟩
      have hp_fit := transferStream_fit hfit ht (List.mem_of_getElem? hp)
      have hlt := htimes i (List.getElem?_eq_some_iff.mp hp).1
      simp only [hk]
      refine (authenticated_transfer_iff hk (halg _ key hk) hp_fit hmac _ t).mpr ⟨rfl, hkey.algorithm, ?_, by rw [hsame]⟩
      rw [Nat.mod_eq_of_lt hlt]
      omega

end

/-! A request under the transfer key, and one under another key. -/

def transferKey : TsigKey := ⟨"transfer-key".toList, HMAC_SHA256, [1, 2, 3]⟩

def transferName : DomainName where
  labels := ["transfer-key".toList]
  wf := by
    intro l hl
    rw [List.mem_singleton.mp hl]
    exact ⟨by decide, by decide, by decide⟩

def axfrQuery : Packet := ⟨7, 0, [⟨['x'], .AXFR, CLASS_IN⟩], [], [], [], 0, false⟩

def nameX : DomainName where
  labels := [['x']]
  wf := by
    intro l hl
    rw [List.mem_singleton.mp hl]
    exact ⟨by decide, by decide, by decide⟩

def nameWX : DomainName where
  labels := [['w'], ['x']]
  wf := by
    intro l hl
    rw [List.mem_cons, List.mem_singleton] at hl
    rcases hl with rfl | rfl <;> exact ⟨by decide, by decide, by decide⟩

def xSoa : Record :=
  ⟨['x'], .SOA, CLASS_IN, 3600, [0, 0, 0, 0, 0, 1, 0, 0, 0, 2, 0, 0, 0, 3, 0, 0, 0, 4, 0, 0, 0, 5]⟩

/-- A server with one key, for a zone that is an SOA. -/
def xServing (key : TsigKey) : Serving Unit where
  handler := { plainHandler with hmac := prefixHmac, tsigKeys := .insert .new key }
  zones := [(Zone.new ['x']).add xSoa]
  manager := .new
  cache := .new
  upstream := ()
  clocks := noClocks
  signTimes := fun _ => 1000
  peer := .V4 0
  admitted := true

def signedAxfr (key : TsigKey) : Bytes := signMessage prefixHmac 1000 (serialize axfrQuery true) key

theorem xServing_fits (key : TsigKey) : (xServing key).RecordsFit where
  zones := by
    intro zone hzone r hr
    rw [List.mem_singleton.mp hzone] at hr
    rcases Zone.holds_add hr with rfl | hr
    · exact ⟨by unfold WireLabel; decide, by decide⟩
    · exact absurd hr (Zone.not_holds_new _ r)
  history := by
    rintro origin r ⟨queue, d, hqueue, -⟩
    exact absurd hqueue (by simp [xServing, ZoneManager.new])

theorem axfrQuery_expanded : Expanded axfrQuery where
  questions := by
    intro q hq
    rw [List.mem_singleton.mp hq]
    exact ⟨⟨nameX, by unfold DomainName.Lower nameX; decide, rfl⟩, rfl⟩
  records := fun _ h => absurd h List.not_mem_nil
  no_opt := fun _ h => absurd h List.not_mem_nil
  question_count := by decide
  answer_count := by decide
  authority_count := by decide
  additional_count := by decide
  dnssec_ok := fun _ => rfl

theorem signedAxfr_authenticated {key : TsigKey} {n : DomainName} (hname : Spells key.name n)
    (halg : IsHmacSha256 key.algorithm) (hlower : toAsciiLowercase key.name = key.name)
    (halgLower : toAsciiLowercase key.algorithm = key.algorithm) :
    Authenticated prefixHmac 1000 (.insert .new key) (signedAxfr key) key :=
  authenticated_of_lower (axfrQuery_expanded.wireFit (fun _ h => absurd h List.not_mem_nil) (by decide)) hname halg
    (TsigKeyring.get_insert _ key) hlower halgLower _ (by decide)

/-- The algorithm of the only key. -/
theorem xServing_algorithm {key : TsigKey} (halg : IsHmacSha256 key.algorithm) : ∀ name k,
    (xServing key).handler.tsigKeys.get name = some k → ∀ l ∈ labelsOf k.algorithm, WireLabel l := by
  intro name k hk
  have hkey : k = key := by
    change (AList.insert (canonical key.name) key (∅ : AList fun _ : Text => TsigKey)).lookup (canonical name) =
        some k at hk
    by_cases he : canonical name = canonical key.name
    · rw [he, AList.lookup_insert] at hk
      exact (Option.some.inj hk).symm
    · rw [AList.lookup_insert_ne he] at hk
      simp at hk
  rw [hkey]
  exact halg.wireLabel

/-- A zone with 70 addresses beside its SOA. -/
def wideZone : Zone :=
  ((List.range 70).map fun i => ⟨['w', '.', 'x'], .A, CLASS_IN, 3600, [192, 0, 2, UInt8.ofNat i]⟩).foldl Zone.add
    ((Zone.new ['x']).add xSoa)

theorem holds_wideZone {r : Record} (h : wideZone.Holds r) :
    r = xSoa ∨ ∃ i, r = ⟨['w', '.', 'x'], .A, CLASS_IN, 3600, [192, 0, 2, UInt8.ofNat i]⟩ := by
  rcases (Zone.holds_foldl_add _ _).mp h with h | h
  · exact .inl ((Zone.holds_add h).resolve_right (Zone.not_holds_new _ r))
  · obtain ⟨i, -, rfl⟩ := List.mem_map.mp h
    exact .inr ⟨i, rfl⟩

theorem wideZone_soa : wideZone.soa.bind List.head? = some xSoa := by decide +kernel

/-- Its transfer takes two messages. -/
theorem wideZone_length (req : Packet) : (axfrStream plainHandler.hashOrder req wideZone).length = 2 := by
  have hcount : (diffRecords plainHandler.hashOrder wideZone).length = 70 := by decide +kernel
  rw [axfrStream_length wideZone_soa, hcount]
  rfl

def wideServing : Serving Unit := { xServing transferKey with zones := [wideZone] }

theorem wideServing_fits : wideServing.RecordsFit where
  zones := by
    intro zone hzone r hr
    have hlabels : ∀ l ∈ labelsOf ['w', '.', 'x'], WireLabel l := by unfold WireLabel; decide
    rw [List.mem_singleton.mp hzone] at hr
    rcases holds_wideZone hr with rfl | ⟨i, rfl⟩
    · exact ⟨fun l hl => hlabels l (.tail _ hl), by decide⟩
    · exact ⟨hlabels, by show 4 ≤ 65535; decide⟩
  history := (xServing_fits transferKey).history

theorem transferStream_verifies_transferKey : StreamVerifies wideServing (signedAxfr transferKey) transferKey ∧
    ∃ pkt, TransferOf wideServing.zones (signedAxfr transferKey) pkt ⟨['x'], .AXFR, CLASS_IN⟩ wideZone ∧
      (transferStream wideServing pkt ⟨['x'], .AXFR, CLASS_IN⟩ wideZone).length = 2 := by
  have hname : transferKey.name = transferName.text := rfl
  have hparse := parse_signMessage prefixHmac 1000 axfrQuery_expanded (fun _ h => absurd h List.not_mem_nil) rfl
    (by decide) hname (by unfold DomainName.Lower transferName; decide) (by decide)
  have hfind : wideServing.zones.find? (fun zone => zone.isAuthoritativeFor ['x']) = some wideZone :=
    List.find?_cons_of_pos (by decide +kernel)
  refine ⟨(transferStream_verifies_iff (v := wideServing)
    (signedAxfr_authenticated (n := transferName) (.inl rfl) (.inl (by decide)) (by decide) (by decide))
    (xServing_algorithm (.inl (by decide))) wideServing_fits).mpr ?_, _, ⟨hparse, rfl, .inl rfl, hfind⟩, wideZone_length _⟩
  intro pkt q zone soa _ _
  exact ⟨⟨.inl rfl, by decide, by decide⟩, fun i _ => by show 1000 < 2 ^ 48; decide⟩

/-- With a key of another name the request is authenticated, and the stream is not signed at all. -/
theorem plainKey_stream_unverified :
    Authenticated prefixHmac 1000 plainKeyring (signedAxfr plainKey) plainKey ∧
      ¬ StreamVerifies (xServing plainKey) (signedAxfr plainKey) plainKey := by
  have hauth : Authenticated prefixHmac 1000 plainKeyring (signedAxfr plainKey) plainKey :=
    signedAxfr_authenticated plainKey_name (.inl (by decide)) (by decide) (by decide)
  refine ⟨hauth, fun h => ?_⟩
  have hname : plainKey.name = (letterName 'k' (.inl rfl)).text := rfl
  have hparse := parse_signMessage prefixHmac 1000 axfrQuery_expanded (fun _ h => absurd h List.not_mem_nil) rfl
    (by decide) hname (by unfold DomainName.Lower letterName; decide) (by decide)
  have ht : TransferOf (xServing plainKey).zones (signedAxfr plainKey)
      (signedPacket prefixHmac 1000 axfrQuery plainKey) ⟨['x'], .AXFR, CLASS_IN⟩ ((Zone.new ['x']).add xSoa) :=
    ⟨hparse, rfl, .inl rfl, List.find?_cons_of_pos (by decide)⟩
  have hpos : 0 < (transferStream (xServing plainKey) (signedPacket prefixHmac 1000 axfrQuery plainKey)
      ⟨['x'], .AXFR, CLASS_IN⟩ ((Zone.new ['x']).add xSoa)).length := by
    rw [List.length_pos_iff, Ne, transferStream_eq_nil_iff]
    decide
  obtain ⟨hget, -⟩ := get_transferKey_of_streamVerifies (v := xServing plainKey) hauth
    (xServing_algorithm (.inl (by decide))) (xServing_fits plainKey) h ht (List.getElem?_eq_getElem hpos)
  revert hget
  decide

end Ironbind
