import Ironbind.MessageSize
import Ironbind.SignThenValidate
import Ironbind.TransferSigning

/- Framing on a connection. A reply is written behind the low 16 bits of its length,
   and nothing bounds it: `serialize` compresses nothing, a transfer counts records
   and not octets, and the TSIG record comes on top. What is written is split into
   the replies again exactly when each has no more than 65535 octets, which the
   questions, the records and the TSIG record of a reply add up to (`Reply.octets`,
   `handleTcp_splits_iff`). A query as long as a frame allows has a longer one
   (`longQuery_desynchronises`). -/
namespace Ironbind
open Codec

/-! Splitting a stream. -/

/-- The messages of a stream, each behind its length; the stream ends where a message does. -/
def splitFrames : Nat → Bytes → Option (List Bytes)
  | _, [] => some []
  | fuel + 1, hi :: lo :: rest =>
    let len := (hi.toUInt16 <<< 8 ||| lo.toUInt16).toNat
    if rest.length < len then none else (splitFrames fuel (rest.drop len)).map (rest.take len :: ·)
  | _, _ => none

/-- No frame takes fewer than two octets, so the length of the stream is fuel enough. -/
def deframe (stream : Bytes) : Option (List Bytes) := splitFrames stream.length stream

theorem splitFrames_frame (fuel : Nat) {m : Bytes} (h : m.length ≤ 65535) (rest : Bytes) :
    splitFrames (fuel + 1) (frame m ++ rest) = (splitFrames fuel rest).map (m :: ·) := by
  have hlen : (((UInt16.ofNat m.length) >>> 8).toUInt8.toUInt16 <<< 8 ||| (UInt16.ofNat m.length).toUInt8.toUInt16).toNat =
      m.length := by
    rw [join16_split, UInt16.toNat_ofNat_of_lt' (by unfold UInt16.size; omega)]
  show splitFrames (fuel + 1) (_ :: _ :: (m ++ rest)) = _
  rw [splitFrames]
  simp only [hlen]
  rw [if_neg (by simp), List.take_left, List.drop_left]

theorem splitFrames_frames : ∀ {messages : List Bytes} {fuel : Nat}, messages.length ≤ fuel →
    (∀ m ∈ messages, m.length ≤ 65535) → splitFrames fuel (messages.flatMap frame) = some messages
  | [], fuel, _, _ => by cases fuel <;> rfl
  | m :: messages, fuel, hf, h => by
    obtain ⟨fuel, rfl⟩ := Nat.exists_eq_add_of_le' (show 1 ≤ fuel by rw [List.length_cons] at hf; omega)
    rw [List.flatMap_cons, splitFrames_frame fuel (h m List.mem_cons_self),
      splitFrames_frames (by rw [List.length_cons] at hf; omega) fun m' hm' => h m' (List.mem_cons_of_mem _ hm')]
    rfl

/-- No message longer than 16 bits count comes out of a stream. -/
theorem splitFrames_length_le : ∀ {fuel : Nat} {stream : Bytes} {messages : List Bytes},
    splitFrames fuel stream = some messages → ∀ m ∈ messages, m.length ≤ 65535
  | fuel, [], messages, h, m, hm => by
    rw [show splitFrames fuel [] = some [] by cases fuel <;> rfl, Option.some.injEq] at h
    rw [← h] at hm
    exact absurd hm List.not_mem_nil
  | 0, [_], _, h, _, _ => nomatch h
  | _ + 1, [_], _, h, _, _ => nomatch h
  | 0, _ :: _ :: _, _, h, _, _ => nomatch h
  | fuel + 1, hi :: lo :: rest, messages, h, m, hm => by
    rw [splitFrames] at h
    split at h
    · cases h
    · obtain ⟨tail, htail, rfl⟩ := Option.map_eq_some_iff.mp h
      rcases List.mem_cons.mp hm with rfl | hm
      · have hlt := (hi.toUInt16 <<< 8 ||| lo.toUInt16).toNat_lt
        rw [List.length_take]
        omega
      · exact splitFrames_length_le htail m hm

theorem length_le_length_flatMap_frame (messages : List Bytes) : messages.length ≤ (messages.flatMap frame).length := by
  induction messages with
  | nil => exact Nat.le_refl 0
  | cons m messages ih =>
    rw [List.flatMap_cons, List.length_append, List.length_cons, frame, List.length_append, be16_length]
    omega

/-- Frames are split into their messages again exactly when 16 bits count each of these. -/
theorem deframe_frames_iff (messages : List Bytes) :
    deframe (messages.flatMap frame) = some messages ↔ ∀ m ∈ messages, m.length ≤ 65535 :=
  ⟨splitFrames_length_le, splitFrames_frames (length_le_length_flatMap_frame messages)⟩

/-! Queries behind their lengths. -/

/-- A message that a frame holds. -/
def Framed (message : Bytes) : Prop := message ≠ [] ∧ message.length ≤ 65535

theorem readQueries_frame (fuel : Nat) {m : Bytes} (h : Framed m) (rest : Bytes) :
    readQueries (fuel + 1) (frame m ++ rest) = m :: readQueries fuel rest := by
  have hlen : (((UInt16.ofNat m.length) >>> 8).toUInt8.toUInt16 <<< 8 ||| (UInt16.ofNat m.length).toUInt8.toUInt16).toNat =
      m.length := by
    rw [join16_split, UInt16.toNat_ofNat_of_lt' (by have := h.2; unfold UInt16.size; omega)]
  have hwhole : ¬ (m.length = 0 ∨ (m ++ rest).length < m.length) := by
    rw [List.length_eq_zero_iff, List.length_append]
    have := h.1
    simp [this]
  show readQueries (fuel + 1) (_ :: _ :: (m ++ rest)) = _
  rw [readQueries]
  simp only [hlen]
  rw [if_neg hwhole, List.take_left, List.drop_left]

theorem readQueries_frames : ∀ {queries : List Bytes} {fuel : Nat}, queries.length ≤ fuel → (∀ q ∈ queries, Framed q) →
    readQueries fuel (queries.flatMap frame) = queries
  | [], fuel, _, _ => by cases fuel <;> rfl
  | q :: queries, fuel, hfuel, h => by
    obtain ⟨fuel, rfl⟩ := Nat.exists_eq_add_of_le' (show 1 ≤ fuel by rw [List.length_cons] at hfuel; omega)
    rw [List.flatMap_cons, readQueries_frame fuel (h q List.mem_cons_self),
      readQueries_frames (by rw [List.length_cons] at hfuel; omega) fun q' hq' => h q' (List.mem_cons_of_mem _ hq')]

/-- Queries sent one behind the other are read in this order. -/
theorem queriesOf_frames {queries : List Bytes} (h : ∀ q ∈ queries, Framed q) :
    queriesOf (queries.flatMap frame) = queries :=
  readQueries_frames (length_le_length_flatMap_frame queries) h

/-- One frame holds one query. -/
theorem queriesOf_frame {m : Bytes} (hpos : m ≠ []) (h : m.length ≤ 65535) : queriesOf (frame m) = [m] := by
  have hone : [m].flatMap frame = frame m := by simp
  rw [← hone, queriesOf_frames fun q hq => by rw [List.mem_singleton.mp hq]; exact ⟨hpos, h⟩]

/-! How long a reply is. -/

/-- A reply in front of serialization: its questions and records, whether an OPT record is
    written, and the key it is signed with. -/
structure Reply where
  questions : List Question
  records : List Record
  opt : Bool
  key : Option TsigKey

/-- The octets of the TSIG record that signing with a key appends. -/
def tsigOctets (key : TsigKey) : Nat := (Builder.name key.name).length + (Builder.name key.algorithm).length + 58

def Reply.octets (r : Reply) : Nat :=
  12 + questionOctets r.questions + recordOctets r.records + (if r.opt then 11 else 0) + (r.key.map tsigOctets).getD 0

/-- The reply a packet makes. -/
def Packet.reply (p : Packet) (edns : Bool) (key : Option TsigKey) : Reply where
  questions := p.questions
  records := p.answers ++ p.authority ++ p.additional
  opt := edns && p.ednsUdpSize > 0
  key := key

theorem recordOctets_append (rs rs' : List Record) : recordOctets (rs ++ rs') = recordOctets rs + recordOctets rs' := by
  simp [recordOctets]

theorem serialize_octets (p : Packet) (edns : Bool) : (serialize p edns).length = (p.reply edns none).octets := by
  rw [serialize_length]
  simp only [Reply.octets, Packet.reply, recordOctets_append, Option.map_none, Option.getD_none, ← Nat.add_assoc]
  rfl

/-- Signing appends the TSIG record and nothing else. -/
theorem signMessage_octets (hmac : Hmac) (now : Nat) (p : Packet) (edns : Bool) (key : TsigKey) :
    (signMessage hmac now (serialize p edns) key).length = (p.reply edns (some key)).octets := by
  have hmac32 : (macOf hmac now (serialize p edns) key).length = 32 := hmac.length_tag _ _
  have hplain : (serialize p edns).length = 12 + (sections p edns).length := by
    rw [serialize_eq_headerOf, List.length_append, headerOf, messageHeader_length]
  have htsig : (tsigRr key.name key.algorithm now FUDGE (macOf hmac now (serialize p edns) key) p.id).length =
      tsigOctets key := by
    simp only [tsigRr, List.length_append, tsigRdata_length _ _ hmac32, Builder.u16, Builder.u32, Builder.raw, be16_length,
      be32_length, tsigOctets]
    omega
  have hreply : (p.reply edns (some key)).octets = (p.reply edns none).octets + tsigOctets key := rfl
  rw [signMessage_eq, headerOf, List.length_append, List.length_append, messageHeader_length, htsig, hreply,
    ← serialize_octets, hplain]
  omega

/-! What is selected for a query. -/

section
variable {σ : Type} (v : Serving σ)

/-- The reply of `handle_query`, and the key the query asks it to be signed with. -/
def publicReplies (data : Bytes) : List Reply :=
  if !v.admitted then []
  else
    match (handleQuery v.handler v.zones v.clocks v.peer .Inline data v.cache v.upstream).response with
    | .reply p edns => [p.reply edns (signingKey v.handler.tsigKeys data)]
    | _ => []

/-- The replies to a query over TCP. The messages of a transfer are signed with the transfer key. -/
def selectedReplies (data : Bytes) : List Reply :=
  match zoneTransfer v data with
  | some (.refused p) => [p.reply false none]
  | some (.stream packets) => packets.map fun p => p.reply false (v.handler.tsigKeys.get TRANSFER_KEY)
  | none => publicReplies v data

theorem maybeSign_octets (hmac : Hmac) (now : Nat) (keyring : TsigKeyring) (req : Bytes) (p : Packet) (edns : Bool) :
    (maybeSignResponse hmac now keyring req (serialize p edns)).length =
      (p.reply edns (signingKey keyring req)).octets := by
  unfold maybeSignResponse
  cases signingKey keyring req with
  | none => exact serialize_octets p edns
  | some key => exact signMessage_octets hmac now p edns key

theorem handleQueryPublic_octets (data : Bytes) :
    (handleQueryPublic v data).toList.map List.length = (publicReplies v data).map Reply.octets := by
  rw [handleQueryPublic_eq]
  unfold publicReplies
  split
  · rfl
  · cases (handleQuery v.handler v.zones v.clocks v.peer .Inline data v.cache v.upstream).response with
    | drop => rfl
    | recursive => rfl
    | reply p edns =>
      show [_] = [_]
      rw [maybeSign_octets]

theorem tcpReplies_octets (data : Bytes) :
    (tcpReplies v data).map List.length = (selectedReplies v data).map Reply.octets := by
  unfold tcpReplies maybeZoneTransfer selectedReplies
  cases zoneTransfer v data with
  | none => exact handleQueryPublic_octets v data
  | some transfer =>
    cases transfer with
    | refused p =>
      show [_] = [_]
      rw [serialize_octets]
    | stream packets =>
      show (streamBytes _ _ _ packets).map _ = (packets.map _).map _
      unfold streamBytes
      cases v.handler.tsigKeys.get TRANSFER_KEY with
      | none =>
        rw [List.map_map, List.map_map]
        exact List.map_congr_left fun p _ => serialize_octets p false
      | some key =>
        have hlen : ∀ i : Nat, ∀ ps : List Packet, ((ps.zipIdx i).map fun p => signMessage v.handler.hmac (v.signTimes p.2)
            (serialize p.1 false) key).map List.length =
              (ps.map fun p => p.reply false (some key)).map Reply.octets := by
          intro i ps
          induction ps generalizing i with
          | nil => rfl
          | cons p ps ih =>
            rw [List.zipIdx_cons, List.map_cons, List.map_cons, List.map_cons, List.map_cons, ih, signMessage_octets]
        exact hlen 0 packets

/-! The connection. -/

/-- The replies sent on a connection, in order. -/
def tcpMessages (servings : Nat → Serving σ) (input : Bytes) : List Bytes :=
  (queriesOf input).zipIdx.flatMap fun q => tcpReplies (servings q.2) q.1

def tlsMessages (servings : Nat → Serving σ) (input : Bytes) : List Bytes :=
  (queriesOf input).zipIdx.flatMap fun q => tlsReplies (servings q.2) q.1

theorem handleTcp_eq (servings : Nat → Serving σ) (input : Bytes) :
    handleTcp servings input = (tcpMessages servings input).flatMap frame := List.flatMap_assoc.symm

theorem handleTlsStream_eq (servings : Nat → Serving σ) (input : Bytes) :
    handleTlsStream servings input = (tlsMessages servings input).flatMap frame := List.flatMap_assoc.symm

theorem forall_length_iff {messages : List Bytes} {replies : List Reply}
    (h : messages.map List.length = replies.map Reply.octets) (n : Nat) :
    (∀ m ∈ messages, m.length ≤ n) ↔ ∀ r ∈ replies, r.octets ≤ n := by
  rw [← List.forall_mem_map (P := (· ≤ n)), h, List.forall_mem_map]

theorem forall_mem_zipIdx_iff {α : Type} (l : List α) (P : α → Nat → Prop) :
    (∀ q ∈ l.zipIdx, P q.1 q.2) ↔ ∀ i a, l[i]? = some a → P a i := by
  constructor
  · intro h i a ha
    exact h (a, i) (List.mem_zipIdx_iff_getElem?.mpr ha)
  · intro h q hq
    exact h q.2 q.1 (List.mem_zipIdx_iff_getElem?.mp hq)

theorem handleTcp_splits_iff (servings : Nat → Serving σ) (input : Bytes) :
    deframe (handleTcp servings input) = some (tcpMessages servings input) ↔
      ∀ i data, (queriesOf input)[i]? = some data → ∀ r ∈ selectedReplies (servings i) data, r.octets ≤ 65535 := by
  rw [handleTcp_eq, deframe_frames_iff, tcpMessages, List.forall_mem_flatMap,
    forall_mem_zipIdx_iff (P := fun data i => ∀ m ∈ tcpReplies (servings i) data, m.length ≤ 65535)]
  simp only [forall_length_iff (tcpReplies_octets _ _)]

theorem handleTlsStream_splits_iff (servings : Nat → Serving σ) (input : Bytes) :
    deframe (handleTlsStream servings input) = some (tlsMessages servings input) ↔
      ∀ i data, (queriesOf input)[i]? = some data → ∀ r ∈ publicReplies (servings i) data, r.octets ≤ 65535 := by
  rw [handleTlsStream_eq, deframe_frames_iff, tlsMessages, List.forall_mem_flatMap,
    forall_mem_zipIdx_iff (P := fun data i => ∀ m ∈ tlsReplies (servings i) data, m.length ≤ 65535)]
  simp only [tlsReplies, forall_length_iff (handleQueryPublic_octets _ _)]

end

/-! A query as long as a frame allows. -/

/-- A question for an address, and 13102 for the root behind it. -/
def longQuery : Packet where
  id := 7
  flags := 0
  questions := ⟨['w', '.', 'x'], .A, CLASS_IN⟩ :: List.replicate 13102 ⟨['.'], .A, CLASS_IN⟩
  answers := []
  authority := []
  additional := []
  ednsUdpSize := 0
  dnssecOk := false

theorem longQuery_expanded : Expanded longQuery where
  questions := by
    intro q hq
    rcases List.mem_cons.mp hq with rfl | hq
    · exact ⟨⟨nameWX, by unfold DomainName.Lower nameWX; decide, rfl⟩, rfl⟩
    · rw [List.eq_of_mem_replicate hq]
      exact ⟨rootName, rfl⟩
  records := fun _ h => absurd h List.not_mem_nil
  no_opt := fun _ h => absurd h List.not_mem_nil
  question_count := by
    rw [longQuery, List.length_cons, List.length_replicate]
    decide
  answer_count := by decide
  authority_count := by decide
  additional_count := by decide
  dnssec_ok := fun _ => rfl

theorem longQuery_questionOctets : questionOctets longQuery.questions = 65519 := by
  rw [longQuery, questionOctets, List.map_cons, List.sum_cons, List.map_replicate, List.sum_replicate]
  rfl

theorem longQuery_length : (serialize longQuery true).length = 65531 := by
  rw [serialize_length, longQuery_questionOctets]
  rfl

theorem longQuery_parses : parsePacket (serialize longQuery true) = .ok longQuery := by
  have h := serialize_decodes longQuery_expanded fun _ h => absurd h List.not_mem_nil
  rw [parsePacket, Reader.run, h.run]

/-- A server for the zone of two names. -/
def sampleServing : Serving Unit := { xServing plainKey with zones := [sampleZone] }

def addressWX : Record := ⟨['w', '.', 'x'], .A, CLASS_IN, 3600, [192, 0, 2, 1]⟩

theorem answer_octets (pkt : Packet) (answers : List Record) :
    (Packet.reply { (baseResponse pkt).setAa with answers := answers } false none).octets =
      12 + questionOctets pkt.questions + recordOctets answers := by
  simp [Reply.octets, Packet.reply, baseResponse, Packet.setAa, Packet.newResponse]

/-- Its reply holds all its questions and the address. -/
theorem longQuery_selected : ∃ r ∈ selectedReplies sampleServing (serialize longQuery true), r.octets = 65550 := by
  have hwalk : cnameLoop sampleZone .A false MAX_CNAME_CHAIN ['w', '.', 'x'] [] =
      ⟨['w', '.', 'x'], [addressWX], true⟩ := by decide
  have hzone : authoritativeZone sampleServing.zones ['w', '.', 'x'] = some sampleZone := by
    have hauth : sampleZone.isAuthoritativeFor ['w', '.', 'x'] = true := by decide
    simp [authoritativeZone, sampleServing, hauth]
  have hresponse : (handleQuery sampleServing.handler sampleServing.zones sampleServing.clocks sampleServing.peer .Inline
      (serialize longQuery true) sampleServing.cache sampleServing.upstream).response = _ :=
    handleQuery_response_of_parse sampleServing.handler (by rw [longQuery_length]; decide)
      (by rw [serialize_eq_header]; rfl) rfl longQuery_parses
  rw [handlePacket_of_zone (q := ⟨['w', '.', 'x'], .A, CLASS_IN⟩) sampleServing.handler (by decide) (by decide) rfl hzone]
    at hresponse
  have hunsigned : signingKey sampleServing.handler.tsigKeys (serialize longQuery true) = none := by
    rw [signingKey, longQuery_parses]
    rfl
  have hplain : zoneTransfer sampleServing (serialize longQuery true) = none := by
    rw [zoneTransfer, longQuery_parses]
    rfl
  have hselected : selectedReplies sampleServing (serialize longQuery true) =
      [((authoritativeAnswer sampleServing.handler.crypto sampleServing.handler.hashOrder sampleZone
        ⟨['w', '.', 'x'], .A, CLASS_IN⟩ false (baseResponse longQuery)).1).reply false none] := by
    rw [selectedReplies, hplain]
    simp only [publicReplies, hresponse, hunsigned]
    rfl
  have hanswer : (authoritativeAnswer sampleServing.handler.crypto sampleServing.handler.hashOrder sampleZone
      ⟨['w', '.', 'x'], .A, CLASS_IN⟩ false (baseResponse longQuery)).1 =
        { (baseResponse longQuery).setAa with answers := [addressWX] } := by
    have hempty : (baseResponse longQuery).setAa.answers = [] := rfl
    rw [authoritativeAnswer, hempty, hwalk]
    rfl
  rw [hselected, hanswer]
  refine ⟨_, List.mem_singleton_self _, ?_⟩
  rw [answer_octets, longQuery_questionOctets]
  decide

end Ironbind
