import Ironbind.Admission
import Ironbind.ConfigFile
import Ironbind.Lib.WorkerPool
import Ironbind.ReplyMatch

/- The UDP side of the server as a system of threads (`udp_loop`, `udp_receiver`, and the
   recursion pool of `threadpool.rs`). The receivers share one socket. Each of them reads a
   datagram, asks the rate limiter, answers the query itself or hands it to the pool, and
   reads the next one; the workers of the pool finish what was handed over. A step is what
   one thread does until another one may come in, and the steps of a run come in any order.
   What a query meets of the server is anything, at every step of its own, or a panic.
   `Accounts` is the invariant: each datagram that was read has one fate (`udp_accounts`),
   what is sent answers the query it is sent for (`udp_answers`), and with the datagrams
   over, the threads come to rest in a bounded number of steps (`udp_settles`). -/
namespace Ironbind
open Codec WorkerPool

/-! The threads. -/

/-- A datagram under the number of its arrival, as far as the buffer of a receiver holds it. -/
structure Received where
  number : Nat
  peer : IpAddr
  port : UInt16
  data : Bytes
  deriving DecidableEq

/-- What a receiver is about: it waits for a datagram, answers it, or hands it to the pool. -/
inductive Receiver where
  | waiting
  | answering (r : Received)
  | deferring (r : Received)

def Receiver.held : Receiver → Option Received
  | waiting => none
  | answering r => some r
  | deferring r => some r

/-- The steps a receiver has left, with those its query may take in the pool. -/
def Receiver.left : Receiver → Nat
  | waiting => 0
  | answering _ => 4
  | deferring _ => 3

/-- `RECURSION_QUEUE_PER_WORKER`. -/
def RECURSION_QUEUE_PER_WORKER : Nat := 16

/-- `ThreadPool::new`. -/
def ThreadPool.new {ι : Type} (workers queueCapacity : Nat) : Pool ι := .empty queueCapacity workers

/-- The threads, the counters they move, and what has become of every datagram so far. -/
structure UdpService where
  receivers : List Receiver
  pool : Pool Received
  udpQueries : UInt64
  droppedRateLimited : UInt64
  droppedRecursionLimit : UInt64
  received : List Received
  limited : List Received
  /-- The datagrams handed to the socket, with the query they are for. -/
  sent : List (Received × Bytes)
  /-- The queries that were answered with nothing. -/
  silent : List Received
  overflowed : List Received
  /-- The queries the pool took, and those of them that a worker took from the queue. -/
  queued : List Received
  started : List Received

/-- One thread goes on. The query that a thread handles meets a server, or panics. -/
inductive UdpStep (σ : Type) where
  | receive (i : Nat) (peer : IpAddr) (port : UInt16) (data : Bytes) (admitted : Bool)
  | answer (i : Nat) (v : Option (Serving σ))
  | submit (i : Nat)
  | take (w : Nat)
  | resume (w : Nat) (v : Option (Serving σ))

/-- `answer_catching_panics`. -/
def answerCatchingPanics {σ : Type} (v : Option (Serving σ)) (r : Received) (recursion : Recursion) : Answer :=
  match v with
  | some v => (respond v.handler v.zones v.clocks r.peer recursion r.data v.cache v.upstream).1
  | none => .Ready none

namespace UdpService

/-- `run`, up to the UDP receivers: at least one receiver and one worker. -/
def start (settings : ServerSettings) : UdpService where
  receivers := List.replicate (max settings.udpReceivers.toNat 1) .waiting
  pool := ThreadPool.new (max settings.workerThreads.toNat 1)
    (max settings.workerThreads.toNat 1 * RECURSION_QUEUE_PER_WORKER)
  udpQueries := 0
  droppedRateLimited := 0
  droppedRecursionLimit := 0
  received := []
  limited := []
  sent := []
  silent := []
  overflowed := []
  queued := []
  started := []

section
variable (st : UdpService)

/-- What a receiver that waits makes of a datagram: the rate limiter is asked first. -/
def receive (i : Nat) (r : Received) (admitted : Bool) : UdpService :=
  if admitted then
    { st with
      received := st.received ++ [r]
      udpQueries := st.udpQueries + 1
      receivers := st.receivers.set i (.answering r) }
  else
    { st with
      received := st.received ++ [r]
      droppedRateLimited := st.droppedRateLimited + 1
      limited := st.limited ++ [r] }

/-- A receiver answers its query, or finds that it needs an upstream lookup. -/
def answer (i : Nat) (r : Received) : Answer → UdpService
  | .Ready (some resp) =>
    { st with sent := st.sent ++ [(r, sendUdp r.data resp)], receivers := st.receivers.set i .waiting }
  | .Ready none => { st with silent := st.silent ++ [r], receivers := st.receivers.set i .waiting }
  | .Recursive => { st with receivers := st.receivers.set i (.deferring r) }

/-- A receiver hands its query to the pool, and drops it when the queue is full. -/
def submit (i : Nat) (r : Received) : UdpService :=
  match st.pool.submit r with
  | some pool =>
    { st with pool := pool, queued := st.queued ++ [r], receivers := st.receivers.set i .waiting }
  | none =>
    { st with
      droppedRecursionLimit := st.droppedRecursionLimit + 1
      overflowed := st.overflowed ++ [r]
      receivers := st.receivers.set i .waiting }

/-- The end of a worker's job. -/
def resume (pool : Pool Received) (r : Received) : Answer → UdpService
  | .Ready (some resp) => { st with pool := pool, sent := st.sent ++ [(r, sendUdp r.data resp)] }
  | _ => { st with pool := pool, silent := st.silent ++ [r] }

/-- A thread that is not where the step begins stays where it is. -/
def step {σ : Type} (st : UdpService) : UdpStep σ → UdpService
  | .receive i peer port data admitted =>
    match st.receivers[i]? with
    | some .waiting => st.receive i ⟨st.received.length, peer, port, data.take 4096⟩ admitted
    | _ => st
  | .answer i v =>
    match st.receivers[i]? with
    | some (.answering r) => st.answer i r (answerCatchingPanics v r .Defer)
    | _ => st
  | .submit i =>
    match st.receivers[i]? with
    | some (.deferring r) => st.submit i r
    | _ => st
  | .take w =>
    match st.pool.take w with
    | some (r, pool) => { st with pool := pool, started := st.started ++ [r] }
    | none => st
  | .resume w v =>
    match st.pool.finish w with
    | some (r, pool) => st.resume pool r (answerCatchingPanics v r .Resume)
    | none => st

def run {σ : Type} (st : UdpService) (steps : List (UdpStep σ)) : UdpService := steps.foldl step st

/-- The queries that receivers have in hand. -/
def held : List Received := (st.receivers.map Receiver.held).reduceOption

end

/-- The steps that do something, and what they do. -/
inductive Moves {σ : Type} (st : UdpService) : UdpStep σ → UdpService → Prop where
  | receive {i : Nat} {peer : IpAddr} {port : UInt16} {data : Bytes} {admitted : Bool}
      (hi : st.receivers[i]? = some .waiting) : Moves st (.receive i peer port data admitted)
        (st.receive i ⟨st.received.length, peer, port, data.take 4096⟩ admitted)
  | answer {i : Nat} {v : Option (Serving σ)} {r : Received} (hi : st.receivers[i]? = some (.answering r)) :
      Moves st (.answer i v) (st.answer i r (answerCatchingPanics v r .Defer))
  | submit {i : Nat} {r : Received} (hi : st.receivers[i]? = some (.deferring r)) : Moves st (.submit i) (st.submit i r)
  | take {w : Nat} {r : Received} {pool : Pool Received} (hpool : st.pool.take w = some (r, pool)) :
      Moves st (.take w) { st with pool := pool, started := st.started ++ [r] }
  | resume {w : Nat} {v : Option (Serving σ)} {r : Received} {pool : Pool Received}
      (hpool : st.pool.finish w = some (r, pool)) :
      Moves st (.resume w v) (st.resume pool r (answerCatchingPanics v r .Resume))

theorem step_moves {σ : Type} (st : UdpService) (s : UdpStep σ) : st.step s = st ∨ Moves st s (st.step s) := by
  cases s with
  | receive i peer port data admitted =>
    rw [step]
    split
    · next hi => exact .inr (.receive hi)
    · exact .inl rfl
  | answer i v =>
    rw [step]
    split
    · next hi => exact .inr (.answer hi)
    · exact .inl rfl
  | submit i =>
    rw [step]
    split
    · next hi => exact .inr (.submit hi)
    · exact .inl rfl
  | take w =>
    rw [step]
    split
    · next hpool => exact .inr (.take hpool)
    · exact .inl rfl
  | resume w v =>
    rw [step]
    split
    · next hpool => exact .inr (.resume hpool)
    · exact .inl rfl

/-! The accounts. -/

/-- **Nothing is lost and nothing happens twice.** Each datagram that was read was turned away by the rate limiter,
    answered, answered with nothing, dropped at a full queue, or is still in hand or in the pool. The numbers tell the
    datagrams apart, the counters are right, and the queue is first in, first out. -/
structure Accounts (st : UdpService) : Prop where
  fates : (st.limited + st.sent.map Prod.fst + st.silent + st.overflowed + st.held : Multiset Received) + st.pool.pending =
    st.received
  numbers : st.received.map Received.number = List.range st.received.length
  udp : st.udpQueries + .ofNat st.limited.length = .ofNat st.received.length
  rateLimited : st.droppedRateLimited = .ofNat st.limited.length
  recursionLimit : st.droppedRecursionLimit = .ofNat st.overflowed.length
  order : st.queued = st.started ++ st.pool.queue

/-- What a receiver puts in the place of what it had in hand. -/
theorem held_set {receivers : List Receiver} {i : Nat} {x : Receiver} (hi : receivers[i]? = some x) (y : Receiver) :
    (x.held.toList + ((receivers.set i y).map Receiver.held).reduceOption : Multiset Received) =
      y.held.toList + (receivers.map Receiver.held).reduceOption := by
  rw [List.map_set]
  exact Pool.reduceOption_set (by rw [List.getElem?_map, hi]; rfl) y.held

/-- A receiver that waits takes up a query. -/
theorem held_taken {receivers : List Receiver} {i : Nat} (hi : receivers[i]? = some .waiting) (r : Received) :
    (((receivers.set i (.answering r)).map Receiver.held).reduceOption : Multiset Received) =
      {r} + (receivers.map Receiver.held).reduceOption := by
  simpa [Receiver.held] using held_set hi (.answering r)

/-- A receiver is done with its query. -/
theorem held_given {receivers : List Receiver} {i : Nat} {x : Receiver} {r : Received} (hi : receivers[i]? = some x)
    (hx : x.held = some r) : ((receivers.map Receiver.held).reduceOption : Multiset Received) =
      {r} + ((receivers.set i .waiting).map Receiver.held).reduceOption := by
  have hset := held_set hi .waiting
  rw [hx] at hset
  simpa [Receiver.held] using hset.symm

theorem accounts_start (settings : ServerSettings) : Accounts (start settings) where
  fates := by
    have hheld : (start settings).held = [] := by
      rw [held, start, List.map_replicate]
      exact List.reduceOption_replicate_none
    rw [hheld, start, ThreadPool.new, Pool.pending_empty]
    rfl
  numbers := rfl
  udp := rfl
  rateLimited := rfl
  recursionLimit := rfl
  order := rfl

section
variable {st : UdpService} {i : Nat} {r : Received}

theorem ofNat_length_concat {α : Type} (l : List α) (a : α) :
    UInt64.ofNat (l ++ [a]).length = .ofNat l.length + 1 := by
  rw [List.length_append, UInt64.ofNat_add]
  rfl

theorem Accounts.receive (h : Accounts st) (hi : st.receivers[i]? = some .waiting) (hr : r.number = st.received.length)
    (admitted : Bool) : Accounts (st.receive i r admitted) := by
  have hnumbers : (st.received ++ [r]).map Received.number = List.range (st.received ++ [r]).length := by
    rw [List.map_append, h.numbers, List.length_append, List.length_singleton, List.range_succ, ← hr]
    rfl
  have hfates := h.fates
  cases admitted with
  | true =>
    refine ⟨?_, hnumbers, ?_, h.rateLimited, h.recursionLimit, h.order⟩
    · simp only [UdpService.receive, held, if_true, held_taken hi, ← Multiset.coe_add, Multiset.coe_singleton, ← hfates]
      abel
    · show st.udpQueries + 1 + .ofNat st.limited.length = _
      rw [UdpService.receive, if_pos rfl, ofNat_length_concat, ← h.udp, UInt64.add_assoc, UInt64.add_comm 1,
        ← UInt64.add_assoc]
  | false =>
    refine ⟨?_, hnumbers, ?_, ?_, h.recursionLimit, h.order⟩
    · simp only [UdpService.receive, held, Bool.false_eq_true, if_false, ← Multiset.coe_add, Multiset.coe_singleton,
        ← hfates]
      abel
    · show st.udpQueries + .ofNat (st.limited ++ [r]).length = .ofNat (st.received ++ [r]).length
      rw [ofNat_length_concat, ofNat_length_concat, ← h.udp, UInt64.add_assoc]
    · show st.droppedRateLimited + 1 = .ofNat (st.limited ++ [r]).length
      rw [ofNat_length_concat, h.rateLimited]

theorem Accounts.answer (h : Accounts st) (hi : st.receivers[i]? = some (.answering r)) (a : Answer) :
    Accounts (st.answer i r a) := by
  have hfates := h.fates
  have hgiven := held_given hi rfl
  unfold UdpService.answer
  split
  · next resp =>
    refine ⟨?_, h.numbers, h.udp, h.rateLimited, h.recursionLimit, h.order⟩
    simp only [held, hgiven, List.map_append, List.map_cons, List.map_nil, ← Multiset.coe_add, Multiset.coe_singleton,
      ← hfates]
    abel
  · refine ⟨?_, h.numbers, h.udp, h.rateLimited, h.recursionLimit, h.order⟩
    simp only [held, hgiven, ← Multiset.coe_add, Multiset.coe_singleton, ← hfates]
    abel
  · refine ⟨?_, h.numbers, h.udp, h.rateLimited, h.recursionLimit, h.order⟩
    have hkept : (((st.receivers.set i (.deferring r)).map Receiver.held).reduceOption : Multiset Received) = st.held :=
      add_left_cancel (held_set hi (.deferring r))
    rw [← hfates, held, hkept]

theorem Accounts.submit (h : Accounts st) (hi : st.receivers[i]? = some (.deferring r)) : Accounts (st.submit i r) := by
  have hfates := h.fates
  have hgiven := held_given hi rfl
  unfold UdpService.submit
  split
  · next pool hpool =>
    refine ⟨?_, h.numbers, h.udp, h.rateLimited, h.recursionLimit, ?_⟩
    · simp only [held, hgiven, Pool.pending_submit hpool, ← hfates]
      abel
    · show st.queued ++ [r] = st.started ++ pool.queue
      rw [(Pool.submit_eq_some hpool).1, h.order, List.append_assoc]
  · refine ⟨?_, h.numbers, h.udp, h.rateLimited, ?_, h.order⟩
    · simp only [held, hgiven, ← Multiset.coe_add, Multiset.coe_singleton, ← hfates]
      abel
    · show st.droppedRecursionLimit + 1 = .ofNat (st.overflowed ++ [r]).length
      rw [ofNat_length_concat, h.recursionLimit]

theorem Accounts.take (h : Accounts st) {w : Nat} {pool : Pool Received} (hpool : st.pool.take w = some (r, pool)) :
    Accounts { st with pool := pool, started := st.started ++ [r] } := by
  refine ⟨?_, h.numbers, h.udp, h.rateLimited, h.recursionLimit, ?_⟩
  · rw [← h.fates, Pool.pending_take hpool]
    rfl
  · show st.queued = st.started ++ [r] ++ pool.queue
    rw [h.order, (Pool.take_eq_some hpool).2.1, List.append_assoc, List.singleton_append]

theorem Accounts.resume (h : Accounts st) {w : Nat} {pool : Pool Received} (hpool : st.pool.finish w = some (r, pool))
    (a : Answer) : Accounts (st.resume pool r a) := by
  have hfates := h.fates
  have horder : st.queued = st.started ++ pool.queue := by rw [h.order, (Pool.finish_eq_some hpool).2.1]
  unfold UdpService.resume
  split
  · next resp =>
    refine ⟨?_, h.numbers, h.udp, h.rateLimited, h.recursionLimit, horder⟩
    simp only [held, Pool.pending_finish hpool, List.map_append, List.map_cons, List.map_nil, ← Multiset.coe_add,
      Multiset.coe_singleton, ← hfates]
    abel
  · refine ⟨?_, h.numbers, h.udp, h.rateLimited, h.recursionLimit, horder⟩
    simp only [held, Pool.pending_finish hpool, ← Multiset.coe_add, Multiset.coe_singleton, ← hfates]
    abel

end

theorem Accounts.moves {σ : Type} {st st' : UdpService} {s : UdpStep σ} (h : Accounts st) (hmoves : Moves st s st') :
    Accounts st' := by
  cases hmoves with
  | receive hi => exact h.receive hi rfl _
  | answer hi => exact h.answer hi _
  | submit hi => exact h.submit hi
  | take hpool => exact h.take hpool
  | resume hpool => exact h.resume hpool _

/-- What every move keeps holds at the end of every run. -/
theorem run_preserves {σ : Type} {P : UdpService → Prop}
    (hmoves : ∀ st (s : UdpStep σ) st', Moves st s st' → P st → P st') :
    ∀ {steps : List (UdpStep σ)} {st : UdpService}, P st → P (st.run steps)
  | [], _, h => h
  | s :: steps, st, h => by
    have hnext : P (st.step s) := by
      obtain hstays | hstep := step_moves st s
      · rw [hstays]; exact h
      · exact hmoves st s _ hstep h
    rw [run, List.foldl_cons]
    exact run_preserves hmoves hnext

theorem Accounts.nodup {st : UdpService} (h : Accounts st) : st.received.Nodup := by
  refine .of_map Received.number ?_
  rw [h.numbers]
  exact List.nodup_range

/-- No query is answered twice, and none that the rate limiter turned away. -/
theorem Accounts.sent_once {st : UdpService} (h : Accounts st) : (st.sent.map Prod.fst).Nodup ∧
    ∀ s ∈ st.sent, s.1 ∈ st.received ∧ s.1 ∉ st.limited := by
  have hnodup := Multiset.coe_nodup.mpr h.nodup
  rw [← h.fates] at hnodup
  simp only [Multiset.nodup_add, Multiset.coe_nodup] at hnodup
  obtain ⟨⟨⟨⟨⟨-, hsent, hdisjoint⟩, -⟩, -⟩, -⟩, -⟩ := hnodup
  refine ⟨hsent, fun s hs => ⟨?_, fun hlimited => ?_⟩⟩
  · have hmem : s.1 ∈ (st.received : Multiset Received) := by
      rw [← h.fates]
      simp only [Multiset.mem_add, Multiset.mem_coe, List.mem_map]
      exact .inl (.inl (.inl (.inl (.inr ⟨s, hs, rfl⟩))))
    exact hmem
  · exact Multiset.disjoint_left.mp hdisjoint hlimited (Multiset.mem_coe.mpr (List.mem_map_of_mem hs))

theorem accounts_run {σ : Type} (settings : ServerSettings) (steps : List (UdpStep σ)) :
    Accounts ((start settings).run steps) :=
  run_preserves (fun _ _ _ hm h => h.moves hm) (accounts_start settings)

/-- **Each datagram has one fate**, whatever the threads do and in whatever order. -/
theorem udp_accounts {σ : Type} (settings : ServerSettings) (steps : List (UdpStep σ)) :
    Accounts ((start settings).run steps) ∧ (((start settings).run steps).sent.map Prod.fst).Nodup :=
  ⟨accounts_run settings steps, (accounts_run settings steps).sent_once.1⟩

end UdpService

/-! What is sent. -/

/-- A response with the ID of the query. -/
structure Echoes (query reply : Bytes) : Prop where
  id : u16At reply 0 = u16At query 0
  response : u16At reply 2 &&& 0x8000 = 0x8000

theorem echoes_of_header {query body : Bytes} {p : Packet} {ar : UInt16} (hid : p.id = u16At query 0)
    (hqr : p.flags &&& 0x8000 = 0x8000) : Echoes query (headerOf p ar ++ body) := by
  refine ⟨(u16At_header _ _ _ _ _ _ _).1.trans hid, ?_⟩
  have hflags : u16At (headerOf p ar ++ body) 2 = p.flags := join16_split p.flags
  rw [hflags, hqr]

section
variable {σ : Type} {h : Handler σ} {zones : List Zone} {clocks : Clocks} {peer : IpAddr} {recursion : Recursion}
  {data : Bytes} {cache : Cache} {s : σ} {p : Packet} {edns : Bool}

/-- Every reply has the ID of its query, and QR set. -/
theorem handleQuery_header (hr : (handleQuery h zones clocks peer recursion data cache s).response = .reply p edns) :
    3 ≤ data.length ∧ p.id = u16At data 0 ∧ p.flags &&& 0x8000 = 0x8000 := by
  have hset (c : UInt8) {id flags : UInt16} : ((Packet.newResponse id flags).setRcode c).flags &&& 0x8000 = 0x8000 :=
    ((repliesTo_newResponse id flags).setRcode (p := Packet.newResponse id flags) c).fields.1
  unfold handleQuery at hr
  dsimp only at hr
  split at hr
  · cases hr
  · next hstart =>
    have hlen : 3 ≤ data.length := by
      by_contra hshort
      exact hstart (.inl (Nat.lt_of_not_le hshort))
    refine ⟨hlen, ?_⟩
    have hid := messageId_eq (Nat.le_of_succ_le hlen)
    split at hr
    · cases hr
      exact ⟨hid, hset _⟩
    · cases hparse : parsePacket data with
      | error e =>
        rw [hparse] at hr
        cases hr
        exact ⟨hid, hset _⟩
      | ok pkt =>
        rw [hparse] at hr
        obtain ⟨hpid, hflags⟩ := handlePacket_header h hr
        exact ⟨hpid.trans (questions_of_parse hparse).2.1, hflags.fields.1⟩

theorem maybeSignResponse_echoes (hmac : Hmac) (now : Nat) (keyring : TsigKeyring) (hid : p.id = u16At data 0)
    (hqr : p.flags &&& 0x8000 = 0x8000) : Echoes data (maybeSignResponse hmac now keyring data (serialize p edns)) := by
  unfold maybeSignResponse
  split
  · rw [signMessage_eq]
    exact echoes_of_header hid hqr
  · rw [serialize_eq_headerOf]
    exact echoes_of_header hid hqr

/-- A reply that is truncated for a datagram has the ID as well. -/
theorem Echoes.sendUdp {resp : Bytes} (hlen : 3 ≤ data.length) (he : Echoes data resp) :
    Echoes data (Ironbind.sendUdp data resp) := by
  unfold Ironbind.sendUdp
  split
  · unfold buildTruncated
    split
    · next pkt hparse =>
      have hflags : RepliesTo pkt.flags ((0x8000 ||| (pkt.flags &&& 0x0100) ||| 0x0080) ||| 0x0200 ||| 0x0080) :=
        ((repliesTo_newResponse pkt.id pkt.flags).or_bit 0x0200 rfl).or_bit 0x0080 rfl
      rw [Response.bytes, serialize_eq_headerOf]
      exact echoes_of_header (questions_of_parse hparse).2.1 hflags.fields.1
    · have hflags := (repliesTo_newResponse (messageId data) 0).setRcode (p := Packet.newResponse (messageId data) 0)
        RCODE_FORMERR
      rw [formerrResponse, Response.bytes, serialize_eq_headerOf]
      exact echoes_of_header (messageId_eq (Nat.le_of_succ_le hlen)) hflags.fields.1
  · exact he

/-- What goes over the wire for a query, signed or not, truncated or not, has its ID. -/
theorem respond_echoes {resp : Bytes}
    (hready : (respond h zones clocks peer recursion data cache s).1 = .Ready (some resp)) :
    QueryBit data ∧ Echoes data (sendUdp data resp) := by
  have hquery : QueryBit data := by
    by_contra hresponse
    rw [respond_drops_responses hresponse] at hready
    cases hready
  refine ⟨hquery, ?_⟩
  cases hr : (handleQuery h zones clocks peer recursion data cache s).response with
  | drop => simp only [respond, hr, Response.toAnswer] at hready; cases hready
  | recursive => simp only [respond, hr, Response.toAnswer] at hready; cases hready
  | reply p edns =>
    obtain ⟨hlen, hid, hqr⟩ := handleQuery_header hr
    simp only [respond, hr, Response.toAnswer] at hready
    cases hready
    exact (maybeSignResponse_echoes h.hmac clocks.sign h.tsigKeys hid hqr).sendUdp hlen

end

namespace UdpService
variable {σ : Type}

/-- A thread that handles a query in this mode gets the datagram ready. -/
def RepliesIn (σ : Type) (recursion : Recursion) (r : Received) (datagram : Bytes) : Prop :=
  ∃ (v : Option (Serving σ)) (resp : Bytes), answerCatchingPanics v r recursion = .Ready (some resp) ∧
    datagram = sendUdp r.data resp

/-- A receiver has found that a query needs an upstream lookup. -/
def NeedsLookup (σ : Type) (r : Received) : Prop := ∃ v : Option (Serving σ), answerCatchingPanics v r .Defer = .Recursive

/-- What is sent was made ready for its query, by a receiver or, after that deferred it, by a worker. -/
structure OwnAnswers (σ : Type) (st : UdpService) : Prop where
  sent : ∀ s ∈ st.sent, RepliesIn σ .Defer s.1 s.2 ∨ NeedsLookup σ s.1 ∧ RepliesIn σ .Resume s.1 s.2
  deferring : ∀ r, .deferring r ∈ st.receivers → NeedsLookup σ r
  pending : ∀ r ∈ st.pool.pending, NeedsLookup σ r

theorem RepliesIn.echoes {recursion : Recursion} {r : Received} {datagram : Bytes} (h : RepliesIn σ recursion r datagram) :
    QueryBit r.data ∧ Echoes r.data datagram := by
  obtain ⟨v, resp, hready, rfl⟩ := h
  cases v with
  | none => cases hready
  | some v => exact respond_echoes hready

theorem ownAnswers_start (settings : ServerSettings) : OwnAnswers σ (start settings) where
  sent := fun _ hs => absurd hs List.not_mem_nil
  deferring := by
    intro r hr
    cases (List.mem_replicate.mp hr).2
  pending := by
    intro r hr
    rw [start, ThreadPool.new, Pool.pending_empty] at hr
    exact absurd hr (Multiset.notMem_zero r)

theorem OwnAnswers.deferring_set {st : UdpService} (h : OwnAnswers σ st) (i : Nat) {y : Receiver}
    (hy : ∀ r, y = .deferring r → NeedsLookup σ r) : ∀ r, .deferring r ∈ st.receivers.set i y → NeedsLookup σ r := by
  intro r hr
  obtain hr | hr := List.mem_or_eq_of_mem_set hr
  · exact h.deferring r hr
  · exact hy r hr.symm

theorem OwnAnswers.sent_concat {st : UdpService} (h : OwnAnswers σ st) {r : Received} {datagram : Bytes}
    (hs : RepliesIn σ .Defer r datagram ∨ NeedsLookup σ r ∧ RepliesIn σ .Resume r datagram) :
    ∀ s ∈ st.sent ++ [(r, datagram)], RepliesIn σ .Defer s.1 s.2 ∨ NeedsLookup σ s.1 ∧ RepliesIn σ .Resume s.1 s.2 := by
  intro s hmem
  obtain hmem | hmem := List.mem_append.mp hmem
  · exact h.sent s hmem
  · rw [List.mem_singleton.mp hmem]
    exact hs

theorem OwnAnswers.answer {st : UdpService} (h : OwnAnswers σ st) (i : Nat) (v : Option (Serving σ)) (r : Received) :
    OwnAnswers σ (st.answer i r (answerCatchingPanics v r .Defer)) := by
  have hwaiting : ∀ r, Receiver.waiting = .deferring r → NeedsLookup σ r := fun _ he => Receiver.noConfusion he
  unfold UdpService.answer
  split
  · next resp hready => exact ⟨h.sent_concat (.inl ⟨v, resp, hready, rfl⟩), h.deferring_set i hwaiting, h.pending⟩
  · exact ⟨h.sent, h.deferring_set i hwaiting, h.pending⟩
  · next hrecursive =>
    refine ⟨h.sent, h.deferring_set i fun r' he => ?_, h.pending⟩
    cases he
    exact ⟨v, hrecursive⟩

theorem OwnAnswers.submit {st : UdpService} (h : OwnAnswers σ st) {i : Nat} {r : Received}
    (hi : st.receivers[i]? = some (.deferring r)) : OwnAnswers σ (st.submit i r) := by
  have hset := h.deferring_set i (y := .waiting) fun _ he => Receiver.noConfusion he
  have hr : NeedsLookup σ r := h.deferring r (List.mem_of_getElem? hi)
  unfold UdpService.submit
  split
  · next pool hpool =>
    refine ⟨h.sent, hset, fun r' hr' => ?_⟩
    rw [Pool.pending_submit hpool, Multiset.mem_add, Multiset.mem_singleton] at hr'
    obtain rfl | hr' := hr'
    · exact hr
    · exact h.pending r' hr'
  · exact ⟨h.sent, hset, h.pending⟩

theorem OwnAnswers.resume {st : UdpService} (h : OwnAnswers σ st) {w : Nat} {v : Option (Serving σ)} {r : Received}
    {pool : Pool Received} (hpool : st.pool.finish w = some (r, pool)) :
    OwnAnswers σ (st.resume pool r (answerCatchingPanics v r .Resume)) := by
  have hpending := Pool.pending_finish hpool
  have hr : NeedsLookup σ r :=
    h.pending r (by rw [hpending]; exact Multiset.mem_add.mpr (.inl (Multiset.mem_singleton_self r)))
  have hrest : ∀ r' ∈ pool.pending, NeedsLookup σ r' := fun r' hr' =>
    h.pending r' (by rw [hpending]; exact Multiset.mem_add.mpr (.inr hr'))
  unfold UdpService.resume
  split
  · next resp hready => exact ⟨h.sent_concat (.inr ⟨hr, v, resp, hready, rfl⟩), h.deferring, hrest⟩
  · exact ⟨h.sent, h.deferring, hrest⟩

theorem OwnAnswers.moves {st st' : UdpService} {s : UdpStep σ} (h : OwnAnswers σ st) (hmoves : Moves st s st') :
    OwnAnswers σ st' := by
  cases hmoves with
  | @receive i peer port data admitted hi =>
    cases admitted with
    | true => exact ⟨h.sent, h.deferring_set i fun _ he => Receiver.noConfusion he, h.pending⟩
    | false => exact ⟨h.sent, h.deferring, h.pending⟩
  | answer hi => exact h.answer _ _ _
  | submit hi => exact h.submit hi
  | take hpool => exact ⟨h.sent, h.deferring, by rw [Pool.pending_take hpool]; exact h.pending⟩
  | resume hpool => exact h.resume hpool

/-- **What is sent answers its query**: a datagram goes to the source of a query that was read and let through, has its
    ID, and is what a receiver, or a worker after a receiver deferred it, made ready for that query. -/
theorem udp_answers (settings : ServerSettings) (steps : List (UdpStep σ)) {r : Received} {datagram : Bytes}
    (hs : (r, datagram) ∈ ((start settings).run steps).sent) :
    r ∈ ((start settings).run steps).received ∧ r ∉ ((start settings).run steps).limited ∧ QueryBit r.data ∧
      Echoes r.data datagram ∧
        (RepliesIn σ .Defer r datagram ∨ NeedsLookup σ r ∧ RepliesIn σ .Resume r datagram) := by
  have hown : OwnAnswers σ ((start settings).run steps) :=
    run_preserves (fun _ _ _ hm h => h.moves hm) (ownAnswers_start settings)
  obtain ⟨hreceived, hadmitted⟩ := (accounts_run settings steps).sent_once.2 _ hs
  have hready := hown.sent _ hs
  obtain ⟨hquery, hechoes⟩ : QueryBit r.data ∧ Echoes r.data datagram := hready.elim RepliesIn.echoes fun h => h.2.echoes
  exact ⟨hreceived, hadmitted, hquery, hechoes, hready⟩

/-- A server without zones that recurses for everyone, or for nobody. -/
def letterServing (recursive : Bool) : Serving Unit where
  handler :=
    { plainHandler with
      config := { plainHandler.config with allowRecursion := if recursive then [⟨.V4 0, 0⟩] else [] } }
  zones := []
  manager := .new
  cache := .new
  upstream := ()
  clocks := noClocks
  signTimes := fun _ => 0
  peer := .V4 0
  admitted := true

/-- Two datagrams. The first is handed to the pool, and answered by a worker after the receiver has answered the second. -/
def letterSteps : List (UdpStep Unit) :=
  [.receive 0 (.V4 0) 5353 (letterMessage 1 0 0x61) true, .answer 0 (some (letterServing true)), .submit 0,
    .receive 0 (.V4 0) 5354 (letterMessage 1 0 0x61) true, .take 0, .answer 0 (some (letterServing false)),
    .resume 0 (some (letterServing true))]

theorem letterSteps_sent : ((start .default).run letterSteps).sent =
    [(⟨1, .V4 0, 5354, letterMessage 1 0 0x61⟩, serialize letterReply false),
      (⟨0, .V4 0, 5353, letterMessage 1 0 0x61⟩, serialize { letterReply with flags := 0x8182 } false)] := by
  decide

theorem udp_answers_letter : ∃ r datagram, (r, datagram) ∈ ((start .default).run letterSteps).sent ∧
    r ∈ ((start .default).run letterSteps).queued ∧
    r ∈ ((start .default).run letterSteps).received ∧ r ∉ ((start .default).run letterSteps).limited ∧ QueryBit r.data ∧
      Echoes r.data datagram ∧
        (RepliesIn Unit .Defer r datagram ∨ NeedsLookup Unit r ∧ RepliesIn Unit .Resume r datagram) := by
  have hsent : (⟨0, .V4 0, 5353, letterMessage 1 0 0x61⟩, serialize { letterReply with flags := 0x8182 } false) ∈
      ((start .default).run letterSteps).sent := by
    rw [letterSteps_sent]
    exact .tail _ (.head _)
  have hqueued : ((start .default).run letterSteps).queued = [⟨0, .V4 0, 5353, letterMessage 1 0 0x61⟩] := by decide
  exact ⟨_, _, hsent, by rw [hqueued]; exact .head _, udp_answers .default letterSteps hsent⟩

/-! Coming to rest. -/

/-- A step other than the reading of a datagram. -/
def Internal : UdpStep σ → Prop
  | .receive .. => False
  | _ => True

/-- The steps of a thread that meets this server, other than the reading of a datagram. -/
def threadSteps (v : Option (Serving σ)) (i : Nat) : List (UdpStep σ) := [.answer i v, .submit i, .take i, .resume i v]

/-- Steps that each do something, none of them reading a datagram. -/
def Works : UdpService → List (UdpStep σ) → Prop
  | _, [] => True
  | st, s :: steps => Internal s ∧ Moves st s (st.step s) ∧ Works (st.step s) steps

/-- The steps that the queries in hand and in the pool may still take. -/
def remaining (st : UdpService) : Nat := (st.receivers.map Receiver.left).sum + st.pool.work

/-- The queries in hand and in the pool. -/
def inFlight (st : UdpService) : Nat := st.held.length + Multiset.card st.pool.pending

/-- So many receivers and workers, and so much room in the queue. -/
structure Sized (st : UdpService) (receivers workers capacity : Nat) : Prop where
  receivers : st.receivers.length = receivers
  workers : st.pool.hands.length = workers
  capacity : st.pool.capacity = capacity

/-- **The threads come to rest**: with no more datagrams they have at most so many steps left, no query is stuck while any
    is in flight, whatever it meets, and none has been left without a fate when all of them are done. -/
structure Settles (σ : Type) (st : UdpService) (bound : Nat) : Prop where
  bounded : ∀ steps : List (UdpStep σ), Works st steps → steps.length ≤ bound
  goes_on : st.inFlight ≠ 0 → ∀ v : Option (Serving σ), ∃ i, ∃ s ∈ threadSteps v i, Moves st s (st.step s)
  settled : st.inFlight = 0 →
    (st.limited + st.sent.map Prod.fst + st.silent + st.overflowed : Multiset Received) = st.received

section
variable {st st' : UdpService} {s : UdpStep σ}

theorem left_set {receivers : List Receiver} {i : Nat} {x : Receiver} (hi : receivers[i]? = some x) (y : Receiver) :
    ((receivers.set i y).map Receiver.left).sum + x.left = (receivers.map Receiver.left).sum + y.left := by
  obtain ⟨hlt, rfl⟩ := List.getElem?_eq_some_iff.mp hi
  have hsum (z : Receiver) : ((receivers.set i z).map Receiver.left).sum =
      ((receivers.map Receiver.left).take i).sum + z.left + ((receivers.map Receiver.left).drop (i + 1)).sum := by
    rw [List.map_set, List.sum_set, if_pos (by rw [List.length_map]; exact hlt)]
  have hself := hsum receivers[i]
  rw [List.set_getElem_self] at hself
  have hy := hsum y
  omega

/-- Each step that does something is one fewer to take. -/
theorem remaining_lt (hmoves : Moves st s st') (hinternal : Internal s) : st'.remaining < st.remaining := by
  cases hmoves with
  | receive hi => exact hinternal.elim
  | @answer i v r hi =>
    have hwaiting := left_set hi .waiting
    have hdeferring := left_set hi (.deferring r)
    simp only [Receiver.left] at hwaiting hdeferring
    unfold UdpService.answer
    split <;> (simp only [remaining]; omega)
  | @submit i r hi =>
    have hwaiting := left_set hi .waiting
    simp only [Receiver.left] at hwaiting
    unfold UdpService.submit
    split
    · next pool hpool =>
      have hwork := Pool.work_submit hpool
      simp only [remaining]
      omega
    · simp only [remaining]
      omega
  | take hpool =>
    have hwork := Pool.work_take hpool
    simp only [remaining]
    omega
  | @resume w v r pool hpool =>
    have hwork := Pool.work_finish hpool
    unfold UdpService.resume
    split <;> (simp only [remaining]; omega)

theorem works_length_le : ∀ {steps : List (UdpStep σ)} {st : UdpService}, Works st steps → steps.length ≤ st.remaining
  | [], _, _ => Nat.zero_le _
  | s :: steps, st, h => by
    have hlt := remaining_lt h.2.1 h.1
    have hrest := works_length_le h.2.2
    rw [List.length_cons]
    omega

theorem remaining_le (st : UdpService) :
    st.remaining ≤ 4 * st.receivers.length + 2 * st.pool.capacity + st.pool.hands.length := by
  have hsum : (st.receivers.map Receiver.left).sum ≤ (st.receivers.map Receiver.left).length • 4 := by
    apply List.sum_le_card_nsmul
    intro n hn
    obtain ⟨x, -, rfl⟩ := List.mem_map.mp hn
    cases x with
    | waiting => exact Nat.zero_le 4
    | answering r => exact Nat.le_refl 4
    | deferring r => exact Nat.le_succ 3
  rw [List.length_map, smul_eq_mul] at hsum
  have hwork := st.pool.work_le
  rw [remaining]
  omega

theorem Sized.moves {receivers workers capacity : Nat} (h : Sized st receivers workers capacity)
    (hmoves : Moves st s st') :
    Sized st' receivers workers capacity := by
  have hset (i : Nat) (x : Receiver) : (st.receivers.set i x).length = receivers := by rw [List.length_set, h.receivers]
  cases hmoves with
  | @receive i peer port data admitted hi =>
    cases admitted with
    | true => exact ⟨hset _ _, h.workers, h.capacity⟩
    | false => exact ⟨h.receivers, h.workers, h.capacity⟩
  | @answer i v r hi =>
    unfold UdpService.answer
    split <;> exact ⟨hset _ _, h.workers, h.capacity⟩
  | @submit i r hi =>
    unfold UdpService.submit
    split
    · next pool hpool =>
      obtain ⟨-, hhands, hcapacity⟩ := Pool.submit_eq_some hpool
      exact ⟨hset _ _, by rw [hhands, h.workers], by rw [hcapacity, h.capacity]⟩
    · exact ⟨hset _ _, h.workers, h.capacity⟩
  | take hpool =>
    obtain ⟨-, -, hhands, hcapacity⟩ := Pool.take_eq_some hpool
    exact ⟨h.receivers, by rw [hhands, List.length_set, h.workers], by rw [hcapacity, h.capacity]⟩
  | @resume w v r pool hpool =>
    obtain ⟨-, -, hhands, hcapacity⟩ := Pool.finish_eq_some hpool
    have hworkers : pool.hands.length = workers := by rw [hhands, List.length_set, h.workers]
    unfold UdpService.resume
    split <;> exact ⟨h.receivers, hworkers, hcapacity.trans h.capacity⟩

/-- A receiver with a query answers it or hands it over; else a worker goes on. -/
theorem exists_step (hworkers : st.pool.hands ≠ []) (hflight : st.inFlight ≠ 0) (v : Option (Serving σ)) :
    ∃ i, ∃ s ∈ threadSteps v i, Moves st s (st.step s) := by
  by_cases hheld : ∃ (i : Nat) (x : Receiver), st.receivers[i]? = some x ∧ x ≠ .waiting
  · obtain ⟨i, x, hi, hx⟩ := hheld
    cases x with
    | waiting => exact absurd rfl hx
    | answering r => exact ⟨i, .answer i v, by simp [threadSteps], by rw [step, hi]; exact .answer hi⟩
    | deferring r => exact ⟨i, .submit i, by simp [threadSteps], by rw [step, hi]; exact .submit hi⟩
  · have hwaiting : ∀ o ∈ st.receivers.map Receiver.held, o = none := by
      intro o ho
      obtain ⟨x, hx, rfl⟩ := List.mem_map.mp ho
      obtain ⟨i, hi⟩ := List.mem_iff_getElem?.mp hx
      have hx : x = .waiting := by
        by_contra hne
        exact hheld ⟨i, x, hi, hne⟩
      rw [hx]
      rfl
    have hnone : st.held = [] := by
      rw [held, List.eq_replicate_iff.mpr ⟨rfl, hwaiting⟩]
      exact List.reduceOption_replicate_none
    have hpending : st.pool.pending ≠ 0 := by
      intro hzero
      rw [inFlight, hnone, hzero] at hflight
      exact hflight rfl
    obtain ⟨w, htake | hfinish⟩ := st.pool.exists_ready hworkers hpending
    · obtain ⟨⟨r, pool⟩, hpool⟩ := Option.isSome_iff_exists.mp htake
      exact ⟨w, .take w, by simp [threadSteps], by rw [step, hpool]; exact .take hpool⟩
    · obtain ⟨⟨r, pool⟩, hpool⟩ := Option.isSome_iff_exists.mp hfinish
      exact ⟨w, .resume w v, by simp [threadSteps], by rw [step, hpool]; exact .resume hpool⟩

end

theorem sized_start (settings : ServerSettings) : Sized (start settings) (max settings.udpReceivers.toNat 1)
    (max settings.workerThreads.toNat 1) (max settings.workerThreads.toNat 1 * RECURSION_QUEUE_PER_WORKER) where
  receivers := List.length_replicate
  workers := List.length_replicate
  capacity := rfl

/-- **The service never clogs**: it holds no more queries than it has receivers, workers and room in the queue, and
    wherever a run has led, with no more datagrams it comes to rest with a fate for every query. -/
theorem udp_settles (settings : ServerSettings) (steps : List (UdpStep σ)) :
    ((start settings).run steps).inFlight ≤ max settings.udpReceivers.toNat 1 +
        max settings.workerThreads.toNat 1 * (1 + RECURSION_QUEUE_PER_WORKER) ∧
      Settles σ ((start settings).run steps) (4 * max settings.udpReceivers.toNat 1 +
        max settings.workerThreads.toNat 1 * (1 + 2 * RECURSION_QUEUE_PER_WORKER)) := by
  have hsized : Sized ((start settings).run steps) _ _ _ :=
    run_preserves (fun _ _ _ hm h => Sized.moves h hm) (sized_start settings)
  have haccounts := accounts_run settings steps
  generalize (start settings).run steps = st at hsized haccounts
  have hworkers : 1 ≤ max settings.workerThreads.toNat 1 := Nat.le_max_right _ _
  generalize max settings.workerThreads.toNat 1 = workers at hsized hworkers
  obtain ⟨hreceivers, hhands, hcapacity⟩ := hsized
  refine ⟨?_, fun more hmore => ?_, fun hflight v => ?_, fun hrest => ?_⟩
  · have hheld : st.held.length ≤ st.receivers.length := by
      rw [held, ← List.length_map (f := Receiver.held)]
      exact List.reduceOption_length_le _
    have hpending := st.pool.card_pending_le
    rw [inFlight, Nat.mul_add, Nat.mul_one]
    omega
  · have hlen := works_length_le hmore
    have hle := remaining_le st
    rw [hreceivers, hhands, hcapacity] at hle
    rw [Nat.mul_add, Nat.mul_one, Nat.mul_left_comm]
    omega
  · refine exists_step (fun hnil => ?_) hflight v
    rw [hnil] at hhands
    exact absurd hhands (Nat.ne_of_lt hworkers)
  · obtain ⟨hheld, hpending⟩ := Nat.add_eq_zero_iff.mp hrest
    rw [← haccounts.fates, List.length_eq_zero_iff.mp hheld, Multiset.card_eq_zero.mp hpending]
    simp

end UdpService

end Ironbind
