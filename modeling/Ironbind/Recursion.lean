import Ironbind.SignedReplies

/- Who is served from the cache and from upstream, and on which thread. A peer that
   belongs to no network recursion is allowed to (`Network.Member`) gets the same
   answer whatever the cache holds and whatever upstream says: the handler reaches
   neither (`handleQuery_no_recursion`). A query that a UDP receiver defers and the
   recursion pool resumes leaves what one call that waits for upstream leaves
   (`deferThenResume_eq_inline`). -/
namespace Ironbind
open Codec

/-! Networks. -/

/-- The first `n` bits of two addresses are the same. -/
def SameLeading {w : Nat} (n : Nat) (a b : BitVec w) : Prop := ∀ i < n, a.getMsbD i = b.getMsbD i

/-- An address of a network: of its family (IPv4-mapped addresses count as IPv4), with its leading bits. -/
def Network.Member (network : Network) (ip : IpAddr) : Prop :=
  match network.address, ip.toCanonical with
  | .V4 address, .V4 ip => SameLeading network.prefixLength.toNat address ip
  | .V6 address, .V6 ip => SameLeading network.prefixLength.toNat address ip
  | _, _ => False

theorem getMsbD_prefixMask {w : Nat} (p : UInt8) (i : Nat) :
    (prefixMask w p).getMsbD i = decide (i < w ∧ i < p.toNat) := by
  unfold prefixMask
  split
  · next h =>
    rw [BitVec.getMsbD_shiftLeft, BitVec.getMsbD_allOnes]
    exact decide_eq_decide.mpr (by omega)
  · next h =>
    have hno : ¬ (i < w ∧ i < p.toNat) := by omega
    rw [decide_eq_false hno]
    exact BitVec.getMsbD_zero

/-- Addresses that agree under the mask agree in their leading bits. -/
theorem and_prefixMask_eq_iff {w : Nat} (p : UInt8) (a b : BitVec w) :
    a &&& prefixMask w p = b &&& prefixMask w p ↔ SameLeading p.toNat a b := by
  constructor
  · intro h i hi
    by_cases hw : i < w
    · have hbit := congrArg (fun x => BitVec.getMsbD x i) h
      simpa [BitVec.getMsbD_and, getMsbD_prefixMask, hw, hi] using hbit
    · rw [BitVec.getMsbD_of_ge _ _ (not_lt.mp hw), BitVec.getMsbD_of_ge _ _ (not_lt.mp hw)]
  · intro h
    refine BitVec.eq_of_getMsbD_eq fun i hw => ?_
    rw [BitVec.getMsbD_and, BitVec.getMsbD_and, getMsbD_prefixMask]
    by_cases hi : i < p.toNat
    · rw [h i hi]
    · simp [hi]

theorem Network.contains_iff (network : Network) (ip : IpAddr) : network.contains ip = true ↔ network.Member ip := by
  unfold contains Member
  cases network.address with
  | V4 address => cases ip.toCanonical <;> simp [and_prefixMask_eq_iff]
  | V6 address => cases ip.toCanonical <;> simp [and_prefixMask_eq_iff]

/-! Peers without recursion. -/

section
variable {σ τ : Type}

/-- The same server with another upstream. -/
def Handler.withUpstream (h : Handler σ) (u : Upstream τ) : Handler τ :=
  ⟨h.crypto, h.hmac, h.config, h.tsigKeys, u, h.hashOrder⟩

/-- The peer belongs to no network that recursion is allowed to. -/
def Outside (config : ServerConfig) (peer : IpAddr) : Prop := ∀ network ∈ config.allowRecursion, ¬ network.Member peer

/-- What is answered and counted alike, with a cache and an upstream of its own left behind. -/
def Outcome.over (o : Outcome τ) (cache : Cache) (s : σ) : Outcome σ := ⟨o.response, cache, s, o.metrics, o.validations⟩

variable {h : Handler σ} {u : Upstream τ} {zones : List Zone} {clocks : Clocks} {peer : IpAddr} {recursion : Recursion}
  {pkt : Packet} {cache cache' : Cache} {s : σ} {t : τ}

theorem Outside.not_any (hpeer : Outside h.config peer) :
    h.config.allowRecursion.any (fun network => network.contains peer) = false := by
  rw [List.any_eq_false]
  exact fun network hmem hc => hpeer network hmem ((network.contains_iff peer).mp hc)

theorem answerQuestion_outside (hpeer : Outside h.config peer) (q : Question) :
    answerQuestion h zones clocks peer recursion pkt q cache s =
      (answerQuestion (h.withUpstream u) zones clocks peer recursion pkt q cache' t).over cache s := by
  have hnot := hpeer.not_any
  have hnot' : (h.withUpstream u).config.allowRecursion.any (fun network => network.contains peer) = false := hnot
  unfold answerQuestion
  cases authoritativeZone zones q.name with
  | some zone => rfl
  | none => simp only [hnot, hnot']; rfl

theorem handlePacket_outside (hpeer : Outside h.config peer) :
    handlePacket h zones clocks peer recursion pkt cache s =
      (handlePacket (h.withUpstream u) zones clocks peer recursion pkt cache' t).over cache s := by
  unfold handlePacket
  split
  · rfl
  · split
    · rfl
    · cases pkt.questions.head? with
      | none => rfl
      | some q => exact answerQuestion_outside hpeer q

theorem handleQuery_outside (hpeer : Outside h.config peer) (data : Bytes) :
    handleQuery h zones clocks peer recursion data cache s =
      (handleQuery (h.withUpstream u) zones clocks peer recursion data cache' t).over cache s := by
  rw [handleQuery, handleQuery]
  by_cases hstart : data.length < 3 ∨ data.getD 2 0 &&& 0x80 ≠ 0
  · rw [if_pos hstart, if_pos hstart]
    rfl
  · rw [if_neg hstart, if_neg hstart]
    have hsame : ((h.withUpstream u).config.tsigRequireAll ∧ !(h.withUpstream u).tsigKeys.isEmpty ∧
        (verifyMessage (h.withUpstream u).hmac clocks.verify data (h.withUpstream u).tsigKeys).isOk = false) ↔
          (h.config.tsigRequireAll ∧ !h.tsigKeys.isEmpty ∧
            (verifyMessage h.hmac clocks.verify data h.tsigKeys).isOk = false) := Iff.rfl
    by_cases hrefused : h.config.tsigRequireAll ∧ !h.tsigKeys.isEmpty ∧
        (verifyMessage h.hmac clocks.verify data h.tsigKeys).isOk = false
    · rw [if_pos hrefused, if_pos (hsame.mpr hrefused)]
      rfl
    · rw [if_neg hrefused, if_neg (mt hsame.mp hrefused)]
      cases parsePacket data with
      | error e => rfl
      | ok pkt =>
        simp only
        have heq : handlePacket h zones clocks peer recursion pkt cache s =
            (handlePacket (h.withUpstream u) zones clocks peer recursion pkt cache' t).over cache s :=
          handlePacket_outside hpeer
        rw [heq]
        rfl

/-- **No cache snooping and no open resolver.** A peer outside the allowed networks gets the same answer from two
    servers that differ in what they have cached and in their upstream; the cache and upstream are left alone. -/
theorem handleQuery_no_recursion (h : Handler σ) (u : Upstream τ) (zones : List Zone) (clocks : Clocks) (peer : IpAddr)
    (hpeer : Outside h.config peer) (recursion : Recursion) (data : Bytes) (cache cache' : Cache) (s : σ) (t : τ) :
    (handleQuery h zones clocks peer recursion data cache s).response =
        (handleQuery (h.withUpstream u) zones clocks peer recursion data cache' t).response ∧
      (handleQuery h zones clocks peer recursion data cache s).metrics =
        (handleQuery (h.withUpstream u) zones clocks peer recursion data cache' t).metrics ∧
      (handleQuery h zones clocks peer recursion data cache s).cache = cache ∧
      (handleQuery h zones clocks peer recursion data cache s).upstream = s := by
  have heq : handleQuery h zones clocks peer recursion data cache s =
      (handleQuery (h.withUpstream u) zones clocks peer recursion data cache' t).over cache s :=
        handleQuery_outside hpeer data
  rw [heq]
  exact ⟨rfl, rfl, rfl, rfl⟩

end

/-- A server that recurses for 10.0.0.0/8. -/
def localHandler : Handler Unit :=
  { plainHandler with config := { plainHandler.config with allowRecursion := [⟨.V4 (BitVec.ofNat 32 0x0A000000), 8⟩] } }

/-- ::ffff:192.0.2.1 gets the same from a server that has cached what it asks for. -/
theorem handleQuery_no_recursion_mapped :
    let peer : IpAddr := .V6 (BitVec.ofNat 128 0xFFFFC0000201)
    let cached := Cache.new.insertNegative 1000 ['a'] .A .NxDomain 300
    let data := serialize namingQuery true
    let outcome := handleQuery localHandler [] noClocks peer .Inline data .new ()
    let outcome' := handleQuery (localHandler.withUpstream localHandler.upstream) [] noClocks peer .Inline data cached ()
    outcome.response = outcome'.response ∧ outcome.metrics = outcome'.metrics ∧ outcome.cache = .new ∧
      outcome.upstream = () :=
  handleQuery_no_recursion localHandler localHandler.upstream [] noClocks (.V6 (BitVec.ofNat 128 0xFFFFC0000201))
    (fun network hmem hin => by
      rw [List.mem_singleton.mp hmem, ← Network.contains_iff] at hin
      exact absurd hin (by decide)) .Inline _ .new _ () ()

/-! Deferred queries. -/

section
variable {σ : Type} (h : Handler σ) (zones : List Zone) (clocks : Clocks) (peer : IpAddr)

/-- A datagram's query: what the receiver cannot answer at once is answered on the recursion pool. -/
def deferThenResume (data : Bytes) (cache : Cache) (s : σ) : Answer × Outcome σ :=
  let deferred := respond h zones clocks peer .Defer data cache s
  match deferred.1 with
  | .Ready _ => deferred
  | .Recursive =>
    let resumed := respond h zones clocks peer .Resume data deferred.2.cache deferred.2.upstream
    (resumed.1, { resumed.2 with
      metrics := deferred.2.metrics ++ resumed.2.metrics
      validations := deferred.2.validations ++ resumed.2.validations })

/-- Two outcomes in a row, what the first counted in front. -/
def Outcome.after {σ : Type} (o : Outcome σ) (earlier : List Metric) : Outcome σ :=
  { o with metrics := earlier ++ o.metrics }

/-- What the call of a receiver (`deferred`) and that of the pool (`resumed`) are to the call that waits. -/
inductive Defers (cache : Cache) (s : σ) (deferred resumed inline : Outcome σ) : Prop where
  | ready (hready : deferred.response ≠ .recursive) (heq : deferred = inline)
  | handedOn (counted : List Metric) (hdeferred : deferred = ⟨.recursive, cache, s, counted, []⟩)
      (heq : resumed.after counted = inline)

variable {h zones clocks peer} {pkt : Packet} {q : Question} {resp : Packet} {cache : Cache} {s : σ}
  {deferred resumed inline : Outcome σ}

/-- What is counted in front is counted by the receiver only. -/
theorem Defers.count (hd : Defers cache s deferred resumed inline) (counted : List Metric) :
    Defers cache s (deferred.after counted) (resumed.after []) (inline.after counted) := by
  cases hd with
  | ready hready heq => exact .ready hready (by rw [heq])
  | handedOn more hdeferred heq =>
    refine .handedOn (counted ++ more) (by rw [hdeferred]; rfl) ?_
    rw [← heq]
    simp [Outcome.after]

theorem cachedAnswer_defers (rd : Bool) (q : Question) (dnssecOk : Bool) (resp : Packet) (cache : Cache) (s : σ) :
    Defers cache s (cachedAnswer h clocks .Defer rd q dnssecOk resp cache s)
      (cachedAnswer h clocks .Resume rd q dnssecOk resp cache s)
      (cachedAnswer h clocks .Inline rd q dnssecOk resp cache s) := by
  unfold cachedAnswer
  cases cache.get clocks.lookup q.name q.qtype with
  | some value =>
    cases value with
    | Records records => exact .ready (fun e => Response.noConfusion e) rfl
    | Negative kind => cases kind <;> exact .ready (fun e => Response.noConfusion e) rfl
  | none =>
    cases rd with
    | false => exact .ready (fun e => Response.noConfusion e) rfl
    | true => exact .handedOn [.cacheMiss] rfl rfl

theorem answerQuestion_defers (q : Question) : Defers cache s (answerQuestion h zones clocks peer .Defer pkt q cache s)
    (answerQuestion h zones clocks peer .Resume pkt q cache s)
      (answerQuestion h zones clocks peer .Inline pkt q cache s) := by
  unfold answerQuestion
  cases authoritativeZone zones q.name with
  | some zone => exact .ready (fun e => Response.noConfusion e) rfl
  | none =>
    simp only
    split
    · exact .ready (fun e => Response.noConfusion e) rfl
    · exact cachedAnswer_defers _ _ _ _ _ _

theorem handlePacket_defers : Defers cache s (handlePacket h zones clocks peer .Defer pkt cache s)
    (handlePacket h zones clocks peer .Resume pkt cache s) (handlePacket h zones clocks peer .Inline pkt cache s) := by
  unfold handlePacket
  split
  · exact .ready (fun e => Response.noConfusion e) rfl
  · split
    · exact .ready (fun e => Response.noConfusion e) rfl
    · cases pkt.questions.head? with
      | none => exact .ready (fun e => Response.noConfusion e) rfl
      | some q => exact answerQuestion_defers q

theorem handleQuery_defers (data : Bytes) : Defers cache s (handleQuery h zones clocks peer .Defer data cache s)
    (handleQuery h zones clocks peer .Resume data cache s) (handleQuery h zones clocks peer .Inline data cache s) := by
  rw [handleQuery, handleQuery, handleQuery]
  by_cases hstart : data.length < 3 ∨ data.getD 2 0 &&& 0x80 ≠ 0
  · simp only [if_pos hstart]
    exact .ready (fun e => Response.noConfusion e) rfl
  · simp only [if_neg hstart]
    split
    · exact .ready (fun e => Response.noConfusion e) rfl
    · cases parsePacket data with
      | error e => exact .ready (fun e => Response.noConfusion e) rfl
      | ok pkt => exact handlePacket_defers.count [.query]

theorem respond_ready {recursion : Recursion} {data : Bytes}
    (hready : (handleQuery h zones clocks peer recursion data cache s).response ≠ .recursive) :
    ∃ resp, (respond h zones clocks peer recursion data cache s).1 = .Ready resp := by
  rw [respond]
  generalize handleQuery h zones clocks peer recursion data cache s = outcome at hready
  obtain ⟨response, _, _, _, _⟩ := outcome
  cases response with
  | drop => exact ⟨none, rfl⟩
  | reply p edns => exact ⟨_, rfl⟩
  | recursive => exact absurd rfl hready

/-- **Deferred and inline handling agree**: in the reply, the cache, the upstream, what is counted and what is
    validated. -/
theorem deferThenResume_eq_inline (h : Handler σ) (zones : List Zone) (clocks : Clocks) (peer : IpAddr) (data : Bytes)
    (cache : Cache) (s : σ) :
    deferThenResume h zones clocks peer data cache s = respond h zones clocks peer .Inline data cache s := by
  have hdefers : Defers cache s (handleQuery h zones clocks peer .Defer data cache s)
      (handleQuery h zones clocks peer .Resume data cache s) (handleQuery h zones clocks peer .Inline data cache s) :=
    handleQuery_defers data
  cases hdefers with
  | ready hready heq =>
    have hsame : respond h zones clocks peer .Defer data cache s = respond h zones clocks peer .Inline data cache s := by
      rw [respond, respond, heq]
    obtain ⟨resp, hresp⟩ : ∃ resp, (respond h zones clocks peer .Defer data cache s).1 = .Ready resp :=
      respond_ready hready
    rw [deferThenResume]
    simp only [hresp]
    exact hsame
  | handedOn counted hdeferred heq =>
    have hfirst : respond h zones clocks peer .Defer data cache s = (.Recursive, ⟨.recursive, cache, s, counted, []⟩) := by
      rw [respond, hdeferred]
      rfl
    rw [deferThenResume, hfirst]
    simp only [respond, ← heq, Outcome.after, List.nil_append]
    generalize handleQuery h zones clocks peer .Resume data cache s = resumed
    obtain ⟨response, _, _, _, _⟩ := resumed
    cases response <;> rfl

end

end Ironbind
