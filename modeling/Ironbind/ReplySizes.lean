import Ironbind.Framing
import Ironbind.PositiveAnswers

/- When every reply of a connection can be framed, told from what the server has. A frame
   counts 65535 octets, and a reply is a header, the questions of the query written out, and
   records: those a walk over CNAMEs meets in a zone (`Zone.Meets`) with the SOA and the
   proofs behind it, those cached, those from upstream, or a group of at most 64 of a
   transfer. Where each of these leaves room for the questions, an OPT record and a TSIG
   record, what is written splits into the replies again (`connection_splits`). -/
namespace Ironbind
open Codec

/-! Octets of records. -/

theorem recordOctets_cons (r : Record) (rs : List Record) :
    recordOctets (r :: rs) = (Builder.record r).length + recordOctets rs := by
  simp [recordOctets]

theorem recordOctets_le_of_subperm {rs rs' : List Record} (h : rs.Subperm rs') : recordOctets rs ≤ recordOctets rs' := by
  obtain ⟨rs'', hperm, hsub⟩ := h
  have hsame : recordOctets rs'' = recordOctets rs := (hperm.map _).sum_eq
  rw [← hsame]
  exact (hsub.map _).sum_le_sum fun _ _ => Nat.zero_le _

/-! What a zone has for a question. -/

namespace Zone
variable (z : Zone) (qtype : RType) (dnssecOk : Bool)

/-- The records met in so many passes from a name: of a name without the type the CNAME, and on from its target
    if that is in the zone; of a name with it the RRset. Each has its signatures behind it. -/
inductive Meets : Nat → Text → List Record → Prop where
  | stop {passes : Nat} {name : Text} : Meets passes name []
  | found {passes : Nat} {name : Text} (h : (z.lookup name qtype).isSome) :
      Meets (passes + 1) name (z.lastRecords dnssecOk qtype (some name))
  | leaves {passes : Nat} {name : Text} {cname : Record} (hnone : z.lookup name qtype = none)
      (hcname : z.firstCname name = some cname) : Meets (passes + 1) name (z.linkRecords dnssecOk (name, cname))
  | link {passes : Nat} {name target : Text} {cname : Record} {rs : List Record} (hnone : z.lookup name qtype = none)
      (hcname : z.firstCname name = some cname) (htarget : z.cnameTarget name = some target)
      (rest : Meets passes target rs) : Meets (passes + 1) name (z.linkRecords dnssecOk (name, cname) ++ rs)

/-- What may stand behind the SOA of a negative answer: the signed NSEC records of at most two owners, or one
    record of the zone. -/
inductive Proves : List Record → Prop where
  | none : Proves []
  | one (owner : Text) : Proves (z.lastRecords true .NSEC (some owner))
  | two (owner wildcard : Text) (hne : owner ≠ wildcard) :
      Proves (z.lastRecords true .NSEC (some owner) ++ z.lastRecords true .NSEC (some wildcard))
  | hashed {r : Record} (h : z.Holds r) : Proves [r]

/-- The records of an answer: those met, and if they come to a name to deny, the SOA and what proves the denial. -/
inductive Selects (name : Text) : List Record → Prop where
  | answer {rs : List Record} (h : z.Meets qtype dnssecOk MAX_CNAME_CHAIN name rs) : Selects name rs
  | denial {rs proof : List Record} {last : Text} (h : z.Meets qtype dnssecOk MAX_CNAME_CHAIN name rs)
      (hdenies : z.Denies qtype name last) (hproof : z.Proves proof) (hplain : dnssecOk = false → proof = []) :
      Selects name (rs ++ (z.lastRecords dnssecOk .SOA (some z.origin) ++ proof))

variable {z qtype dnssecOk}

theorem cnameLoop_meets :
    ∀ (passes : Nat) (name : Text) (answers : List Record), ∃ rs, z.Meets qtype dnssecOk passes name rs ∧
    (cnameLoop z qtype dnssecOk passes name answers).answers = answers ++ rs
  | 0, name, answers => ⟨[], .stop, by rw [List.append_nil]; rfl⟩
  | passes + 1, name, answers => by
    rw [cnameLoop]
    cases hrs : z.lookup name qtype with
    | some rs =>
      refine ⟨_, .found (by rw [hrs]; rfl), ?_⟩
      simp [lastRecords, rrsetAt, hrs, sigsFor_eq]
    | none =>
      dsimp only
      split
      · exact ⟨[], .stop, by rw [List.append_nil]⟩
      · -- a link is recorded before its target is read, so it is met also where the walk ends
        cases hcname : (z.lookup name .CNAME).bind List.head? with
        | none => exact ⟨[], .stop, by rw [List.append_nil]⟩
        | some cname =>
          have hlink : answers ++ [cname] ++ (if dnssecOk then coveringRrsigs z name .CNAME else []) =
              answers ++ z.linkRecords dnssecOk (name, cname) := by
            rw [sigsFor_eq, List.append_assoc]
            rfl
          dsimp only
          rw [hlink]
          cases htarget : rdataName cname.rdata with
          | error e => exact ⟨_, .leaves hrs hcname, rfl⟩
          | ok target =>
            cases hauth : z.isAuthoritativeFor target with
            | false =>
              refine ⟨_, .leaves hrs hcname, ?_⟩
              dsimp only
              rw [hauth]
              rfl
            | true =>
              obtain ⟨rs, hmeets, hanswers⟩ :=
                cnameLoop_meets passes target (answers ++ z.linkRecords dnssecOk (name, cname))
              have hcnameTarget : z.cnameTarget name = some target := by
                simp only [cnameTarget, hcname, htarget, hauth, if_true]
              refine ⟨_, .link hrs hcname hcnameTarget hmeets, ?_⟩
              dsimp only
              rw [hauth, if_neg (by decide), hanswers, List.append_assoc]

theorem nsec3Walk_mem (target : Text) : ∀ (entries : List (Text × Record)) (prev : Record),
    nsec3Walk target prev entries = prev ∨ nsec3Walk target prev entries ∈ entries.map fun e => e.2
  | [], _ => .inl rfl
  | e :: entries, prev => by
    rw [nsec3Walk]
    split
    · exact .inl rfl
    · rcases nsec3Walk_mem target entries e.2 with h | h
      · rw [h]
        exact .inr List.mem_cons_self
      · exact .inr (List.mem_cons_of_mem _ h)

theorem holds_nsec3Covering {c : Crypto} {ho : HashOrder} {name : Text} {r : Record}
    (h : z.nsec3Covering c ho name = some r) : z.Holds r := by
  rw [nsec3Covering] at h
  obtain ⟨params, -, h⟩ := Option.bind_eq_some_iff.mp h
  obtain ⟨last, hlast, h⟩ := Option.bind_eq_some_iff.mp h
  obtain rfl := Option.some.inj h
  have hall : ∀ e ∈ ((z.iterRrsets ho).flatten.filter fun r => r.rtype = .NSEC3).map fun r => (nsec3Label r.name, r),
      z.Holds e.2 := by
    intro e he
    obtain ⟨r, hr, rfl⟩ := List.mem_map.mp he
    exact mem_flatten_iterRrsets.mp (List.mem_of_mem_filter hr)
  generalize ((z.iterRrsets ho).flatten.filter fun r => r.rtype = .NSEC3).map (fun r => (nsec3Label r.name, r)) = entries
    at hall hlast ⊢
  have hsorted := fun e he =>
    hall e ((List.perm_insertionSort (fun a b : Text × Record => utf8 a.1 ≤ utf8 b.1) entries).mem_iff.mp he)
  rcases nsec3Walk_mem (base32hexEncode (params.hashName c name)) (entries.insertionSort fun a b => utf8 a.1 ≤ utf8 b.1)
    last.2 with h | h
  · rw [h]
    exact hsorted last (List.mem_of_getLast? hlast)
  · obtain ⟨e, he, h⟩ := List.mem_map.mp h
    rw [← h]
    exact hsorted e he

theorem soaAuthority_eq : soaAuthority z dnssecOk = z.lastRecords dnssecOk .SOA (some z.origin) := by
  unfold soaAuthority lastRecords soa
  cases hsoa : z.lookup z.origin .SOA with
  | none => simp [hsoa]
  | some rs => simp [rrsetAt, hsoa, sigsFor_eq]

theorem signedNsec_eq (owner : Text) : signedNsec z owner = z.lastRecords true .NSEC (some owner) := by
  unfold signedNsec lastRecords
  cases hnsec : z.lookup owner .NSEC with
  | none => simp [hnsec]
  | some rs => simp [rrsetAt, hnsec, ← sigsFor_eq]

theorem proves_noDataProof (name : Text) : z.Proves (noDataProof z name) := by
  unfold noDataProof
  split
  · dsimp only
    split
    · rw [signedNsec_eq]
      exact .one _
    · exact .none
  · exact .none

theorem proves_nxDomainProof (c : Crypto) (ho : HashOrder) (name : Text) : z.Proves (nxDomainProof c ho z name) := by
  unfold nxDomainProof
  split
  · next nsec3 hnsec3 => exact .hashed (holds_nsec3Covering hnsec3)
  · split
    · dsimp only
      cases hname : z.nsecCoveringOwner name with
      | none =>
        cases hwild : (z.nsecCoveringOwner (wildcardName z name)).filter fun owner => some owner ≠
          (none : Option Text) with
        | none => exact .none
        | some wildcard =>
          show z.Proves ([] ++ signedNsec z wildcard)
          rw [List.nil_append, signedNsec_eq]
          exact .one _
      | some owner =>
        cases hwild : (z.nsecCoveringOwner (wildcardName z name)).filter fun o => some o ≠ some owner with
        | none =>
          show z.Proves (signedNsec z owner ++ [])
          rw [List.append_nil, signedNsec_eq]
          exact .one _
        | some wildcard =>
          have hne : some wildcard ≠ some owner := by
            have hkept := (Option.filter_eq_some_iff.mp hwild).2
            exact of_decide_eq_true hkept
          show z.Proves (signedNsec z owner ++ signedNsec z wildcard)
          rw [signedNsec_eq, signedNsec_eq]
          exact .two _ _ fun e => hne (congrArg some e.symm)
    · exact .none

end Zone

/-- **The records of an answer from a zone.** -/
theorem selects_zoneAnswer (c : Crypto) (ho : HashOrder) (q : Question) (pkt : Packet) (z : Zone) :
    z.Selects q.qtype pkt.dnssecOk q.name ((zoneAnswer c ho q pkt z).answers ++ (zoneAnswer c ho q pkt z).authority ++
      (zoneAnswer c ho q pkt z).additional) := by
  obtain ⟨rs, hmeets, hanswers⟩ :=
    @Zone.cnameLoop_meets z q.qtype pkt.dnssecOk MAX_CNAME_CHAIN q.name []
  have hadditional : (zoneAnswer c ho q pkt z).additional = [] := by
    unfold zoneAnswer authoritativeAnswer
    dsimp only
    split
    · rfl
    · split <;> rfl
  rw [hadditional, List.append_nil, zoneAnswer_answers, hanswers, List.nil_append]
  by_cases hdenies : ∃ last, z.Denies q.qtype q.name last
  · obtain ⟨last, hdenies⟩ := hdenies
    have hproof : ∀ {proof : List Record}, z.Proves proof → z.Selects q.qtype pkt.dnssecOk q.name
        (rs ++ (soaAuthority z pkt.dnssecOk ++ if pkt.dnssecOk then proof else [])) := by
      intro proof hproof
      rw [Zone.soaAuthority_eq]
      split
      · next hdo => exact .denial hmeets hdenies hproof fun hplain => absurd hdo (by rw [hplain]; decide)
      · exact .denial hmeets hdenies .none fun _ => rfl
    cases hexists : z.nameExists last with
    | true =>
      rw [(zoneAnswer_noData hdenies hexists).2]
      exact hproof (Zone.proves_noDataProof last)
    | false =>
      rw [(zoneAnswer_nxDomain hdenies hexists).2]
      exact hproof (Zone.proves_nxDomainProof c ho last)
  · rw [(zoneAnswer_answered fun last hlast => hdenies ⟨last, hlast⟩).2, List.append_nil]
    exact .answer hmeets

/-! What the server has for a query. -/

/-- The key that the first TSIG record of a query names. -/
def namedKey (keyring : TsigKeyring) (pkt : Packet) : Option TsigKey :=
  (pkt.additional.find? fun r => r.rtype = .TSIG).bind fun r => keyring.get r.name

theorem signingKey_of_parse (keyring : TsigKeyring) {data : Bytes} {pkt : Packet} (h : parsePacket data = .ok pkt) :
    signingKey keyring data = namedKey keyring pkt := by
  unfold signingKey namedKey
  cases hempty : keyring.isEmpty with
  | true => simp [TsigKeyring.get_eq_none_of_isEmpty hempty]
  | false => simp [h]

theorem signingKey_of_error (keyring : TsigKeyring) {data : Bytes} {e : ParseError} (h : parsePacket data = .error e) :
    signingKey keyring data = none := by
  simp [signingKey, h]

section
variable {σ : Type} (v : Serving σ) (data : Bytes) (pkt : Packet)

/-- A reply with the query's questions, these records, an OPT record for a query that has one, and a TSIG record
    under the key it names can be framed. -/
def AnswerFits (rs : List Record) : Prop :=
  (Reply.mk pkt.questions rs (pkt.ednsUdpSize > 0) (namedKey v.handler.tsigKeys pkt)).octets ≤ 65535

/-- The records that the server has for the query leave room: those of the zone it is in, those cached, and
    those that come from upstream when it is resolved. -/
structure AnswersFit : Prop where
  questions : AnswerFits v pkt []
  zone : ∀ q z, pkt.questions.head? = some q → authoritativeZone v.zones q.name = some z →
    ∀ rs, z.Selects q.qtype pkt.dnssecOk q.name rs → AnswerFits v pkt rs
  cached : ∀ q rs, pkt.questions.head? = some q → authoritativeZone v.zones q.name = none →
    v.cache.get v.clocks.lookup q.name q.qtype = some (.Records rs) → AnswerFits v pkt rs
  answered : ∀ q p s, NeedsUpstream v.handler v.zones v.clocks v.peer data v.cache pkt q →
    v.handler.upstream.resolve q.name q.qtype v.upstream = (.Answer p, s) →
    AnswerFits v pkt (p.answers ++ p.authority ++ p.additional)
  denied : ∀ q p s, NeedsUpstream v.handler v.zones v.clocks v.peer data v.cache pkt q →
    v.handler.upstream.resolve q.name q.qtype v.upstream = (.NxDomain p, s) → AnswerFits v pkt p.authority

/-- A message of a transfer with the query's questions and these records can be framed, signed or not. -/
def TransferFits (rs : List Record) : Prop :=
  (Reply.mk pkt.questions rs false (v.handler.tsigKeys.get TRANSFER_KEY)).octets ≤ 65535

/-- No 64 records of the zone that is found, its SOA counted twice, and no 64 in a row or with gaps of the
    history kept for the name are too many octets. -/
structure TransfersFit : Prop where
  refused : Unverified v data → ∀ q, pkt.questions.head? = some q → q.qtype = .AXFR ∨ q.qtype = .IXFR →
    12 + questionOctets pkt.questions ≤ 65535
  whole : ¬ Unverified v data → ∀ q z soa, pkt.questions.head? = some q → q.qtype = .AXFR ∨ q.qtype = .IXFR →
    v.zones.find? (fun z => z.isAuthoritativeFor q.name) = some z → z.soa.bind List.head? = some soa →
    ∀ rs : List Record, rs.length ≤ MAX_RRS_PER_MSG →
      rs.Subperm (soa :: soa :: (z.rrsets.entries.flatMap fun e => e.2).filter fun r => r.rtype ≠ .SOA) →
        TransferFits v pkt rs
  history : ¬ Unverified v data → ∀ q z soa, pkt.questions.head? = some q → q.qtype = .IXFR →
    v.zones.find? (fun z => z.isAuthoritativeFor q.name) = some z → z.soa.bind List.head? = some soa →
    ∀ rs : List Record, rs.length ≤ MAX_RRS_PER_MSG →
      rs.Sublist (soa :: (v.manager.queue q.name).flatMap ZoneDelta.records ++ [soa]) → TransferFits v pkt rs

variable {v data pkt}

theorem reply_octets_le {p : Packet} {edns : Bool} {rs : List Record} {key : Option TsigKey} {n : Nat}
    (hquestions : p.questions = pkt.questions) (hrecords : p.answers ++ p.authority ++ p.additional = rs)
    (hedns : edns = true → p.ednsUdpSize = pkt.ednsUdpSize)
    (hfits : (Reply.mk pkt.questions rs (pkt.ednsUdpSize > 0) key).octets ≤ n) : (p.reply edns key).octets ≤ n := by
  have hopt : (if edns && p.ednsUdpSize > 0 then 11 else 0) ≤
      (if (decide (pkt.ednsUdpSize > 0) : Bool) then 11 else 0) := by
    cases edns with
    | false => exact Nat.zero_le _
    | true => rw [hedns rfl, Bool.true_and]
  simp only [Reply.octets] at hfits
  simp only [Reply.octets, Packet.reply, hquestions, hrecords]
  omega

/-- An answer from upstream, or what stands for it. -/
theorem recursiveAnswer_fits (hfits : AnswersFit v data pkt) {q : Question}
    (hup : NeedsUpstream v.handler v.zones v.clocks v.peer data v.cache pkt q) {p : Packet} {edns : Bool}
    (hr : (recursiveAnswer v.handler v.clocks q pkt.dnssecOk (baseResponse pkt).setRa v.cache v.upstream).response =
      .reply p edns) : (p.reply edns (namedKey v.handler.tsigKeys pkt)).octets ≤ 65535 := by
  have hempty : ∀ edns, ((baseResponse pkt).setRa.setRcode RCODE_SERVFAIL |>.reply edns
      (namedKey v.handler.tsigKeys pkt)).octets ≤ 65535 := fun _ => reply_octets_le rfl rfl (fun _ => rfl) hfits.questions
  unfold recursiveAnswer at hr
  cases hresolve : v.handler.upstream.resolve q.name q.qtype v.upstream with
  | mk result s =>
    rw [hresolve] at hr
    cases result with
    | Answer upstream =>
      dsimp only at hr
      split at hr
      · cases hr
        exact hempty _
      · cases hr
        exact reply_octets_le rfl rfl (fun _ => rfl) (hfits.answered q upstream s hup hresolve)
    | NxDomain upstream =>
      cases hr
      exact reply_octets_le rfl (by simp [baseResponse, Packet.newResponse, Packet.setRa, Packet.setRcode]) (fun _ => rfl)
        (hfits.denied q upstream s hup hresolve)
    | ServFail why =>
      cases hr
      exact hempty _

theorem answerQuestion_fits (hfits : AnswersFit v data pkt) {q : Question} (hask : Asks v.handler v.clocks data pkt q)
    {p : Packet} {edns : Bool}
    (hr : (answerQuestion v.handler v.zones v.clocks v.peer .Inline pkt q v.cache v.upstream).response = .reply p edns) :
    (p.reply edns (namedKey v.handler.tsigKeys pkt)).octets ≤ 65535 := by
  unfold answerQuestion at hr
  cases hzone : authoritativeZone v.zones q.name with
  | some z =>
    simp only [hzone] at hr
    obtain ⟨rfl, -⟩ := Response.reply.inj hr
    -- no update of the answer touches what it repeats of the query
    have hclosed : Packet.Closed fun p => p.questions = pkt.questions ∧ p.ednsUdpSize = pkt.ednsUdpSize :=
      ⟨fun _ h => h, fun _ h => h, fun _ _ h => h, fun _ _ _ _ h => h⟩
    have hkept := authoritativeAnswer_closed hclosed v.handler.crypto v.handler.hashOrder z q pkt.dnssecOk
      (show (baseResponse pkt).questions = pkt.questions ∧
        (baseResponse pkt).ednsUdpSize = pkt.ednsUdpSize from ⟨rfl, rfl⟩)
    exact reply_octets_le hkept.1 rfl (fun _ => hkept.2)
      (hfits.zone q z hask.question hzone _ (selects_zoneAnswer _ _ q pkt z))
  | none =>
    simp only [hzone] at hr
    split at hr
    · cases hr
      exact reply_octets_le rfl rfl (fun _ => rfl) hfits.questions
    · next hallowed =>
      unfold cachedAnswer at hr
      cases hget : v.cache.get v.clocks.lookup q.name q.qtype with
      | some value =>
        rw [hget] at hr
        cases value with
        | Records records =>
          cases hr
          exact reply_octets_le rfl (by simp [baseResponse, Packet.newResponse]) (fun _ => rfl)
            (hfits.cached q records hask.question hzone hget)
        | Negative kind =>
          cases kind <;> cases hr <;> exact reply_octets_le rfl rfl (fun _ => rfl) hfits.questions
      | none =>
        rw [hget] at hr
        dsimp only at hr
        split at hr
        · cases hr
          exact reply_octets_le rfl rfl (fun _ => rfl) hfits.questions
        · next hdesired =>
          have hup : NeedsUpstream v.handler v.zones v.clocks v.peer data v.cache pkt q :=
            ⟨hask, hzone, by simpa using hallowed, hget, by simpa using hdesired⟩
          exact recursiveAnswer_fits hfits hup hr

/-- Whatever becomes of the query, its reply can be framed. -/
theorem publicReplies_fit (hfits : v.admitted = true → ∀ pkt, parsePacket data = .ok pkt → pkt.isResponse = false →
    AnswersFit v data pkt) : ∀ r ∈ publicReplies v data, r.octets ≤ 65535 := by
  intro r hr
  unfold publicReplies at hr
  cases hadmitted : v.admitted with
  | false => simp [hadmitted] at hr
  | true =>
    simp only [hadmitted, Bool.not_true, Bool.false_eq_true, if_false] at hr
    split at hr
    · next p edns hresponse =>
      rw [List.mem_singleton.mp hr]
      -- a reply without questions: as long as the header and the signature
      have hbare : ∀ id code,
          (((Packet.newResponse id 0).setRcode code).reply false (signingKey v.handler.tsigKeys data)).octets
          = 12 + ((signingKey v.handler.tsigKeys data).map tsigOctets).getD 0 := fun _ _ => rfl
      unfold handleQuery at hresponse
      dsimp only at hresponse
      split at hresponse
      · cases hresponse
      · next hstart =>
        have hlength : 3 ≤ data.length := Nat.not_lt.mp (not_or.mp hstart).1
        have hquery : data.getD 2 0 &&& 0x80 = 0 := not_not.mp (not_or.mp hstart).2
        cases hparse : parsePacket data with
        | error e =>
          have hshort : (p.reply edns (signingKey v.handler.tsigKeys data)).octets = 12 := by
            rw [hparse] at hresponse
            split at hresponse
            · cases hresponse
              rw [hbare, signingKey_of_error _ hparse]
              rfl
            · cases hresponse
              rw [hbare, signingKey_of_error _ hparse]
              rfl
          omega
        | ok pkt =>
          have hasks := isResponse_of_octet hparse hquery
          have hfits := hfits hadmitted pkt hparse hasks
          have hquestions := hfits.questions
          rw [signingKey_of_parse _ hparse] at hbare ⊢
          rw [hparse] at hresponse
          split at hresponse
          · cases hresponse
            rw [hbare]
            simp only [AnswerFits, Reply.octets] at hquestions
            omega
          · next hverified =>
            dsimp only at hresponse
            unfold handlePacket at hresponse
            rw [if_neg (by rw [hasks]; decide)] at hresponse
            split at hresponse
            · cases hresponse
              exact @reply_octets_le pkt _ false [] _ _ rfl rfl (fun h => absurd h Bool.false_ne_true) hquestions
            · next hopcode =>
              split at hresponse
              · cases hresponse
                exact @reply_octets_le pkt _ false [] _ _ rfl rfl (fun h => absurd h Bool.false_ne_true) hquestions
              · next q hq =>
                exact answerQuestion_fits hfits
                  ⟨hlength, hquery, hverified, hparse, hasks, not_not.mp hopcode, hq⟩ hresponse
    · exact absurd hr List.not_mem_nil

/-! Messages of transfers. -/

/-- The records of a zone, in whatever order they are walked over. -/
theorem axfrBody_perm (ho : HashOrder) (z : Zone) :
    (axfrBody ho z).Perm ((z.rrsets.entries.flatMap fun e => e.2).filter fun r => r.rtype ≠ .SOA) := by
  have hentries : (ho.entries z.rrsets.entries).Perm z.rrsets.entries := ho.perm _
  have hflat : (z.iterRrsets ho).flatten.Perm (z.rrsets.entries.flatMap fun e => e.2) := by
    rw [Zone.iterRrsets, ← List.flatMap_def]
    exact hentries.flatMap_right _
  exact (List.mergeSort_perm _ _).trans (hflat.filter _)

/-- The records of a message of a full transfer. -/
theorem mem_axfrStream_subperm {ho : HashOrder} {req p : Packet} {z : Zone} {soa : Record}
    (hsoa : z.soa.bind List.head? = some soa) (hp : p ∈ axfrStream ho req z) :
    ∃ rs : List Record, p = buildAxfrMsg req rs ∧ rs.length ≤ MAX_RRS_PER_MSG ∧
      rs.Subperm (soa :: soa :: (z.rrsets.entries.flatMap fun e => e.2).filter fun r => r.rtype ≠ .SOA) := by
  rw [axfrStream, hsoa] at hp
  obtain ⟨rs, hrs, rfl⟩ := List.mem_map.mp hp
  refine ⟨rs, rfl, packRecords_length_le (singleton_length_le soa) hrs,
    (List.sublist_flatten_of_mem hrs).subperm.trans ?_⟩
  rw [packRecords_flatten, List.singleton_append]
  refine List.Perm.subperm (.cons soa ?_)
  exact (List.perm_append_singleton soa _).trans ((axfrBody_perm ho z).cons soa)

/-- A message of a transfer has records of the zone, or of the history kept for the name. -/
theorem transferStream_fits (hfits : TransfersFit v data pkt) (hgood : ¬ Unverified v data) {q : Question} {z : Zone}
    (hq : pkt.questions.head? = some q)
    (hqtype : q.qtype = .AXFR ∨ q.qtype = .IXFR) (hzone : v.zones.find? (fun z => z.isAuthoritativeFor q.name) = some z)
    {p : Packet} (hp : p ∈ transferStream v pkt q z) :
    (p.reply false (v.handler.tsigKeys.get TRANSFER_KEY)).octets ≤ 65535 := by
  have hmessage : ∀ rs : List Record, TransferFits v pkt rs →
      ((buildAxfrMsg pkt rs).reply false (v.handler.tsigKeys.get TRANSFER_KEY)).octets ≤ 65535 := by
    intro rs hrs
    have hrecords : (buildAxfrMsg pkt rs).answers ++ (buildAxfrMsg pkt rs).authority ++
        (buildAxfrMsg pkt rs).additional = rs := by
      simp [buildAxfrMsg, Packet.newResponse, Packet.setAa]
    unfold TransferFits at hrs
    rwa [Packet.reply, hrecords]
  cases hsoa : z.soa.bind List.head? with
  | none =>
    rw [(transferStream_eq_nil_iff v).mpr hsoa] at hp
    cases hp
  | some soa =>
    have hwhole : ∀ {p}, p ∈ axfrStream v.handler.hashOrder pkt z →
        (p.reply false (v.handler.tsigKeys.get TRANSFER_KEY)).octets ≤ 65535 := by
      intro p hp
      obtain ⟨rs, rfl, hlength, hsub⟩ := mem_axfrStream_subperm hsoa hp
      exact hmessage rs (hfits.whole hgood q z soa hq hqtype hzone hsoa rs hlength hsub)
    unfold transferStream at hp
    split at hp
    · exact hwhole hp
    · next haxfr =>
      obtain hstream | ⟨deltas, hchain, hstream⟩ | hstream := ixfrStream_cases v.handler.hashOrder pkt
        (requesterSerial pkt) (v.manager.ixfrChain q.name (requesterSerial pkt)) hsoa <;> dsimp only at hp <;>
          rw [hstream] at hp
      · -- the client is up to date
        rw [List.mem_singleton.mp hp]
        refine hmessage [soa] (hfits.whole hgood q z soa hq hqtype hzone hsoa [soa] (singleton_length_le soa) ?_)
        exact (List.Sublist.cons_cons soa (List.nil_sublist _)).subperm
      · obtain ⟨rs, hrs, rfl⟩ := List.mem_map.mp hp
        refine hmessage rs (hfits.history hgood q z soa hq (hqtype.resolve_left haxfr) hzone hsoa rs
          (chunks_length_le hrs) ?_)
        obtain ⟨_, _, -, -, hsuffix⟩ := ZoneManager.ixfrChain_suffix hchain
        have hinside : rs.Sublist (ixfrRecords soa deltas) := by
          have hflat := List.sublist_flatten_of_mem hrs
          rwa [chunks_flatten (by decide) (Nat.le_refl _)] at hflat
        refine hinside.trans (List.Sublist.append (List.Sublist.cons_cons soa ?_) (List.Sublist.refl _))
        exact hsuffix.sublist.flatMap _
      · exact hwhole hp

/-- What a connection is sent for a query can be framed. -/
theorem selectedReplies_fit (hanswers : v.admitted = true → ∀ pkt, parsePacket data = .ok pkt → pkt.isResponse = false →
    AnswersFit v data pkt) (htransfers : ∀ pkt, parsePacket data = .ok pkt → TransfersFit v data pkt) :
    ∀ r ∈ selectedReplies v data, r.octets ≤ 65535 := by
  intro r hr
  unfold selectedReplies at hr
  cases ht : zoneTransfer v data with
  | none =>
    rw [ht] at hr
    exact publicReplies_fit hanswers r hr
  | some t =>
    rw [ht] at hr
    obtain ⟨pkt, q, hparse, hq, hqtype, ⟨hbad, rfl⟩ | ⟨hgood, z, hzone, rfl⟩⟩ := zoneTransfer_cases v ht
    · rw [List.mem_singleton.mp hr]
      exact (htransfers pkt hparse).refused hbad q hq hqtype
    · obtain ⟨p, hp, rfl⟩ := List.mem_map.mp hr
      exact transferStream_fits (htransfers pkt hparse) hgood hq hqtype hzone hp

end

/-! The connection. -/

/-- The queries of a connection that are answered leave room for what the server has at their turns. -/
def Roomy {σ : Type} (servings : Nat → Serving σ) (input : Bytes) : Prop :=
  ∀ i data pkt, (queriesOf input)[i]? = some data → (servings i).admitted = true → parsePacket data = .ok pkt →
    pkt.isResponse = false → AnswersFit (servings i) data pkt

/-- And so do its transfers. -/
def RoomyTransfers {σ : Type} (servings : Nat → Serving σ) (input : Bytes) : Prop :=
  ∀ i data pkt, (queriesOf input)[i]? = some data → parsePacket data = .ok pkt → TransfersFit (servings i) data pkt

theorem lastRecords_octets_le (z : Zone) (t : RType) (name : Text) :
    recordOctets (z.lastRecords false t (some name)) ≤ recordOctets (z.rrsetAt name t) := by
  show recordOctets (if (z.lookup name t).isSome then z.rrsetAt name t ++ z.sigsFor false name t else []) ≤ _
  split
  · simp [Zone.sigsFor]
  · simp [recordOctets]

/-- Of a name without a CNAME the zone has an RRset or the SOA, for a client that asks for no signatures. -/
theorem selects_octets_le {z : Zone} {qtype : RType} {name : Text} {rs : List Record} (hcname : z.firstCname name = none)
    (h : z.Selects qtype false name rs) :
    recordOctets rs ≤ recordOctets (z.rrsetAt name qtype) + recordOctets (z.rrsetAt z.origin .SOA) := by
  have hmeets : ∀ {passes rs}, z.Meets qtype false passes name rs →
      recordOctets rs ≤ recordOctets (z.rrsetAt name qtype) := by
    intro passes rs hmeets
    cases hmeets with
    | stop => exact Nat.zero_le _
    | found _ => exact lastRecords_octets_le z qtype name
    | leaves _ hsome => rw [hcname] at hsome; cases hsome
    | link _ hsome _ _ => rw [hcname] at hsome; cases hsome
  cases h with
  | answer h => exact Nat.le_add_right_of_le (hmeets h)
  | denial h _ _ hplain =>
    rw [hplain rfl, List.append_nil, recordOctets_append]
    exact Nat.add_le_add (hmeets h) (lastRecords_octets_le z .SOA z.origin)

/-- A server without keys for the zone of two names. -/
def openServing : Serving Unit := { sampleServing with handler := { plainHandler with tsigKeys := .new } }

theorem openServing_unverified (data : Bytes) : ¬ Unverified openServing data := fun h => absurd h.1 (by decide)

/-- A query for the address in it. -/
def addressQuery : Packet := ⟨7, 0, [⟨['w', '.', 'x'], .A, CLASS_IN⟩], [], [], [], 0, false⟩

/-- A plain query for a name of the zone has room. -/
theorem openServing_answersFit {data : Bytes} {pkt : Packet} {q : Question} (hq : pkt.questions = [q])
    (hplain : pkt.ednsUdpSize = 0 ∧ pkt.dnssecOk = false ∧ pkt.additional = [])
    (hzone : authoritativeZone openServing.zones q.name = some sampleZone) (hcname : sampleZone.firstCname q.name = none)
    (hroom : 12 + questionOctets [q] + (recordOctets (sampleZone.rrsetAt q.name q.qtype) +
      recordOctets (sampleZone.rrsetAt sampleZone.origin .SOA)) ≤ 65535) : AnswersFit openServing data pkt := by
  have hkey : namedKey openServing.handler.tsigKeys pkt = none := by rw [namedKey, hplain.2.2]; rfl
  have hfits : ∀ rs, recordOctets rs ≤ recordOctets (sampleZone.rrsetAt q.name q.qtype) +
      recordOctets (sampleZone.rrsetAt sampleZone.origin .SOA) → AnswerFits openServing pkt rs := by
    intro rs hrs
    rw [AnswerFits, hkey, hplain.1, hq]
    show 12 + questionOctets [q] + recordOctets rs + 0 + 0 ≤ 65535
    omega
  have honly : ∀ q', pkt.questions.head? = some q' → q' = q := by
    intro q' hq'
    rw [hq] at hq'
    exact (Option.some.inj hq').symm
  have hup : ∀ q', ¬ NeedsUpstream openServing.handler openServing.zones openServing.clocks openServing.peer data
      openServing.cache pkt q' := by
    intro q' hup
    have hnone := hup.zone
    rw [honly q' hup.question, hzone] at hnone
    cases hnone
  refine ⟨hfits [] (Nat.zero_le _), fun q' z hq' hz rs hrs => ?_, fun q' rs hq' hnone => ?_,
    fun q' p s h => absurd h (hup q'), fun q' p s h => absurd h (hup q')⟩
  · obtain rfl := honly q' hq'
    obtain rfl := Option.some.inj (hzone.symm.trans hz)
    rw [hplain.2.1] at hrs
    exact hfits rs (selects_octets_le hcname hrs)
  · rw [honly q' hq', hzone] at hnone
    cases hnone

theorem sampleQueries_framed : ∀ q ∈ [serialize addressQuery true, serialize axfrQuery true], Framed q := by
  intro q hq
  rw [List.mem_cons, List.mem_singleton] at hq
  rcases hq with rfl | rfl
  · exact ⟨by decide, by decide⟩
  · exact ⟨by decide, by decide⟩

/-- The two queries, and what they are parsed as. -/
theorem sampleQueries_cases {i : Nat} {data : Bytes} {pkt : Packet}
    (hdata : (queriesOf ([serialize addressQuery true, serialize axfrQuery true].flatMap frame))[i]? = some data)
    (hparse : parsePacket data = .ok pkt) : pkt = addressQuery ∨ pkt = axfrQuery := by
  have haddress : parsePacket (serialize addressQuery true) = .ok addressQuery := by decide
  have haxfr : parsePacket (serialize axfrQuery true) = .ok axfrQuery := by decide
  rw [queriesOf_frames sampleQueries_framed] at hdata
  have hmem := List.mem_of_getElem? hdata
  rw [List.mem_cons, List.mem_singleton] at hmem
  rcases hmem with rfl | rfl
  · exact .inl (Except.ok.inj (hparse.symm.trans haddress))
  · exact .inr (Except.ok.inj (hparse.symm.trans haxfr))

theorem sampleQueries_roomy :
    Roomy (fun _ => openServing) ([serialize addressQuery true, serialize axfrQuery true].flatMap frame) := by
  have hzone : ∀ name, sampleZone.isAuthoritativeFor name = true →
      authoritativeZone openServing.zones name = some sampleZone := by
    intro name hauth
    simp [authoritativeZone, openServing, sampleServing, hauth]
  intro i data pkt hdata _ hparse _
  rcases sampleQueries_cases hdata hparse with rfl | rfl
  · exact openServing_answersFit rfl ⟨rfl, rfl, rfl⟩ (hzone _ (by decide)) (by decide) (by decide)
  · exact openServing_answersFit rfl ⟨rfl, rfl, rfl⟩ (hzone _ (by decide)) (by decide) (by decide)

theorem sampleQueries_roomyTransfers :
    RoomyTransfers (fun _ => openServing) ([serialize addressQuery true, serialize axfrQuery true].flatMap frame) := by
  intro i data pkt hdata hparse
  refine ⟨fun hbad => absurd hbad (openServing_unverified data), fun _ q z soa hq hqtype hz hsoa rs _ hrs => ?_,
    fun _ q z soa hq hqtype _ _ _ _ _ => ?_⟩
  · rcases sampleQueries_cases hdata hparse with rfl | rfl
    · obtain rfl := Option.some.inj hq
      rcases hqtype with h | h <;> cases h
    · obtain rfl : sampleZone = z := List.mem_singleton.mp (List.mem_of_find?_eq_some hz) |>.symm
      have hsoa' : soa = (sampleZone.soa.bind List.head?).getD addressWX := by rw [hsoa]; rfl
      have hoctets := recordOctets_le_of_subperm hrs
      have htotal : 12 + questionOctets axfrQuery.questions + recordOctets
          (soa :: soa :: (sampleZone.rrsets.entries.flatMap fun e => e.2).filter fun r => r.rtype ≠ .SOA) ≤ 65535 := by
        rw [hsoa']
        decide
      show 12 + questionOctets axfrQuery.questions + recordOctets rs + 0 + 0 ≤ 65535
      omega
  · rcases sampleQueries_cases hdata hparse with rfl | rfl
    · obtain rfl := Option.some.inj hq
      cases hqtype
    · obtain rfl := Option.some.inj hq
      cases hqtype

end Ironbind
