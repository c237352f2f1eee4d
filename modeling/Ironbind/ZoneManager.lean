import Ironbind.Cache
import Ironbind.ZoneFile
import Ironbind.ZoneSigning

/- The zone manager (`zone_manager.rs`): loading and reloading zones, signing them
   when a key is present, and the bounded history of differences that IXFR is
   answered from. What a load reads from outside (files, clock, the order of hash
   maps) is its `LoadEnv`, so every load of a run may meet another one. Failing
   calls leave what they have done so far, as the source does. -/
namespace Ironbind
open Codec

/-! Signing a zone. -/

def KEY_DIRECTORY : Text := "keys".toList

/-- `<key_dir>/K<origin>+008+<kind>.private`. -/
def keyPath (keyDir origin kind : Text) : Text :=
  keyDir ++ "/K".toList ++ origin ++ "+008+".toList ++ kind ++ ".private".toList

/-- What `sign_zone` leaves: the zone as far as it got, the number of signatures or the error
    that stopped it, and the errors it printed and went on after. -/
structure Signing where
  zone : Zone
  result : Except String Nat
  failures : List String

/-- Both keys, named by the origin; a zone may do without a KSK. -/
def signingKeys (rsa : Rsa) (files : Files) (keyDir origin : Text) : Except String (DnsKey × Option DnsKey) := do
  let zsk ← DnsKey.fromPemFile rsa files (keyPath keyDir origin "zsk".toList)
  let ksk := match DnsKey.fromPemFile rsa files (keyPath keyDir origin "ksk".toList) with
    | .ok key => some { key with keyName := origin, flags := 257 }
    | .error _ => none
  pure ({ zsk with keyName := origin }, ksk)

/-- The DNSKEY records entered at the apex; the KSK's tag, when there is one. -/
def publishKeys (rsa : Rsa) (zone : Zone) (ttl : UInt32) (zsk : DnsKey) (ksk : Option DnsKey) :
    Zone × Except String (Option UInt16) :=
  match zsk.dnskeyRecord rsa ttl with
  | .error e => (zone, .error e)
  | .ok zskRec =>
    match ksk with
    | none => (zone.add zskRec, .ok none)
    | some key =>
      match key.dnskeyRecord rsa ttl with
      | .error e => (zone.add zskRec, .error e)
      | .ok kskRec => ((zone.add zskRec).add kskRec, (key.keyTag rsa).map some)

/-- DNSKEY sets are signed by the KSK as well; a failure ends the signing. -/
def kskSigs (rsa : Rsa) (signer : ZoneSigner) (origin : Text) (kskTag : Option UInt16) (rrset : List Record) :
    Except String (List Record) :=
  if rrset.head?.map (·.rtype) = some .DNSKEY then
    match signer.ksk, kskTag with
    | some key, some tag => (signer.signRrsetWithKey rsa key rrset origin tag).map fun rrsig => [rrsig]
    | _, _ => .ok []
  else .ok []

/-- The signatures of one RRset; a failure of the ZSK is printed only. -/
def signOne (rsa : Rsa) (signer : ZoneSigner) (origin : Text) (zskTag : UInt16) (kskTag : Option UInt16)
    (rrset : List Record) : Except String (List Record × List String) := do
  let (sigs, failures) := match signer.signRrset rsa rrset origin zskTag with
    | .ok rrsig => ([rrsig], [])
    | .error e => ([], [e])
  let more ← kskSigs rsa signer origin kskTag rrset
  pure (sigs ++ more, failures)

def signEach (rsa : Rsa) (signer : ZoneSigner) (origin : Text) (zskTag : UInt16) (kskTag : Option UInt16) :
    List (List Record) → Except String (List Record × List String)
  | [] => .ok ([], [])
  | rrset :: rest => do
    let (sigs, failures) ← signOne rsa signer origin zskTag kskTag rrset
    let (moreSigs, moreFailures) ← signEach rsa signer origin zskTag kskTag rest
    pure (sigs ++ moreSigs, failures ++ moreFailures)

def soaTtl (zone : Zone) : UInt32 := ((zone.soa.bind List.head?).map fun soa => soa.ttl).getD 3600

/-- The negative TTL: the smaller of the SOA's TTL and its MINIMUM field. -/
def nsecTtl (zone : Zone) : UInt32 :=
  ((zone.soa.bind List.head?).map fun soa => min soa.ttl (soaMinimumTtl soa.rdata)).getD 3600

def signZone (rsa : Rsa) (files : Files) (now : UInt32) (ho : HashOrder) (zone : Zone) (keyDir : Text) : Signing :=
  let origin := zone.origin
  if (zone.lookup origin .DNSKEY).isSome then ⟨zone, .ok 0, []⟩
  else
    match signingKeys rsa files keyDir origin with
    | .error e => ⟨zone, .error e, []⟩
    | .ok (zsk, ksk) =>
      match zsk.keyTag rsa with
      | .error e => ⟨zone, .error e, []⟩
      | .ok zskTag =>
        match publishKeys rsa zone (soaTtl zone) zsk ksk with
        | (zone, .error e) => ⟨zone, .error e, []⟩
        | (zone, .ok kskTag) =>
          let zone := zone.buildNsecChain (nsecTtl zone)
          match signEach rsa (.new now zsk ksk) origin zskTag kskTag (zone.iterRrsets ho) with
          | .error e => ⟨zone, .error e, []⟩
          | .ok (rrsigs, failures) => ⟨rrsigs.foldl Zone.add zone, .ok rrsigs.length, failures⟩

/-! Differences between zones. -/

structure ZoneDelta where
  fromSerial : UInt32
  toSerial : UInt32
  fromSoa : Record
  toSoa : Record
  removed : List Record
  added : List Record

def soaSerialField : Parser UInt32 := do
  let _mname ← Parser.name
  let _rname ← Parser.name
  Parser.u32

def soaSerial (rdata : Bytes) : Option UInt32 :=
  match soaSerialField.run rdata with
  | .ok serial => some serial
  | .error _ => none

/-- What the difference compares records by. -/
def diffKey (r : Record) : Text × UInt16 × Bytes := (toAsciiLowercase r.name, r.rtype.toU16, r.rdata)

/-- The records of a zone other than SOA records. -/
def diffRecords (ho : HashOrder) (z : Zone) : List Record := (z.iterRrsets ho).flatten.filter fun r => r.rtype ≠ .SOA

/-- The records of the first list whose key is none of the second's. -/
def without (rs others : List Record) : List Record := rs.filter fun r => !(others.map diffKey).contains (diffKey r)

def buildDelta (oldOrder newOrder : HashOrder) (old new : Zone) : Option ZoneDelta := do
  let oldSoa ← old.soa.bind List.head?
  let newSoa ← new.soa.bind List.head?
  let fromSerial ← soaSerial oldSoa.rdata
  let toSerial ← soaSerial newSoa.rdata
  let oldRecords := diffRecords oldOrder old
  let newRecords := diffRecords newOrder new
  pure { fromSerial := fromSerial, toSerial := toSerial, fromSoa := oldSoa, toSoa := newSoa,
         removed := without oldRecords newRecords, added := without newRecords oldRecords }

/-! The manager. -/

structure ZoneManager where
  zones : AList fun _ : Text => Zone
  zoneFiles : AList fun _ : Text => Text
  versions : AList fun _ : Text => UInt32
  history : AList fun _ : Text => List ZoneDelta
  historyCap : Nat

/-- What one load meets outside the manager. -/
structure LoadEnv where
  rsa : Rsa
  files : Files
  now : UInt32
  signOrder : HashOrder
  oldOrder : HashOrder
  newOrder : HashOrder

inductive LoadError where
  | io (e : String)
  | panic (p : Panic)

namespace ZoneManager

def new : ZoneManager where
  zones := ∅
  zoneFiles := ∅
  versions := ∅
  history := ∅
  historyCap := 32

/-- The zone a load publishes: the file's, signed when a ZSK for it is present. -/
def readZone (env : LoadEnv) (origin path : Text) : Except LoadError Zone := do
  let content ← (env.files.read path).mapError LoadError.io
  let z ← ((Zone.new origin).loadFile content).mapError LoadError.panic
  if env.files.present (keyPath KEY_DIRECTORY z.origin "zsk".toList) then
    pure (signZone env.rsa env.files env.now env.signOrder z KEY_DIRECTORY).zone
  else pure z

/-- `push_back`, then `pop_front` down to the cap. -/
def pushDelta (cap : Nat) (queue : List ZoneDelta) (delta : ZoneDelta) : List ZoneDelta :=
  (queue ++ [delta]).drop ((queue ++ [delta]).length - cap)

/-- The difference a load enters into the history. -/
def recordedDelta (env : LoadEnv) (m : ZoneManager) (origin : Text) (z : Zone) : Option ZoneDelta :=
  ((m.zones.lookup origin).bind fun old => buildDelta env.oldOrder env.newOrder old z).filter fun delta =>
    delta.fromSerial ≠ delta.toSerial

/-- A zone that was read takes the place of the one before it. -/
def install (env : LoadEnv) (origin path : Text) (m : ZoneManager) (z : Zone) : ZoneManager :=
  let history := match recordedDelta env m origin z with
    | some delta => m.history.insert origin (pushDelta m.historyCap ((m.history.lookup origin).getD []) delta)
    | none => m.history
  { m with
    history := history
    zoneFiles := m.zoneFiles.insert origin path
    versions := m.versions.insert origin ((m.versions.lookup origin).getD 0 + 1)
    zones := m.zones.insert origin z }

def loadZone (env : LoadEnv) (origin path : Text) (m : ZoneManager) : Except LoadError ZoneManager :=
  (readZone env origin path).map (install env origin path m)

/-- The deltas from `fromSerial` on, as long as each starts where the one before it ends. -/
def walkChain : UInt32 → List ZoneDelta → Option (List ZoneDelta)
  | _, [] => some []
  | expected, d :: queue =>
    if d.fromSerial ≠ expected then none else (walkChain d.toSerial queue).map (d :: ·)

def ixfrChain (m : ZoneManager) (origin : Text) (fromSerial : UInt32) : Option (List ZoneDelta) := do
  let queue ← m.history.lookup origin
  match queue.dropWhile fun d => d.fromSerial ≠ fromSerial with
  | [] => none
  | d :: rest => (walkChain d.toSerial rest).map (d :: ·)

/-- The loop of `reload_all`: a file that cannot be read leaves the manager as it is, a panic
    ends the loop. -/
def reloadLoop : List (LoadEnv × Text × Text) → Nat → ZoneManager → ZoneManager × Except Panic Nat
  | [], count, m => (m, .ok count)
  | (env, origin, path) :: rest, count, m =>
    match loadZone env origin path m with
    | .ok m => reloadLoop rest (count + 1) m
    | .error (.io _) => reloadLoop rest count m
    | .error (.panic p) => (m, .error p)

/-- All zones are loaded again, each in the environment of its own turn, in the order `listed`
    that the hash map walks its files in. -/
def reloadAll (envs : Nat → LoadEnv) (listed : List (Text × Text)) (m : ZoneManager) : ZoneManager × Except Panic Nat :=
  reloadLoop (listed.zipIdx.map fun e => (envs e.2, e.1.1, e.1.2)) 0 m

def getZone (m : ZoneManager) (origin : Text) : Option Zone := m.zones.lookup origin

end ZoneManager

/-! Chains. -/

/-- The differences kept for an origin. -/
def ZoneManager.queue (m : ZoneManager) (origin : Text) : List ZoneDelta := (m.history.lookup origin).getD []

/-- Each difference starts at the serial the one before it ends at, from the first serial to the last. -/
def Contiguous : UInt32 → List ZoneDelta → UInt32 → Prop
  | first, [], last => first = last
  | first, d :: ds, last => d.fromSerial = first ∧ Contiguous d.toSerial ds last

instance Contiguous.decidable : ∀ (first : UInt32) (ds : List ZoneDelta) (last : UInt32),
    Decidable (Contiguous first ds last)
  | first, [], last => inferInstanceAs (Decidable (first = last))
  | first, d :: ds, last =>
    have := Contiguous.decidable d.toSerial ds last
    inferInstanceAs (Decidable (d.fromSerial = first ∧ Contiguous d.toSerial ds last))

/-- A history from the earliest difference on that starts at a serial. -/
def runFrom (serial : UInt32) (queue : List ZoneDelta) : List ZoneDelta := queue.dropWhile fun d => d.fromSerial ≠ serial

theorem runFrom_suffix (serial : UInt32) (queue : List ZoneDelta) : runFrom serial queue <:+ queue :=
  List.dropWhile_suffix _

theorem fromSerial_of_runFrom {serial : UInt32} {queue rest : List ZoneDelta} {d : ZoneDelta}
    (h : runFrom serial queue = d :: rest) : d.fromSerial = serial := by
  have hnot := List.head?_dropWhile_not (fun d : ZoneDelta => decide (d.fromSerial ≠ serial)) queue
  rw [show queue.dropWhile _ = d :: rest from h] at hnot
  simpa using hnot

/-- The last difference ends at the last serial. -/
theorem Contiguous.getLast? : ∀ {ds : List ZoneDelta} {first last : UInt32}, Contiguous first ds last → ds ≠ [] →
    ds.getLast?.map ZoneDelta.toSerial = some last
  | [], _, _, _, hne => absurd rfl hne
  | [_], _, _, h, _ => congrArg some h.2
  | _ :: d :: ds, _, _, h, _ => by
    rw [List.getLast?_cons_cons]
    exact Contiguous.getLast? h.2 (List.cons_ne_nil d ds)

namespace ZoneManager

theorem walkChain_iff : ∀ {queue ds : List ZoneDelta} {first : UInt32},
    walkChain first queue = some ds ↔ ds = queue ∧ ∃ last, Contiguous first queue last
  | [], ds, first => by
    rw [walkChain, Option.some.injEq]
    exact ⟨fun h => ⟨h.symm, first, rfl⟩, fun h => h.1.symm⟩
  | d :: queue, ds, first => by
    rw [walkChain]
    by_cases heq : d.fromSerial = first
    · rw [if_neg (not_not.mpr heq), Option.map_eq_some_iff]
      constructor
      · rintro ⟨rest, hrest, rfl⟩
        obtain ⟨rfl, last, hlinked⟩ := walkChain_iff.mp hrest
        exact ⟨rfl, last, heq, hlinked⟩
      · rintro ⟨rfl, last, -, hlinked⟩
        exact ⟨queue, walkChain_iff.mpr ⟨rfl, last, hlinked⟩, rfl⟩
    · rw [if_pos heq]
      exact ⟨fun h => absurd h.symm (Option.some_ne_none ds), fun ⟨_, _, h, _⟩ => absurd h heq⟩

/-- A chain is the history from the earliest difference on that starts at the serial, when it is linked to its end. -/
theorem ixfrChain_iff {m : ZoneManager} {origin : Text} {first : UInt32} {ds : List ZoneDelta} :
    m.ixfrChain origin first = some ds ↔
      ds = runFrom first (m.queue origin) ∧ ds ≠ [] ∧ ∃ last, Contiguous first ds last := by
  rw [ixfrChain, queue]
  cases m.history.lookup origin with
  | none => exact ⟨fun h => absurd h.symm (Option.some_ne_none ds), fun h => absurd h.1 h.2.1⟩
  | some queue =>
    rw [Option.bind_eq_bind, Option.bind_some, Option.getD_some, ← runFrom]
    cases hrun : runFrom first queue with
    | nil => exact ⟨fun h => absurd h.symm (Option.some_ne_none ds), fun h => absurd h.1 h.2.1⟩
    | cons d rest =>
      dsimp only
      rw [Option.map_eq_some_iff]
      constructor
      · rintro ⟨ds', hrest, rfl⟩
        obtain ⟨rfl, last, hlinked⟩ := walkChain_iff.mp hrest
        exact ⟨rfl, List.cons_ne_nil _ _, last, fromSerial_of_runFrom hrun, hlinked⟩
      · rintro ⟨rfl, -, last, -, hlinked⟩
        exact ⟨rest, walkChain_iff.mpr ⟨rfl, last, hlinked⟩, rfl⟩

/-- A chain is a stretch of the history up to its end. -/
theorem ixfrChain_suffix {m : ZoneManager} {origin : Text} {serial : UInt32} {ds : List ZoneDelta}
    (h : m.ixfrChain origin serial = some ds) :
    ∃ d rest, ds = d :: rest ∧ d.fromSerial = serial ∧ ds <:+ m.queue origin := by
  obtain ⟨rfl, hne, last, hlinked⟩ := ixfrChain_iff.mp h
  obtain ⟨d, rest, hrun⟩ := List.exists_cons_of_ne_nil hne
  exact ⟨d, rest, hrun, fromSerial_of_runFrom hrun, runFrom_suffix serial _⟩

/-- It is made of differences of the history. -/
theorem mem_ixfrChain {m : ZoneManager} {origin : Text} {serial : UInt32} {ds : List ZoneDelta} {d : ZoneDelta}
    (h : m.ixfrChain origin serial = some ds) (hd : d ∈ ds) :
    ∃ queue, m.history.lookup origin = some queue ∧ d ∈ queue := by
  obtain ⟨_, _, -, -, hsuffix⟩ := ixfrChain_suffix h
  have hmem : d ∈ m.queue origin := hsuffix.subset hd
  rw [queue] at hmem
  cases hqueue : m.history.lookup origin with
  | none => rw [hqueue] at hmem; exact absurd hmem List.not_mem_nil
  | some queue => rw [hqueue] at hmem; exact ⟨queue, rfl, hmem⟩

end ZoneManager

end Ironbind
