import Ironbind.Ixfr
import Ironbind.Lib.Slots
import Ironbind.ZoneFields

/- Start-up and reloads. At start-up the configured files are loaded in turn, each under
   the origin its path spells, and a file that cannot be read is passed over. A reload
   reads the files that the manager has listed, and only a load that succeeds lists one.
   So a file is published by every later reload it is readable in exactly when the last
   file read at start-up for its origin was this one (`reload_publishes_iff`): a file
   that was unreadable at that moment is never tried again, and of two files with one
   origin the earlier is forgotten. What fails in a reload changes nothing. -/
namespace Ironbind
open Codec

/-! The origin of a file. -/

/-- `Path::file_name`: the last component, unless it is the parent directory. -/
def fileName (path : Text) : Option Text :=
  match ((path.splitOn '/').filter fun part => part ≠ [] ∧ part ≠ ['.']).getLast? with
  | some ['.', '.'] => none
  | name => name

/-- `Path::file_stem`: the file name up to its last dot, if anything stands before it. -/
def fileStem (path : Text) : Option Text :=
  (fileName path).map fun name =>
    let before := (name.rdropWhile (· ≠ '.')).dropLast
    if before = [] then name else before

/-- `trim_end_matches(".zone")` on the text from its end. -/
def trimZoneLoop : Text → Text
  | 'e' :: 'n' :: 'o' :: 'z' :: '.' :: rest => trimZoneLoop rest
  | s => s

/-- The origin `main` loads a file under. -/
def originOf (path : Text) : Text := (trimZoneLoop ((fileStem path).getD ['.']).reverse).reverse

example : originOf "zones/example.com.zone".toList = "example.com".toList := by decide

/-! Start-up and reloads. -/

/-- The configured files in turn, each read in an environment of its own. -/
def configured (envs : Nat → LoadEnv) (paths : List Text) : List Load :=
  paths.zipIdx.map fun e => (envs e.2, originOf e.1, e.1)

/-- The loop of `main` over the configured files: one that cannot be read is passed over. -/
def loadEach : List Load → ZoneManager → Except Panic ZoneManager
  | [], m => .ok m
  | l :: rest, m =>
    match ZoneManager.loadZone l.1 l.2.1 l.2.2 m with
    | .ok m => loadEach rest m
    | .error (.io _) => loadEach rest m
    | .error (.panic p) => .error p

def startUp (envs : Nat → LoadEnv) (paths : List Text) : Except Panic ZoneManager := loadEach (configured envs paths) .new

/-- The files a manager has listed. -/
def ZoneManager.listed (m : ZoneManager) : List (Text × Text) := m.zoneFiles.entries.map fun e => (e.1, e.2)

/-- `get_zones`. -/
def ZoneManager.getZones (m : ZoneManager) : List Zone := m.zones.entries.map fun e => e.2

/-- A call of `reload_all`: the environments of its turns, and the order the hash map lists the files in. -/
structure Round where
  envs : Nat → LoadEnv
  order : List (Text × Text)

namespace Round

def loads (r : Round) : List Load := r.order.zipIdx.map fun e => (r.envs e.2, e.1.1, e.1.2)

/-- The call takes one manager to another and returns. -/
structure Steps (r : Round) (m m' : ZoneManager) : Prop where
  lists : r.order.Perm m.listed
  returns : ∃ count, ZoneManager.reloadAll r.envs r.order m = (m', .ok count)

end Round

/-- The managers that start-up and any number of reloads lead to. -/
inductive Reached (envs : Nat → LoadEnv) (paths : List Text) : ZoneManager → Prop where
  | startUp {m : ZoneManager} : startUp envs paths = .ok m → Reached envs paths m
  | reload {m m' : ZoneManager} {r : Round} : Reached envs paths m → r.Steps m m' → Reached envs paths m'

def Readable (env : LoadEnv) (path : Text) : Prop := (env.files.read path).isOk = true

instance (env : LoadEnv) (path : Text) : Decidable (Readable env path) := inferInstanceAs (Decidable (_ = _))

/-- A reading of the file during the call is among the zones. -/
def Round.Publishes (r : Round) (path : Text) (m' : ZoneManager) : Prop :=
  ∃ i z, ZoneManager.readZone (r.envs i) (originOf path) path = .ok z ∧ z ∈ m'.getZones

/-- The zones whose files are unreadable in their turns keep content, version and history. -/
def Round.Keeps (r : Round) (m m' : ZoneManager) : Prop :=
  ∀ l ∈ r.loads, ¬ Readable l.1 l.2.2 → m'.zones.lookup l.2.1 = m.zones.lookup l.2.1 ∧
    m'.versions.lookup l.2.1 = m.versions.lookup l.2.1 ∧ m'.history.lookup l.2.1 = m.history.lookup l.2.1

/-- Of the configured files with the origin of this one, it is the last that was readable at start-up. -/
def LastRead (envs : Nat → LoadEnv) (paths : List Text) (path : Text) : Prop :=
  ((configured envs paths).filterMap fun l =>
    if l.2.1 = originOf path then (if Readable l.1 l.2.2 then some l.2.2 else none) else none).getLast? = some path

instance (envs : Nat → LoadEnv) (paths : List Text) (path : Text) : Decidable (LastRead envs paths path) :=
  inferInstanceAs (Decidable (_ = _))

/-! Loads. -/

namespace Load
variable {l : Load}

/-- A file that is unreadable is an error of the call; what is readable is read or panics. -/
theorem read_of_not_readable (h : ¬ Readable l.1 l.2.2) : ∃ e, l.read = .error (.io e) := by
  unfold Readable at h
  unfold read ZoneManager.readZone
  cases hr : l.1.files.read l.2.2 with
  | ok content => rw [hr] at h; exact absurd rfl h
  | error e => exact ⟨e, rfl⟩

theorem read_of_readable (h : Readable l.1 l.2.2) (hp : ∀ p, l.read ≠ .error (.panic p)) : ∃ z, l.read = .ok z := by
  unfold Readable at h
  cases hr : l.1.files.read l.2.2 with
  | error e => rw [hr] at h; cases h
  | ok content =>
    cases hload : (Zone.new l.2.1).loadFile content with
    | error p =>
      refine absurd ?_ (hp p)
      simp only [read, ZoneManager.readZone, hr, Except.mapError, bind, Except.bind, hload]
    | ok z =>
      simp only [read, ZoneManager.readZone, hr, Except.mapError, bind, Except.bind, hload]
      split <;> exact ⟨_, rfl⟩

end Load

namespace ZoneManager

/-- Start-up loads as a reload does. -/
theorem loadEach_eq : ∀ (ls : List Load) (count : Nat) (m : ZoneManager),
    loadEach ls m = (reloadLoop ls count m).2.map fun _ => (reloadLoop ls count m).1
  | [], _, _ => rfl
  | l :: ls, count, m => by
    rw [loadEach, reloadLoop]
    cases loadZone l.1 l.2.1 l.2.2 m with
    | ok m => exact loadEach_eq ls (count + 1) m
    | error e =>
      cases e with
      | io e => exact loadEach_eq ls count m
      | panic p => rfl

/-- A run that returns met no panic, and made its loads one after the other. -/
theorem reloadLoop_ok : ∀ {ls : List Load} {count n : Nat} {m m' : ZoneManager}, reloadLoop ls count m = (m', .ok n) →
    (∀ l ∈ ls, ∀ p, l.read ≠ .error (.panic p)) ∧ m' = ls.foldl attempt m
  | [], _, _, m, m', h => by cases h; exact ⟨by simp, rfl⟩
  | l :: ls, count, n, m, m', h => by
    rw [reloadLoop, loadZone_eq] at h
    rw [List.foldl_cons, List.forall_mem_cons, attempt]
    cases hr : l.read with
    | ok z =>
      rw [hr] at h
      obtain ⟨hp, hm⟩ := reloadLoop_ok h
      exact ⟨⟨fun p hp => (by cases hp), hp⟩, hm⟩
    | error e =>
      rw [hr] at h
      cases e with
      | io e =>
        obtain ⟨hp, hm⟩ := reloadLoop_ok h
        exact ⟨⟨fun p hp => (by cases hp), hp⟩, hm⟩
      | panic p => cases h

theorem loadEach_ok {ls : List Load} {m m' : ZoneManager} (h : loadEach ls m = .ok m') :
    (∀ l ∈ ls, ∀ p, l.read ≠ .error (.panic p)) ∧ m' = ls.foldl attempt m := by
  rw [loadEach_eq ls 0 m] at h
  cases hloop : reloadLoop ls 0 m with
  | mk m₁ result =>
    rw [hloop] at h
    cases result with
    | error p => cases h
    | ok n =>
      cases h
      exact reloadLoop_ok hloop

/-! What a load does to the maps. -/

/-- What the manager has of an origin's zone. -/
def slot (m : ZoneManager) (origin : Text) : Option Zone × Option UInt32 × Option (List ZoneDelta) :=
  (m.zones.lookup origin, m.versions.lookup origin, m.history.lookup origin)

theorem attempt_local : Slots.Local attempt (fun l : Load => l.2.1) slot where
  other := fun m l origin hne => by
    unfold attempt
    cases l.read with
    | error e => rfl
    | ok z =>
      simp only [slot, install, AList.lookup_insert_ne hne.symm]
      split
      · rw [AList.lookup_insert_ne hne.symm]
      · rfl

theorem attempt_files_local : Slots.Local attempt (fun l : Load => l.2.1) fun m origin => m.zoneFiles.lookup origin where
  other := fun m l origin hne => by
    unfold attempt
    cases l.read with
    | error e => rfl
    | ok z => exact AList.lookup_insert_ne hne.symm

/-- What a load lists: its path, when it succeeds. -/
def lists (l : Load) : Option Text := if l.read.isOk then some l.2.2 else none

theorem attempt_lists (m : ZoneManager) (l : Load) :
    (m.attempt l).zoneFiles.lookup l.2.1 = (lists l).or (m.zoneFiles.lookup l.2.1) := by
  unfold attempt lists
  cases l.read with
  | error e => rfl
  | ok z => exact AList.lookup_insert _

/-- The file listed for an origin is the last one read for it. -/
theorem lookup_zoneFiles (ls : List Load) (m : ZoneManager) (origin : Text) :
    (ls.foldl attempt m).zoneFiles.lookup origin =
      ((ls.filterMap fun l => if l.2.1 = origin then lists l else none).getLast?).or (m.zoneFiles.lookup origin) :=
  attempt_files_local.last attempt_lists origin m ls

theorem mem_listed {m : ZoneManager} {origin path : Text} :
    (origin, path) ∈ m.listed ↔ m.zoneFiles.lookup origin = some path := by
  rw [listed, List.mem_map]
  constructor
  · rintro ⟨⟨o, p⟩, he, heq⟩
    cases heq
    exact AList.mem_lookup_iff.mpr he
  · exact fun h => ⟨⟨origin, path⟩, AList.mem_lookup_iff.mp h, rfl⟩

theorem mem_getZones {m : ZoneManager} {z : Zone} : z ∈ m.getZones ↔ ∃ origin, m.zones.lookup origin = some z := by
  rw [getZones, List.mem_map]
  constructor
  · rintro ⟨⟨o, z'⟩, he, rfl⟩
    exact ⟨o, AList.mem_lookup_iff.mpr he⟩
  · exact fun ⟨o, h⟩ => ⟨⟨o, z⟩, AList.mem_lookup_iff.mp h, rfl⟩

theorem nodup_listed (m : ZoneManager) : (m.listed.map fun e => e.1).Nodup := by
  rw [listed, List.map_map]
  exact m.zoneFiles.nodupKeys

end ZoneManager

/-! One reload. -/

namespace Round
variable {r : Round} {m m' : ZoneManager}

theorem mem_loads {l : Load} (h : l ∈ r.loads) : l.2 ∈ r.order := by
  obtain ⟨⟨e, i⟩, he, rfl⟩ := List.mem_map.mp h
  exact List.fst_mem_of_mem_zipIdx he

/-- Every file in the order has its turn. -/
theorem exists_load {e : Text × Text} (h : e ∈ r.order) : ∃ i, (r.envs i, e) ∈ r.loads := by
  obtain ⟨i, hi, rfl⟩ := List.mem_iff_getElem.mp h
  exact ⟨i, List.mem_map.mpr ⟨(r.order[i], i), List.mk_mem_zipIdx_iff_getElem?.mpr (List.getElem?_eq_getElem hi), rfl⟩⟩

theorem map_origin_loads (r : Round) : r.loads.map (fun l => l.2.1) = r.order.map fun e => e.1 := by
  have hfst : r.order = r.order.zipIdx.map fun e => e.1 := (List.zipIdx_map_fst 0 r.order).symm
  rw [loads, List.map_map]
  conv_rhs => rw [hfst, List.map_map]
  rfl

namespace Steps
variable (h : r.Steps m m')
include h

theorem run : (∀ l ∈ r.loads, ∀ p, l.read ≠ .error (.panic p)) ∧ m' = r.loads.foldl ZoneManager.attempt m := by
  obtain ⟨count, hcount⟩ := h.returns
  exact ZoneManager.reloadLoop_ok hcount

theorem nodup : (r.loads.map fun l => l.2.1).Nodup := by
  rw [map_origin_loads]
  exact (h.lists.map _).nodup_iff.mpr m.nodup_listed

/-- What a load does to its origin in a reload is all that the reload does to it. -/
theorem slot_load {l : Load} (hl : l ∈ r.loads) : ∃ s : ZoneManager, s.slot l.2.1 = m.slot l.2.1 ∧
    m'.slot l.2.1 = (s.attempt l).slot l.2.1 := by
  rw [h.run.2]
  exact ZoneManager.attempt_local.once h.nodup hl m

theorem keeps : r.Keeps m m' := by
  intro l hl hu
  obtain ⟨e, he⟩ := Load.read_of_not_readable hu
  obtain ⟨s, hs, hslot⟩ := h.slot_load hl
  have hsame : m'.slot l.2.1 = m.slot l.2.1 := by
    rw [hslot, ZoneManager.attempt, he, hs]
  simpa [ZoneManager.slot] using hsame

theorem publishes {path : Text} (hlisted : m.zoneFiles.lookup (originOf path) = some path)
    (hread : ∀ i, Readable (r.envs i) path) : r.Publishes path m' := by
  obtain ⟨i, hl⟩ := exists_load (h.lists.mem_iff.mpr (ZoneManager.mem_listed.mpr hlisted))
  obtain ⟨z, hz⟩ := Load.read_of_readable (hread i) (h.run.1 _ hl)
  obtain ⟨s, -, hslot⟩ := h.slot_load hl
  refine ⟨i, z, hz, ZoneManager.mem_getZones.mpr ⟨originOf path, ?_⟩⟩
  have hzone : m'.zones.lookup (originOf path) =
      (s.attempt (r.envs i, originOf path, path)).zones.lookup (originOf path) :=
    congrArg Prod.fst hslot
  rw [hzone, ZoneManager.attempt, hz]
  exact AList.lookup_insert _

/-- A reload lists the files that are listed. -/
theorem files (origin : Text) : m'.zoneFiles.lookup origin = m.zoneFiles.lookup origin := by
  rw [h.run.2, ZoneManager.lookup_zoneFiles]
  cases hlast : (r.loads.filterMap fun l => if l.2.1 = origin then ZoneManager.lists l else none).getLast? with
  | none => rfl
  | some path =>
    obtain ⟨l, hl, hlists⟩ := List.mem_filterMap.mp (List.mem_of_getLast? hlast)
    split at hlists
    · next horigin =>
      have hpath : l.2.2 = path := by
        unfold ZoneManager.lists at hlists
        split at hlists
        · exact Option.some.inj hlists
        · cases hlists
      have hmem := ZoneManager.mem_listed.mp (h.lists.mem_iff.mp (mem_loads hl))
      rw [← horigin, hmem, hpath]
      rfl
    · cases hlists

end Steps

end Round

/-! Runs. -/

section
variable {envs : Nat → LoadEnv} {paths : List Text} {m₀ : ZoneManager}

theorem Reached.files (hstart : Ironbind.startUp envs paths = .ok m₀) {m : ZoneManager} (h : Reached envs paths m)
    (origin : Text) :
    m.zoneFiles.lookup origin = m₀.zoneFiles.lookup origin := by
  induction h with
  | startUp hm => rw [Except.ok.inj (hm.symm.trans hstart)]
  | reload _ hr ih => rw [hr.files, ih]

theorem startUp_files (hstart : startUp envs paths = .ok m₀) (origin : Text) : m₀.zoneFiles.lookup origin =
    ((configured envs paths).filterMap fun l =>
      if l.2.1 = origin then (if Readable l.1 l.2.2 then some l.2.2 else none) else none).getLast? := by
  obtain ⟨hp, rfl⟩ := ZoneManager.loadEach_ok hstart
  have hlists : ∀ l ∈ configured envs paths, ZoneManager.lists l = if Readable l.1 l.2.2 then some l.2.2 else none := by
    intro l hl
    unfold ZoneManager.lists
    by_cases hread : Readable l.1 l.2.2
    · obtain ⟨z, hz⟩ := Load.read_of_readable hread (hp l hl)
      rw [hz, if_pos hread]
      rfl
    · obtain ⟨e, he⟩ := Load.read_of_not_readable hread
      rw [he, if_neg hread]
      rfl
  rw [ZoneManager.lookup_zoneFiles]
  have hnew : ZoneManager.new.zoneFiles.lookup origin = none := rfl
  rw [hnew, Option.or_none]
  congr 1
  refine List.filterMap_congr fun l hl => ?_
  rw [hlists l hl]

/-- The file is listed exactly when it was the last one read. -/
theorem listed_iff_lastRead (hstart : startUp envs paths = .ok m₀) (path : Text) :
    m₀.zoneFiles.lookup (originOf path) = some path ↔ LastRead envs paths path := by
  rw [startUp_files hstart, LastRead]

/-- A file is listed under the origin its path spells. -/
theorem origin_of_listed (hstart : startUp envs paths = .ok m₀) {origin path : Text}
    (h : m₀.zoneFiles.lookup origin = some path) : originOf path = origin := by
  rw [startUp_files hstart] at h
  obtain ⟨l, hl, hlists⟩ := List.mem_filterMap.mp (List.mem_of_getLast? h)
  obtain ⟨⟨p, i⟩, -, rfl⟩ := List.mem_map.mp hl
  split at hlists
  · next horigin =>
    split at hlists
    · cases hlists; exact horigin
    · cases hlists
  · cases hlists

/-! A file that is not listed. -/

/-- A file of one directive. -/
def originFile (n : Nat) : Text := "$ORIGIN".toList ++ ' ' :: List.replicate n 'a'

/-- It leaves an empty zone under the origin it names. -/
theorem loadFile_originFile (z : Zone) {n : Nat} (hn : n ≠ 0) :
    z.loadFile (originFile n) = .ok { z with origin := List.replicate n 'a' } := by
  have hne : List.replicate n 'a' ≠ [] := by simpa using hn
  have hchar : ∀ c ∈ List.replicate n 'a', c = 'a' := fun c hc => (List.mem_replicate.mp hc).2
  have hword : IsField (List.replicate n 'a') := isField_of_plain hne fun c hc => by rw [hchar c hc]; decide
  have hfield : IsField "$ORIGIN".toList := by decide
  have hline : FieldLine false "$ORIGIN".toList [List.replicate n 'a'] (originFile n) := by
    have := fieldLine_spaced hfield (List.forall_mem_singleton.mpr hword)
    rwa [List.flatMap_singleton] at this
  have hlines : lines (originFile n) = [originFile n] := by
    have hsplit : (originFile n).splitOn '\n' = [originFile n] := by
      refine List.splitOn_eq_singleton fun hmem => ?_
      rcases List.mem_append.mp hmem with h | h
      · exact absurd h (by decide)
      · rcases List.mem_cons.mp h with h | h
        · exact absurd h (by decide)
        · exact absurd (hchar _ h) (by decide)
    rw [lines, hsplit]
    rfl
  let s : LoadState := ⟨z, 3600, z.origin, z.origin, [], 0⟩
  obtain ⟨text, rest, hload, -, htrim, hspaced⟩ := loadLine_fieldLine (s := s) rfl rfl hline
  have hwords : splitWhitespace ("$ORIGIN".toList ++ rest) = ["$ORIGIN".toList, List.replicate n 'a'] := by
    rw [splitWhitespace_spaced hspaced (List.forall_mem_singleton.mpr fun c hc => by rw [hchar c hc]; rfl)]
    rfl
  have hlower : toAsciiLowercase (trimEndMatches '.' (List.replicate n 'a')) = List.replicate n 'a' := by
    have hlast : (List.replicate n 'a').getLast? ≠ some '.' :=
      fun h => absurd (hchar _ (List.mem_of_getLast? h)) (by decide)
    rw [trimEndMatches_eq_self hlast, toAsciiLowercase, List.map_replicate]
    rfl
  have hstep : loadLine s (originFile n) =
      .ok { s with origin := List.replicate n 'a', zone := { z with origin := List.replicate n 'a' } } := by
    rw [hload, loadText]
    simp only [htrim]
    rw [if_neg (by simp), if_pos (by rfl), hwords]
    simp only [List.getElem?_cons_succ, List.getElem?_cons_zero, hlower]
    rfl
  rw [Zone.loadFile, hlines, List.foldlM_cons, hstep]
  rfl

/-- Only one file can be read. -/
def onlyReads (path content : Text) : LoadEnv where
  rsa := sampleRsa
  files := ⟨fun p => if p = path then .ok content else .error "unreadable", fun _ => false⟩
  now := 0
  signOrder := listOrder
  oldOrder := listOrder
  newOrder := listOrder

theorem readZone_onlyReads (path : Text) {n : Nat} (hn : n ≠ 0) (origin : Text) :
    ZoneManager.readZone (onlyReads path (originFile n)) origin path =
      .ok { Zone.new origin with origin := List.replicate n 'a' } := by
  have hread : (onlyReads path (originFile n)).files.read path = .ok (originFile n) := if_pos rfl
  simp only [ZoneManager.readZone, hread, loadFile_originFile _ hn, Except.mapError, bind, Except.bind]
  rfl

/-- A round in which only this file can be read changes nothing, when the file is not listed. -/
theorem steps_unlisted {m : ZoneManager} {path content : Text} (h : ∀ e ∈ m.listed, e.2 ≠ path) :
    (Round.mk (fun _ => onlyReads path content) m.listed).Steps m m := by
  refine ⟨.refl _, 0, ?_⟩
  have hloop : ∀ ls : List Load, (∀ l ∈ ls, ∃ e, l.read = .error (.io e)) →
      ZoneManager.reloadLoop ls 0 m = (m, .ok 0) := by
    intro ls hls
    induction ls with
    | nil => rfl
    | cons l ls ih =>
      obtain ⟨e, he⟩ := hls l List.mem_cons_self
      rw [ZoneManager.reloadLoop, ZoneManager.loadZone_eq, he]
      exact ih fun l' hl' => hls l' (List.mem_cons_of_mem l hl')
  refine hloop _ fun l hl => Load.read_of_not_readable ?_
  obtain ⟨⟨e, i⟩, he, rfl⟩ := List.mem_map.mp hl
  have hpath := h e (List.fst_mem_of_mem_zipIdx he)
  simp [Readable, onlyReads, hpath, Except.isOk, Except.toBool]

/-- **Which files later reloads publish.** After a start-up that returned, a file is published by every later reload
    it is readable in, while all zones whose files are not keep what they have, exactly when it was the
    last file of its origin that was readable at start-up. -/
theorem reload_publishes_iff (path : Text) (hstart : startUp envs paths = .ok m₀) :
    (∀ m m' (r : Round), Reached envs paths m → r.Steps m m' →
      ((∀ i, Readable (r.envs i) path) → r.Publishes path m') ∧ r.Keeps m m') ↔ LastRead envs paths path := by
  rw [← listed_iff_lastRead hstart]
  constructor
  · intro hall
    by_contra hunlisted
    have hpath : ∀ e ∈ m₀.listed, e.2 ≠ path := by
      rintro ⟨origin, p⟩ he rfl
      have hlookup := ZoneManager.mem_listed.mp he
      exact hunlisted (origin_of_listed hstart hlookup ▸ hlookup)
    -- an origin longer than all there are
    let n := (m₀.getZones.map fun z => z.origin.length).sum + 1
    have hread : ∀ i, Readable ((fun _ : Nat => onlyReads path (originFile n)) i) path := by
      intro i
      simp [Readable, onlyReads, Except.isOk, Except.toBool]
    obtain ⟨i, z, hz, hmem⟩ := (hall _ _ _ (.startUp hstart) (steps_unlisted hpath)).1 hread
    rw [readZone_onlyReads path (Nat.succ_ne_zero _)] at hz
    obtain rfl := Except.ok.inj hz
    have hle := List.le_sum_of_mem (List.mem_map_of_mem (f := fun z : Zone => z.origin.length) hmem)
    simp only [List.length_replicate] at hle
    omega
  · intro hlisted m m' r hm hr
    exact ⟨hr.publishes ((hm.files hstart _).trans hlisted), hr.keeps⟩

end

def zonePath : Text := "x.zone".toList

def otherPath : Text := "y.zone".toList

/-- A start-up that reads the first of two files and passes the second over. -/
theorem startUp_first : ∃ m, startUp (fun _ => onlyReads zonePath (originFile 1)) [zonePath, otherPath] = .ok m := by
  have hread := readZone_onlyReads zonePath Nat.one_ne_zero (originOf zonePath)
  have hunread : ¬ Readable (onlyReads zonePath (originFile 1)) otherPath := by decide
  obtain ⟨e, he⟩ := Load.read_of_not_readable
    (l := (onlyReads zonePath (originFile 1), originOf otherPath, otherPath)) hunread
  have hpassed : ZoneManager.readZone (onlyReads zonePath (originFile 1)) (originOf otherPath) otherPath =
      .error (.io e) := he
  rw [startUp, configured, List.zipIdx_cons, List.zipIdx_cons, List.map_cons, List.map_cons, loadEach,
    ZoneManager.loadZone, hread]
  simp only [loadEach, ZoneManager.loadZone, hpassed]
  exact ⟨_, rfl⟩

/-- The file that was read stays published, also through reloads it is unreadable in; the one that was passed over
    does not come back. -/
theorem firstFile_published : ∃ m₀,
    startUp (fun _ => onlyReads zonePath (originFile 1)) [zonePath, otherPath] = .ok m₀ ∧
    (∀ m m' (r : Round), Reached (fun _ => onlyReads zonePath (originFile 1)) [zonePath, otherPath] m → r.Steps m m' →
      ((∀ i, Readable (r.envs i) zonePath) → r.Publishes zonePath m') ∧ r.Keeps m m') ∧
    ¬ ∀ m m' (r : Round), Reached (fun _ => onlyReads zonePath (originFile 1)) [zonePath, otherPath] m →
      r.Steps m m' → ((∀ i, Readable (r.envs i) otherPath) → r.Publishes otherPath m') ∧ r.Keeps m m' := by
  obtain ⟨m₀, hstart⟩ := startUp_first
  refine ⟨m₀, hstart, (reload_publishes_iff zonePath hstart).mpr (by decide), fun hall => ?_⟩
  exact absurd ((reload_publishes_iff otherPath hstart).mp hall) (by decide)

/-- The file is unreadable at start-up only, and the reload after it does not publish it. -/
theorem unreadAtStart_unpublished : startUp (fun _ => onlyReads ['o'] []) [zonePath] = .ok .new ∧
    ∃ r : Round, r.Steps .new .new ∧ (∀ i, Readable (r.envs i) zonePath) ∧ ¬ r.Publishes zonePath .new := by
  have hread : ¬ Readable (onlyReads ['o'] []) zonePath := by decide
  have hlater : Readable (onlyReads zonePath (originFile 1)) zonePath := by decide
  refine ⟨?_, ⟨fun _ => onlyReads zonePath (originFile 1), []⟩, ⟨.refl _, 0, rfl⟩, fun _ => hlater, ?_⟩
  · obtain ⟨e, he⟩ := Load.read_of_not_readable (l := (onlyReads ['o'] [], originOf zonePath, zonePath)) hread
    have hload : ZoneManager.readZone (onlyReads ['o'] []) (originOf zonePath) zonePath = .error (.io e) := he
    rw [startUp, configured, List.zipIdx_cons, List.map_cons, loadEach, ZoneManager.loadZone, hload]
    rfl
  · rintro ⟨i, z, -, hz⟩
    exact List.not_mem_nil hz

end Ironbind
