import Ironbind.ZoneReload

/- The reload watcher (`run` in `server.rs`, `signals.rs`) and the supervisor it runs under.
   It wakes once a second, and reloads the zones when SIGHUP raised the flag since it last
   looked, or a day after the reload before. A reload reads file after file while signals
   go on coming in, and at its end puts the manager's zones in the place of the served
   ones; a load that panics ends it, and the supervisor starts the watcher again. A step is
   what the watcher does at once, or the clock going on, or a signal, and they come in any
   order. No signal is lost, whenever it comes (`signal_honoured`). -/
namespace Ironbind
open Codec

/-! The watcher. -/

/-- `RESIGN_INTERVAL`, a day in nanoseconds. -/
def RESIGN_INTERVAL : Nat := 24 * 3600 * nanosPerSec

/-- Where the watcher is: asleep, in the loop of `reload_all`, or down after a panic. -/
inductive WatcherPhase where
  | asleep (since : Nat)
  | loading (left : List (Text × Text))
  | down (since : Nat)

/-- The watcher, the flag and the zones it shares with the other threads, and what the supervisor counts by. -/
structure ReloadWatcher where
  clock : Nat
  reloadSignal : Bool
  lastSigned : Nat
  phase : WatcherPhase
  manager : ZoneManager
  zones : List Zone
  started : Nat
  delay : Nat

/-- The orders are those of the hash maps. -/
inductive WatcherStep where
  | tick (nanos : Nat)
  | sighup
  | poll (order : List (Text × Text))
  | load (env : LoadEnv)
  | publish (order : List Text)
  | restart

namespace ReloadWatcher

/-- The watcher starts, and the supervisor with it. -/
def start (clock : Nat) (manager : ZoneManager) (zones : List Zone) : ReloadWatcher where
  clock := clock
  reloadSignal := false
  lastSigned := clock
  phase := .asleep clock
  manager := manager
  zones := zones
  started := clock
  delay := nanosPerSec

section
variable (st : ReloadWatcher)

/-- `should_reload`, or a day is over. -/
def Due : Prop := st.reloadSignal = true ∨ st.lastSigned + RESIGN_INTERVAL ≤ st.clock

instance : Decidable st.Due := inferInstanceAs (Decidable (_ ∨ _))

/-- A reload begins: the flag is down, and the day starts again. -/
def begin (order : List (Text × Text)) : ReloadWatcher :=
  { st with reloadSignal := false, lastSigned := st.clock, phase := .loading order }

/-- A load leaves the manager with the zone it read, or as it was; after a panic the supervisor takes over, with the
    shortest delay if the watcher was up for a minute. -/
def load (env : LoadEnv) (origin path : Text) (left : List (Text × Text)) : ReloadWatcher :=
  match ZoneManager.loadZone env origin path st.manager with
  | .ok m => { st with manager := m, phase := .loading left }
  | .error (.io _) => { st with phase := .loading left }
  | .error (.panic _) =>
    { st with
      phase := .down st.clock
      delay := if st.started + 60 * nanosPerSec < st.clock then nanosPerSec else st.delay }

/-- The zones of the manager are served, if it has any. -/
def publish (order : List Text) : ReloadWatcher :=
  let reloaded := order.filterMap st.manager.getZone
  { st with zones := if reloaded = [] then st.zones else reloaded, phase := .asleep st.clock }

/-- The supervisor starts the watcher again. -/
def restart : ReloadWatcher :=
  { st with
    lastSigned := st.clock
    phase := .asleep st.clock
    started := st.clock
    delay := min (2 * st.delay) (30 * nanosPerSec) }

end

/-- A step that is not the watcher's next one leaves it where it is. -/
def step (st : ReloadWatcher) : WatcherStep → ReloadWatcher
  | .tick nanos => { st with clock := st.clock + nanos }
  | .sighup => { st with reloadSignal := true }
  | .poll order =>
    match st.phase with
    | .asleep since =>
      if since + nanosPerSec ≤ st.clock then
        if st.Due then (if order.Perm st.manager.listed then st.begin order else st)
        else { st with phase := .asleep st.clock }
      else st
    | _ => st
  | .load env =>
    match st.phase with
    | .loading ((origin, path) :: left) => st.load env origin path left
    | _ => st
  | .publish order =>
    match st.phase with
    | .loading [] => if order.Perm st.manager.zones.keys then st.publish order else st
    | _ => st
  | .restart =>
    match st.phase with
    | .down since => if since + st.delay ≤ st.clock then st.restart else st
    | _ => st

def run (st : ReloadWatcher) (steps : List WatcherStep) : ReloadWatcher := steps.foldl step st

/-- The load a step makes. -/
def makes (st : ReloadWatcher) : WatcherStep → Option Load
  | .load env =>
    match st.phase with
    | .loading (e :: _) => some (env, e)
    | _ => none
  | _ => none

/-- The loads of a run. -/
def made : ReloadWatcher → List WatcherStep → List Load
  | _, [] => []
  | st, s :: steps => (st.makes s).toList ++ made (st.step s) steps

/-- The steps that do something, and what they do. -/
inductive Moves (st : ReloadWatcher) : WatcherStep → ReloadWatcher → Prop where
  | tick {nanos : Nat} : Moves st (.tick nanos) { st with clock := st.clock + nanos }
  | sighup : Moves st .sighup { st with reloadSignal := true }
  | idle {order : List (Text × Text)} {since : Nat} (hphase : st.phase = .asleep since) (hdue : ¬ st.Due) :
      Moves st (.poll order) { st with phase := .asleep st.clock }
  | begin {order : List (Text × Text)} {since : Nat} (hphase : st.phase = .asleep since) (hdue : st.Due)
      (horder : order.Perm st.manager.listed) : Moves st (.poll order) (st.begin order)
  | load {env : LoadEnv} {origin path : Text} {left : List (Text × Text)}
      (hphase : st.phase = .loading ((origin, path) :: left)) : Moves st (.load env) (st.load env origin path left)
  | publish {order : List Text} (hphase : st.phase = .loading []) (horder : order.Perm st.manager.zones.keys) :
      Moves st (.publish order) (st.publish order)
  | restart {since : Nat} (hphase : st.phase = .down since) (hdelay : since + st.delay ≤ st.clock) :
      Moves st .restart st.restart

theorem step_moves (st : ReloadWatcher) (s : WatcherStep) :
    st.step s = st ∧ st.makes s = none ∨ Moves st s (st.step s) := by
  cases s with
  | tick nanos => exact .inr .tick
  | sighup => exact .inr .sighup
  | poll order =>
    rw [step]
    split
    · next since hphase =>
      split_ifs with hwoken hdue horder
      · exact .inr (.begin hphase hdue horder)
      · exact .inl ⟨rfl, rfl⟩
      · exact .inr (.idle hphase hdue)
      · exact .inl ⟨rfl, rfl⟩
    · exact .inl ⟨rfl, rfl⟩
  | load env =>
    rw [step, makes]
    split
    · next origin path left hphase => exact .inr (.load hphase)
    · next hphase =>
      refine .inl ⟨rfl, ?_⟩
      split
      · next e left he => exact absurd he (hphase e.1 e.2 left)
      · rfl
  | publish order =>
    rw [step]
    split
    · next hphase =>
      split_ifs with horder
      · exact .inr (.publish hphase horder)
      · exact .inl ⟨rfl, rfl⟩
    · exact .inl ⟨rfl, rfl⟩
  | restart =>
    rw [step]
    split
    · next since hphase =>
      split_ifs with hdelay
      · exact .inr (.restart hphase hdelay)
      · exact .inl ⟨rfl, rfl⟩
    · exact .inl ⟨rfl, rfl⟩

/-! Signals. -/

/-- The loads from the moment on when the flag is down. -/
def taken : ReloadWatcher → List WatcherStep → List Load
  | _, [] => []
  | st, s :: steps => if st.reloadSignal then taken (st.step s) steps else st.made (s :: steps)

/-- The zone that the last load of an origin read, if one did. -/
def lastRead (origin : Text) (ls : List Load) : Option Zone :=
  (ls.filterMap fun l => if l.2.1 = origin then l.read.toOption else none).getLast?

/-- What has become of a signal, by the loads since the watcher took it: it is not taken yet, or a load panicked, or the
    reload is at work, or every file was loaded again and what the manager has is served. -/
inductive Outcome (files : List (Text × Text)) (ls : List Load) (st : ReloadWatcher) : Prop
  | pending (hflag : st.reloadSignal = true)
  | panicked (l : Load) (hl : l ∈ ls) (p : Panic) (hp : l.read = .error (.panic p))
  | loading (left : List (Text × Text)) (hphase : st.phase = .loading left)
      (hall : ∀ e ∈ files, e ∈ left ∨ ∃ l ∈ ls, l.2 = e)
  | served (since : Nat) (hphase : st.phase = .asleep since) (hall : ∀ e ∈ files, ∃ l ∈ ls, l.2 = e)
      (hzones : st.zones.Perm st.manager.getZones ∨ st.manager.getZones = [])

/-- A signal was honoured: a file read since it came is what the manager has of its origin. -/
structure Honoured (files : List (Text × Text)) (ls : List Load) (st : ReloadWatcher) : Prop where
  outcome : Outcome files ls st
  read : ∀ origin z, lastRead origin ls = some z → st.manager.getZone origin = some z

/-- The files are those of the manager at the start, and so are those the loop has left. -/
structure Lists (m : ZoneManager) (st : ReloadWatcher) : Prop where
  files : ∀ origin, st.manager.zoneFiles.lookup origin = m.zoneFiles.lookup origin
  left : ∀ left, st.phase = .loading left → ∀ e ∈ left, m.zoneFiles.lookup e.1 = some e.2

section
variable {st : ReloadWatcher} {env : LoadEnv} {origin path : Text} {left : List (Text × Text)}

/-- A load is an attempt, and goes on unless it panics. -/
theorem load_eq : (st.load env origin path left).manager = st.manager.attempt (env, origin, path) ∧
    (st.load env origin path left).zones = st.zones ∧ (st.load env origin path left).clock = st.clock ∧
    (st.load env origin path left).lastSigned = st.lastSigned ∧
    (st.load env origin path left).reloadSignal = st.reloadSignal ∧
    ((st.load env origin path left).phase = .loading left ∨ (st.load env origin path left).phase = .down st.clock ∧
      ∃ p, Load.read (env, origin, path) = .error (.panic p)) := by
  have hload : ZoneManager.loadZone env origin path st.manager = _ :=
    ZoneManager.loadZone_eq st.manager (env, origin, path)
  rw [load, hload, ZoneManager.attempt]
  cases hread : Load.read (env, origin, path) with
  | ok z => exact ⟨rfl, rfl, rfl, rfl, rfl, .inl rfl⟩
  | error e =>
    cases e with
    | io e => exact ⟨rfl, rfl, rfl, rfl, rfl, .inl rfl⟩
    | panic p => exact ⟨rfl, rfl, rfl, rfl, rfl, .inr ⟨rfl, p, rfl⟩⟩

/-- A file that is listed is listed after it is loaded, and no other is. -/
theorem files_attempt {m : ZoneManager} (h : m.zoneFiles.lookup origin = some path) (o : Text) :
    (m.attempt (env, origin, path)).zoneFiles.lookup o = m.zoneFiles.lookup o := by
  by_cases ho : origin = o
  · subst ho
    have hlists := ZoneManager.attempt_lists m (env, origin, path)
    rw [hlists, h, ZoneManager.lists]
    split <;> rfl
  · exact ZoneManager.attempt_files_local.other m (env, origin, path) o ho

theorem Lists.moves {m : ZoneManager} {st' : ReloadWatcher} {s : WatcherStep} (h : Lists m st) (hm : Moves st s st') :
    Lists m st' := by
  cases hm with
  | tick => exact ⟨h.files, h.left⟩
  | sighup => exact ⟨h.files, h.left⟩
  | idle => exact ⟨h.files, fun _ he => WatcherPhase.noConfusion he⟩
  | begin hphase hdue horder =>
    refine ⟨h.files, fun left he e hmem => ?_⟩
    cases he
    rw [← h.files]
    exact ZoneManager.mem_listed.mp (horder.mem_iff.mp hmem)
  | @load env origin path left hphase =>
    obtain ⟨hmanager, -, -, -, -, hnext⟩ := @load_eq st env origin path left
    have hpath := h.left _ hphase (origin, path) List.mem_cons_self
    refine ⟨fun o => ?_, fun left' he e hmem => ?_⟩
    · rw [hmanager, files_attempt ((h.files origin).trans hpath), h.files]
    · rcases hnext with hnext | ⟨hnext, -⟩
      · rw [hnext] at he
        cases he
        exact h.left _ hphase e (List.mem_cons_of_mem _ hmem)
      · rw [hnext] at he
        cases he
  | publish => exact ⟨h.files, fun _ he => WatcherPhase.noConfusion he⟩
  | restart => exact ⟨h.files, fun _ he => WatcherPhase.noConfusion he⟩

theorem Lists.step {m : ZoneManager} (h : Lists m st) (s : WatcherStep) : Lists m (st.step s) := by
  rcases step_moves st s with ⟨hs, -⟩ | hm
  · rw [hs]; exact h
  · exact h.moves hm

theorem lists_run (clock : Nat) (m : ZoneManager) (zones : List Zone) (steps : List WatcherStep) :
    Lists m ((start clock m zones).run steps) :=
  List.foldlRecOn steps ReloadWatcher.step ⟨fun _ => rfl, fun _ he => WatcherPhase.noConfusion he⟩
    fun _ h s _ => h.step s

/-- The zones that are published are the manager's. -/
theorem perm_getZones {m : ZoneManager} {order : List Text} (h : order.Perm m.zones.keys) :
    (order.filterMap m.getZone).Perm m.getZones := by
  have hkeys : m.zones.keys.filterMap m.getZone = m.getZones := by
    rw [AList.keys, List.keys, List.filterMap_map, ZoneManager.getZones, ← List.filterMap_eq_map]
    refine List.filterMap_congr fun e he => ?_
    exact AList.mem_lookup_iff.mpr he
  rw [← hkeys]
  exact h.filterMap _

theorem makes_load (hphase : st.phase = .loading ((origin, path) :: left)) :
    st.makes (.load env) = some (env, origin, path) := by
  rw [makes]
  simp only [hphase]

theorem lastRead_concat (o : Text) (ls : List Load) (l : Load) :
    lastRead o (ls ++ [l]) = (if l.2.1 = o then l.read.toOption else none).or (lastRead o ls) := by
  rw [lastRead, lastRead, List.filterMap_append, List.getLast?_append, List.filterMap_cons]
  cases hread : (if l.2.1 = o then l.read.toOption else none) with
  | none => rfl
  | some z => rfl

theorem lookup_attempt (m : ZoneManager) (l : Load) (o : Text) :
    (m.attempt l).getZone o = (if l.2.1 = o then l.read.toOption else none).or (m.getZone o) := by
  by_cases ho : l.2.1 = o
  · rw [if_pos ho, ZoneManager.attempt]
    cases l.read with
    | ok z => exact ho ▸ AList.lookup_insert _
    | error e => rfl
  · rw [if_neg ho]
    exact congrArg Prod.fst (ZoneManager.attempt_local.other m l o ho)

theorem Outcome.mono {files : List (Text × Text)} {ls : List Load} {st' : ReloadWatcher} (h : Outcome files ls st)
    (hflag : st.reloadSignal = true → st'.reloadSignal = true) (hphase : st'.phase = st.phase)
    (hzones : st'.zones = st.zones) (hmanager : st'.manager = st.manager) : Outcome files ls st' := by
  cases h with
  | pending h => exact .pending (hflag h)
  | panicked l hl p hp => exact .panicked l hl p hp
  | loading left hleft hall => exact .loading left (hphase.trans hleft) hall
  | served since hsince hall hserved =>
    exact .served since (hphase.trans hsince) hall (by rw [hzones, hmanager]; exact hserved)

/-- A load: what it reads is the last that was read of its origin, and it is one less to make. -/
theorem Honoured.loads {files : List (Text × Text)} {ls : List Load} {env : LoadEnv} {origin path : Text}
    {left : List (Text × Text)} (h : Honoured files ls st) (hphase : st.phase = .loading ((origin, path) :: left)) :
    Honoured files (ls ++ [(env, origin, path)]) (st.load env origin path left) := by
  obtain ⟨outcome, read⟩ := h
  obtain ⟨hmanager, -, -, -, hflag, hnext⟩ := @load_eq st env origin path left
  refine ⟨?_, fun o z hz => ?_⟩
  · rcases hnext with hnext | ⟨-, p, hp⟩
    · cases outcome with
      | pending h => exact .pending (hflag.trans h)
      | panicked l hl p hp => exact .panicked l (List.mem_append_left _ hl) p hp
      | loading left' hleft hall =>
        rw [hphase] at hleft
        cases hleft
        refine .loading left hnext fun e he => ?_
        rcases hall e he with hmem | ⟨l, hl, hle⟩
        · rcases List.mem_cons.mp hmem with rfl | hmem
          · exact .inr ⟨_, List.mem_append_right _ List.mem_cons_self, rfl⟩
          · exact .inl hmem
        · exact .inr ⟨l, List.mem_append_left _ hl, hle⟩
      | served since hsince hall hserved => rw [hphase] at hsince; cases hsince
    · exact .panicked _ (List.mem_append_right _ List.mem_cons_self) p hp
  · rw [lastRead_concat] at hz
    rw [hmanager, lookup_attempt]
    cases hread : (if origin = o then (Load.read (env, origin, path)).toOption else none) with
    | none =>
      rw [hread] at hz
      exact read o z hz
    | some z' =>
      rw [hread] at hz
      exact hz

/-- No file is left: what is published are the zones of the manager. -/
theorem Outcome.publishes {files : List (Text × Text)} {ls : List Load} (h : Outcome files ls st)
    (hphase : st.phase = .loading []) {order : List Text} (horder : order.Perm st.manager.zones.keys) :
    Outcome files ls (st.publish order) := by
  cases h with
  | pending h => exact .pending h
  | panicked l hl p hp => exact .panicked l hl p hp
  | loading left hleft hall =>
    rw [hphase] at hleft
    cases hleft
    have hperm := perm_getZones horder
    refine .served st.clock rfl (fun e he => (hall e he).resolve_left List.not_mem_nil) ?_
    by_cases hnone : st.manager.getZones = []
    · exact .inr hnone
    · refine .inl ?_
      have hsome : order.filterMap st.manager.getZone ≠ [] := fun he => by
        rw [he] at hperm
        exact hnone (List.perm_nil.mp hperm.symm)
      rw [publish]
      simp only [if_neg hsome]
      exact hperm
  | served since hsince hall hserved => rw [hphase] at hsince; cases hsince

/-- One step, with the load it makes. -/
theorem Honoured.moves {m : ZoneManager} {ls : List Load} {st' : ReloadWatcher} {s : WatcherStep}
    (h : Honoured m.listed ls st) (hlists : Lists m st) (hm : Moves st s st') :
    Honoured m.listed (ls ++ (st.makes s).toList) st' := by
  cases hm with
  | tick =>
    rw [show (st.makes (.tick _)).toList = [] from rfl, List.append_nil]
    exact ⟨h.outcome.mono id rfl rfl rfl, h.read⟩
  | sighup =>
    rw [show (st.makes .sighup).toList = [] from rfl, List.append_nil]
    exact ⟨.pending rfl, h.read⟩
  | idle hphase hdue =>
    rw [show (st.makes (.poll _)).toList = [] from rfl, List.append_nil]
    refine ⟨?_, h.read⟩
    cases h.outcome with
    -- a signal that waits makes a reload due
    | pending h => exact absurd (.inl h) hdue
    | panicked l hl p hp => exact .panicked l hl p hp
    | loading left hleft hall => rw [hphase] at hleft; cases hleft
    | served since hsince hall hserved => exact .served st.clock rfl hall hserved
  | begin hphase hdue horder =>
    rw [show (st.makes (.poll _)).toList = [] from rfl, List.append_nil]
    -- whatever came of the signal before, every listed file is now left to load
    refine ⟨.loading _ rfl fun e he => .inl ?_, h.read⟩
    rw [horder.mem_iff, ZoneManager.mem_listed, hlists.files]
    exact ZoneManager.mem_listed.mp he
  | load hphase =>
    rw [makes_load hphase, Option.toList_some]
    exact h.loads hphase
  | publish hphase horder =>
    rw [show (st.makes (.publish _)).toList = [] from rfl, List.append_nil]
    exact ⟨h.outcome.publishes hphase horder, h.read⟩
  | restart hphase hdelay =>
    rw [show (st.makes .restart).toList = [] from rfl, List.append_nil]
    refine ⟨?_, h.read⟩
    cases h.outcome with
    | pending h => exact .pending h
    | panicked l hl p hp => exact .panicked l hl p hp
    | loading left hleft hall => rw [hphase] at hleft; cases hleft
    | served since hsince hall hserved => rw [hphase] at hsince; cases hsince

theorem Honoured.made {m : ZoneManager} : ∀ {steps : List WatcherStep} {ls : List Load} {st : ReloadWatcher},
    Honoured m.listed ls st → Lists m st → Honoured m.listed (ls ++ st.made steps) (st.run steps)
  | [], ls, st, h, _ => by rw [ReloadWatcher.made, List.append_nil]; exact h
  | s :: steps, ls, st, h, hlists => by
    have hstep : Honoured m.listed (ls ++ (st.makes s).toList) (st.step s) := by
      rcases step_moves st s with ⟨hs, hnone⟩ | hm
      · rw [hs, hnone, Option.toList_none, List.append_nil]
        exact h
      · exact h.moves hlists hm
    rw [ReloadWatcher.made, ← List.append_assoc]
    exact hstep.made (hlists.step s)

/-- The flag is taken down by a reload that begins. -/
theorem phase_of_taken {m : ZoneManager} {s : WatcherStep} (hlists : Lists m st) (hup : st.reloadSignal = true)
    (hdown : (st.step s).reloadSignal = false) : ∃ order, (st.step s).phase = .loading order ∧
      ∀ e ∈ m.listed, e ∈ order := by
  have hne : st.reloadSignal ≠ (st.step s).reloadSignal := by rw [hup, hdown]; decide
  rcases step_moves st s with ⟨hs, -⟩ | hm
  · exact absurd (by rw [hs]) hne
  · generalize st.step s = st' at hm hne hdown
    cases hm with
    | begin hphase hdue horder =>
      refine ⟨_, rfl, fun e he => ?_⟩
      rw [horder.mem_iff, ZoneManager.mem_listed, hlists.files]
      exact ZoneManager.mem_listed.mp he
    | sighup => cases hdown
    | load hphase => exact absurd load_eq.2.2.2.2.1.symm hne
    | _ => exact absurd rfl hne

theorem honoured_taken {m : ZoneManager} : ∀ {steps : List WatcherStep} {st : ReloadWatcher}, Lists m st →
    st.reloadSignal = true → Honoured m.listed (st.taken steps) (st.run steps)
  | [], _, _, hup => ⟨.pending hup, fun _ _ hz => by cases hz⟩
  | s :: steps, st, hlists, hup => by
    rw [taken, if_pos hup]
    cases hflag : (st.step s).reloadSignal with
    | true => exact honoured_taken (hlists.step s) hflag
    | false =>
      obtain ⟨order, hphase, hall⟩ := phase_of_taken hlists hup hflag
      have hstart : Honoured m.listed [] (st.step s) :=
        ⟨.loading order hphase fun e he => .inl (hall e he), fun _ _ hz => by cases hz⟩
      have htaken : (st.step s).taken steps = [] ++ (st.step s).made steps := by
        cases steps with
        | nil => rfl
        | cons s' steps => rw [taken, if_neg (by rw [hflag]; decide), List.nil_append]
      rw [htaken]
      exact hstart.made (hlists.step s)

end

/-- **No signal is lost**, also one that comes while a reload is at work: from any moment of any run on, the signal waits
    for the watcher, or every file is loaded after it, and at the end of that reload what was read is served, unless a
    load panics. -/
theorem signal_honoured (clock : Nat) (m : ZoneManager) (zones : List Zone) (before after : List WatcherStep) :
    Honoured m.listed (((start clock m zones).run (before ++ [.sighup])).taken after)
      ((start clock m zones).run (before ++ .sighup :: after)) := by
  have hrun : (start clock m zones).run (before ++ .sighup :: after) =
      ((start clock m zones).run (before ++ [.sighup])).run after := by
    rw [run, run, run, ← List.foldl_append, List.append_assoc, List.singleton_append]
  have hup : ((start clock m zones).run (before ++ [.sighup])).reloadSignal = true := by
    rw [run, List.foldl_append]
    rfl
  rw [hrun]
  exact honoured_taken (lists_run clock m zones _) hup

end ReloadWatcher

end Ironbind
