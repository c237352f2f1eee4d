import Ironbind.Secondary
import Ironbind.SignatureTimes

/- A server and its secondary in time. The watcher of the server reads the zone files again
   while the secondary asks for the zone; the zones are taken when a request is looked at
   and the history when the stream is made, so a reload may come between them. At every
   moment one of the zones that are served answers for the origin, and it was read for it
   (`ServesOrigin`), so after every transfer the copy is the zone that was served
   (`copy_follows`). -/
namespace Ironbind
open Codec

/-! The server's side. -/

namespace ReloadWatcher
variable {st : ReloadWatcher} {origin : Text} {ls : List Load}

theorem manager_moves {st' : ReloadWatcher} {s : WatcherStep} (hm : Moves st s st') :
    st'.manager = (st.makes s).toList.foldl ZoneManager.attempt st.manager := by
  cases hm with
  | load hphase =>
    rw [makes_load hphase]
    exact load_eq.1
  | tick => rfl
  | sighup => rfl
  | idle => rfl
  | begin => rfl
  | publish => rfl
  | restart => rfl

theorem manager_step (st : ReloadWatcher) (s : WatcherStep) :
    (st.step s).manager = (st.makes s).toList.foldl ZoneManager.attempt st.manager := by
  rcases step_moves st s with ⟨hst, hnone⟩ | hm
  · rw [hst, hnone]
    rfl
  · exact manager_moves hm

/-- The loads of a run are what becomes of the manager. -/
theorem manager_run : ∀ (steps : List WatcherStep) (st : ReloadWatcher),
    (st.run steps).manager = (st.made steps).foldl ZoneManager.attempt st.manager
  | [], _ => rfl
  | s :: steps, st => by
    rw [made, List.foldl_append, ← manager_step]
    exact manager_run steps (st.step s)

theorem made_append : ∀ (a b : List WatcherStep) (st : ReloadWatcher),
    st.made (a ++ b) = st.made a ++ (st.run a).made b
  | [], _, _ => rfl
  | s :: a, b, st => by
    rw [List.cons_append, made, made, made_append a b (st.step s), List.append_assoc]
    rfl

/-- Among the zones that are served, one answers for the origin, and it was read for it. -/
structure ServesOrigin (origin : Text) (ls : List Load) (st : ReloadWatcher) : Prop where
  manager : st.manager = ZoneManager.replay ls
  zone : ∃ z ∈ published origin ls, z ∈ st.zones ∧ ∀ y ∈ st.zones, y.isAuthoritativeFor origin = true ↔ y = z

/-- So it is when the zones of the manager are served. -/
theorem serves_getZones (hapart : SetApart origin ls) (hloaded : ∃ z, (ZoneManager.replay ls).getZone origin = some z)
    {zones : List Zone} (hperm : zones.Perm (ZoneManager.replay ls).getZones) :
    ∃ z ∈ published origin ls, z ∈ zones ∧ ∀ y ∈ zones, y.isAuthoritativeFor origin = true ↔ y = z := by
  obtain ⟨z, hz⟩ := hloaded
  have hread : ∀ {o y}, (ZoneManager.replay ls).getZone o = some y → ∃ l ∈ ls, l.2.1 = o ∧ l.read = .ok y := fun hy => by
    rw [ZoneManager.getZone_replay] at hy
    exact mem_published.mp (List.mem_of_getLast? hy)
  refine ⟨z, mem_published.mpr (hread hz), hperm.mem_iff.mpr (ZoneManager.mem_getZones.mpr ⟨origin, hz⟩), fun y hy => ?_⟩
  obtain ⟨o, ho⟩ := ZoneManager.mem_getZones.mp (hperm.mem_iff.mp hy)
  obtain ⟨l, hl, hkey, hload⟩ := hread ho
  rw [hapart l hl y hload, hkey]
  constructor
  · rintro rfl
    exact Option.some.inj (ho.symm.trans hz)
  · rintro rfl
    obtain ⟨l', hl', hkey', hload'⟩ := hread hz
    have hauthority := (hapart l' hl' y hload').mpr hkey'
    rw [← hkey]
    exact (hapart l hl y hload).mp hauthority

theorem ServesOrigin.unmoved {st' : ReloadWatcher} {s : WatcherStep} (h : ServesOrigin origin ls st)
    (hmakes : st.makes s = none) (hmanager : st'.manager = st.manager) (hzones : st'.zones = st.zones) :
    ServesOrigin origin (ls ++ (st.makes s).toList) st' := by
  rw [hmakes, Option.toList_none, List.append_nil]
  refine ⟨hmanager.trans h.manager, ?_⟩
  rw [hzones]
  exact h.zone

theorem ServesOrigin.moves {st' : ReloadWatcher} {s : WatcherStep} (h : ServesOrigin origin ls st)
    (hapart : SetApart origin (ls ++ (st.makes s).toList)) (hm : Moves st s st') :
    ServesOrigin origin (ls ++ (st.makes s).toList) st' := by
  have hmanager : st'.manager = ZoneManager.replay (ls ++ (st.makes s).toList) := by
    rw [manager_moves hm, h.manager]
    exact List.foldl_append.symm
  cases hm with
  | load hphase =>
    obtain ⟨z, hz, hserved, honly⟩ := h.zone
    refine ⟨hmanager, z, ?_, ?_, ?_⟩
    · rw [published_append]
      exact List.mem_append_left _ hz
    · rw [load_eq.2.1]
      exact hserved
    · rw [load_eq.2.1]
      exact honly
  | publish hphase horder =>
    refine ⟨hmanager, ?_⟩
    rw [show st.makes (.publish _) = none from rfl, Option.toList_none, List.append_nil] at hapart ⊢
    rw [publish]
    dsimp only
    split
    · exact h.zone
    · obtain ⟨z, hz, -⟩ := h.zone
      refine serves_getZones hapart ?_ (h.manager ▸ perm_getZones horder)
      rw [ZoneManager.getZone_replay]
      exact ⟨_, List.getLast?_eq_some_getLast (List.ne_nil_of_mem hz)⟩
  | tick => exact h.unmoved rfl rfl rfl
  | sighup => exact h.unmoved rfl rfl rfl
  | idle => exact h.unmoved rfl rfl rfl
  | begin => exact h.unmoved rfl rfl rfl
  | restart => exact h.unmoved rfl rfl rfl

theorem ServesOrigin.run : ∀ {steps : List WatcherStep} {st : ReloadWatcher} {ls : List Load}, ServesOrigin origin ls st →
    SetApart origin (ls ++ st.made steps) → ServesOrigin origin (ls ++ st.made steps) (st.run steps)
  | [], st, ls, h, _ => (List.append_nil ls).symm ▸ h
  | s :: steps, st, ls, h, hapart => by
    rw [made, ← List.append_assoc] at hapart ⊢
    have hfirst : SetApart origin (ls ++ (st.makes s).toList) := fun l hl => hapart l (List.mem_append_left _ hl)
    have hstep : ServesOrigin origin (ls ++ (st.makes s).toList) (st.step s) := by
      rcases step_moves st s with ⟨hst, hnone⟩ | hm
      · rw [hst]
        exact h.unmoved hnone rfl rfl
      · exact h.moves hfirst hm
    exact ServesOrigin.run hstep hapart

/-- A start-up that loaded the zone serves it. -/
theorem serves_start {envs : Nat → LoadEnv} {paths : List Text} {clock : Nat} {m : ZoneManager} {order : List Text}
    (hstart : startUp envs paths = .ok m) (horder : order.Perm m.zones.keys) (hloaded : ∃ z, m.getZone origin = some z)
    (hapart : SetApart origin (configured envs paths)) :
    ServesOrigin origin (configured envs paths) (start clock m (initialZones m order)) := by
  obtain ⟨-, hm⟩ := ZoneManager.loadEach_ok hstart
  have hreplay : m = ZoneManager.replay (configured envs paths) := hm
  refine ⟨hreplay, ?_⟩
  have hzones : initialZones m order = order.filterMap m.getZone := by
    have hne : order.filterMap m.getZone ≠ [] := by
      obtain ⟨z, hz⟩ := hloaded
      exact List.ne_nil_of_mem ((perm_getZones horder).mem_iff.mpr (ZoneManager.mem_getZones.mpr ⟨origin, hz⟩))
    exact if_neg hne
  rw [start]
  dsimp only
  rw [hzones]
  exact serves_getZones hapart (hreplay ▸ hloaded) (hreplay ▸ perm_getZones horder)

end ReloadWatcher

/-! The server and its secondary. -/

structure Replication where
  watcher : ReloadWatcher
  held : Option ZoneCopy

/-- A step of the watcher, or a transfer. What the request meets of the server beside its zones and its history is `v`;
    the watcher goes on between the look at the one and at the other. -/
inductive ReplicationStep (τ : Type) where
  | watcher (s : WatcherStep)
  | transfer (v : Serving τ) (id : UInt16) (full : Bool) (meanwhile : List WatcherStep)

/-- What the watcher does in a step. -/
def ReplicationStep.watched {τ : Type} : ReplicationStep τ → List WatcherStep
  | .watcher s => [s]
  | .transfer _ _ _ meanwhile => meanwhile

namespace Replication
variable {τ : Type} (h : Handler τ) (origin : Text)

def step (st : Replication) : ReplicationStep τ → Replication
  | .watcher s => { st with watcher := st.watcher.step s }
  | .transfer v id full meanwhile =>
    { watcher := st.watcher.run meanwhile
      held := fetchZone { v with handler := h, zones := st.watcher.zones, manager := (st.watcher.run meanwhile).manager }
        id origin full st.held }

def run (st : Replication) (steps : List (ReplicationStep τ)) : Replication := steps.foldl (step h origin) st

/-- The loads of a run. -/
def made (st : Replication) (steps : List (ReplicationStep τ)) : List Load :=
  st.watcher.made (steps.flatMap ReplicationStep.watched)

variable {h origin} {st : Replication}

theorem watcher_step (s : ReplicationStep τ) : (st.step h origin s).watcher = st.watcher.run s.watched := by
  cases s with
  | watcher s => rfl
  | transfer v id full meanwhile => rfl

theorem made_cons (s : ReplicationStep τ) (steps : List (ReplicationStep τ)) :
    st.made (s :: steps) = st.watcher.made s.watched ++ (st.step h origin s).made steps := by
  rw [made, List.flatMap_cons, ReloadWatcher.made_append, made, watcher_step]

theorem made_concat (s : ReplicationStep τ) : ∀ (steps : List (ReplicationStep τ)) (st : Replication),
    st.made (steps ++ [s]) = st.made steps ++ (st.run h origin steps).watcher.made s.watched
  | [], st => by rw [List.nil_append, @made_cons _ h origin]; exact List.append_nil _
  | s' :: steps, st => by
    rw [List.cons_append, @made_cons _ h origin, made_concat s steps, ← List.append_assoc, ← made_cons]
    rfl

/-- The server serves the zone, and what the secondary holds is a version of it. -/
structure Follows (origin : Text) (ls : List Load) (st : Replication) : Prop where
  server : st.watcher.ServesOrigin origin ls
  copy : ∀ copy ∈ st.held, ∃ y ∈ published origin ls, copy.Of y

variable (hempty : h.tsigKeys.isEmpty = true) (horigin : FitsWire origin) (hspelt : readName origin = origin)
include hempty horigin hspelt

/-- A transfer brings the zone that is served, whatever the watcher does meanwhile. -/
theorem Follows.transfer {ls : List Load} {v : Serving τ} {id : UInt16} {full : Bool} {meanwhile : List WatcherStep}
    (hst : Follows origin ls st) (hm : Maintained origin (ls ++ st.watcher.made meanwhile)) :
    ∃ z ∈ published origin ls, z ∈ st.watcher.zones ∧
      (∀ y ∈ st.watcher.zones, y.isAuthoritativeFor origin = true ↔ y = z) ∧
      ∃ copy, (st.step h origin (.transfer v id full meanwhile)).held = some copy ∧ copy.Of z := by
  obtain ⟨z, hz, hserved, honly⟩ := hst.server.zone
  have hmore : ∀ y ∈ published origin ls, y ∈ published origin (ls ++ st.watcher.made meanwhile) := fun y hy => by
    rw [published_append]
    exact List.mem_append_left _ hy
  have hmanager : (st.watcher.run meanwhile).manager = ZoneManager.replay (ls ++ st.watcher.made meanwhile) := by
    rw [ReloadWatcher.manager_run, hst.server.manager]
    exact List.foldl_append.symm
  have hfind : st.watcher.zones.find? (fun zone => zone.isAuthoritativeFor origin) = some z := by
    cases hfound : st.watcher.zones.find? fun zone => zone.isAuthoritativeFor origin with
    | none => exact absurd ((honly z hserved).mpr rfl) (List.find?_eq_none.mp hfound z hserved)
    | some y =>
      have hauthority := List.find?_some hfound
      rw [(honly y (List.mem_of_find?_eq_some hfound)).mp hauthority]
  refine ⟨z, hz, hserved, honly, fetchZone_of horigin hspelt (v := { v with
    handler := h, zones := st.watcher.zones, manager := (st.watcher.run meanwhile).manager }) hempty hmanager hfind hm
    (hmore z hz) (fun copy hcopy => ?_) full⟩
  obtain ⟨y, hy, hof⟩ := hst.copy copy hcopy
  exact ⟨y, hmore y hy, hof⟩

theorem Follows.step {ls : List Load} {s : ReplicationStep τ} (hst : Follows origin ls st)
    (hm : Maintained origin (ls ++ st.watcher.made s.watched))
    (hapart : SetApart origin (ls ++ st.watcher.made s.watched)) :
    Follows origin (ls ++ st.watcher.made s.watched) (st.step h origin s) := by
  have hmore : ∀ y ∈ published origin ls, y ∈ published origin (ls ++ st.watcher.made s.watched) := fun y hy => by
    rw [published_append]
    exact List.mem_append_left _ hy
  refine ⟨by rw [watcher_step]; exact hst.server.run hapart, ?_⟩
  cases s with
  | watcher s =>
    intro copy hcopy
    obtain ⟨y, hy, hof⟩ := hst.copy copy hcopy
    exact ⟨y, hmore y hy, hof⟩
  | transfer v id full meanwhile =>
    intro copy hcopy
    obtain ⟨z, hz, -, -, copy', hheld, hof⟩ := @transfer _ _ _ _ hempty horigin hspelt _ v id full meanwhile hst hm
    obtain rfl := Option.some.inj (hheld.symm.trans hcopy)
    exact ⟨z, hmore z hz, hof⟩

theorem Follows.run : ∀ {steps : List (ReplicationStep τ)} {st : Replication} {ls : List Load}, Follows origin ls st →
    Maintained origin (ls ++ st.made steps) → SetApart origin (ls ++ st.made steps) →
      Follows origin (ls ++ st.made steps) (st.run h origin steps)
  | [], st, ls, hst, _, _ => (List.append_nil ls).symm ▸ hst
  | s :: steps, st, ls, hst, hm, hapart => by
    rw [@made_cons _ h origin, ← List.append_assoc] at hm hapart ⊢
    exact Follows.run (hst.step hempty horigin hspelt hm.prefix fun l hl => hapart l (List.mem_append_left _ hl)) hm hapart

end Replication

/-! Two versions of a zone. -/

theorem transferable_zoneOf {content : Text} {ctx : LineContext} {rs : List Record}
    (hread : readTexts (.start (Zone.new ['x']).origin) (recordTexts content) = .ok (ctx, rs))
    (hfits : ∀ s ∈ sourcesOf (.start (Zone.new ['x']).origin) (recordTexts content), s.Fits)
    (hserial : (zoneOf content).serial ≠ none) (hsole : ∀ soa ∈ (zoneOf content).apexSoa, ∀ x ∈ (zoneOf content).dataList,
      x.2.1 = .SOA → x = recordData soa) (hshort : ∀ r ∈ rs, (Builder.record r).length ≤ 1000) :
    Transferable (zoneOf content) where
  serial := hserial
  sole := fun r soa hr ht hsoa => hsole soa hsoa _ (Zone.mem_dataList.mpr (Zone.mem_data hr)) ht
  portable := fun r hr => portable_readTexts hread ⟨by decide, by decide⟩ hfits r (holds_zoneOf hread hr)
  short := fun r hr => hshort r (holds_zoneOf hread hr)

def movedSoa : Record := ⟨['x'], .SOA, CLASS_IN, 3600,
  Builder.name ['n', '.', 'x'] ++ Builder.name ['m', '.', 'x'] ++
    [0, 0, 0, 2, 0, 0, 0, 2, 0, 0, 0, 3, 0, 0, 0, 4, 0, 0, 0, 5]⟩

theorem hourFile_reads : readTexts (.start (Zone.new ['x']).origin) (recordTexts hourFile) =
    .ok (⟨3600, ['x'], ['w', '.', 'x']⟩, [apexSoa, hostRecord]) := by decide

theorem movedFile_reads : readTexts (.start (Zone.new ['x']).origin) (recordTexts movedFile) =
    .ok (⟨3600, ['x'], ['w', '.', 'x']⟩, [movedSoa, { hostRecord with rdata := [192, 0, 2, 2] }]) := by decide

theorem hourZone_transferable : Transferable (zoneOf hourFile) :=
  transferable_zoneOf hourFile_reads (by decide) (by decide) (by decide) (by decide)

theorem movedZone_transferable : Transferable (zoneOf movedFile) :=
  transferable_zoneOf movedFile_reads (by decide) (by decide) (by decide) (by decide)

/-- A file is read, and the day after another one in its place. -/
def hourLoad : Load := (unkeyedEnv hourFile, ['x'], zonePath)
def movedLoad : Load := (unkeyedEnv movedFile, ['x'], zonePath)

theorem versions_published : published ['x'] [hourLoad, movedLoad] = [zoneOf hourFile, zoneOf movedFile] := by
  have hhour : hourLoad.read = .ok (zoneOf hourFile) := load_read files_load.1
  have hmoved : movedLoad.read = .ok (zoneOf movedFile) := load_read files_load.2.2
  rw [show [hourLoad, movedLoad] = [hourLoad] ++ [movedLoad] from rfl, published_append]
  exact congrArg₂ List.append (published_read hhour) (published_read hmoved)

theorem versions_maintained : Maintained ['x'] [hourLoad, movedLoad] := by
  have hserials : (zoneOf hourFile).serial ≠ (zoneOf movedFile).serial := by decide
  have hlifetimes : ∀ a ∈ (zoneOf hourFile).dataList, ∀ b ∈ (zoneOf movedFile).dataList, a.key = b.key → a = b := by decide
  constructor
  · rw [versions_published]
    exact List.forall_mem_cons.mpr ⟨hourZone_transferable, List.forall_mem_singleton.mpr movedZone_transferable⟩
  · rw [versions_published]
    intro y hy z hz he
    simp only [List.mem_cons, List.not_mem_nil, or_false] at hy hz
    rcases hy with rfl | rfl <;> rcases hz with rfl | rfl
    · rfl
    · exact absurd he hserials
    · exact absurd he.symm hserials
    · rfl
  · intro before after y z heq a ha b hb hkey
    rw [versions_published] at heq
    have hlen := congrArg List.length heq
    simp only [List.length_append, List.length_cons, List.length_nil] at hlen
    obtain rfl : before = [] := List.eq_nil_of_length_eq_zero (by omega)
    cases heq
    exact hlifetimes a (Zone.mem_dataList.mpr ha.1) b (Zone.mem_dataList.mpr hb.1) hkey

theorem versions_apart : SetApart ['x'] [hourLoad, movedLoad] := by
  have hhour : hourLoad.read = .ok (zoneOf hourFile) := load_read files_load.1
  have hmoved : movedLoad.read = .ok (zoneOf movedFile) := load_read files_load.2.2
  intro l hl z hread
  simp only [List.mem_cons, List.not_mem_nil, or_false] at hl
  rcases hl with rfl | rfl
  · obtain rfl := Except.ok.inj (hhour.symm.trans hread)
    exact iff_of_true (by decide) rfl
  · obtain rfl := Except.ok.inj (hmoved.symm.trans hread)
    exact iff_of_true (by decide) rfl

namespace Replication

/-- A secondary gets the zone; the watcher reads the new file a day later. -/
def versionsRun : List (ReplicationStep Unit) := [.transfer hostServing 7 true [], .watcher (.tick RESIGN_INTERVAL),
  .watcher (.poll [(['x'], zonePath)]), .watcher (.load (unkeyedEnv movedFile)), .watcher (.publish [['x']])]

theorem versionsRun_start : ∃ m, startUp (fun _ => unkeyedEnv hourFile) [zonePath] = .ok m ∧ m.zones.keys = [['x']] ∧
    m.listed = [(['x'], zonePath)] ∧ ∃ z, m.getZone ['x'] = some z := by
  have hread : ZoneManager.readZone (unkeyedEnv hourFile) ['x'] zonePath = .ok (zoneOf hourFile) := load_read files_load.1
  have horigin : originOf zonePath = ['x'] := by decide
  rw [startUp, configured, List.zipIdx_cons, List.map_cons, loadEach, ZoneManager.loadZone, horigin, hread]
  exact ⟨_, rfl, rfl, rfl, _, rfl⟩

theorem versionsRun_made {m : ZoneManager} (hlisted : m.listed = [(['x'], zonePath)]) (zones : List Zone) :
    (Replication.mk (.start 0 m zones) none).made (versionsRun ++ [.transfer hostServing 8 false []]) = [movedLoad] := by
  have hpoll : (((ReloadWatcher.start 0 m zones).step (.tick RESIGN_INTERVAL)).step (.poll [(['x'], zonePath)])) =
      ((ReloadWatcher.start 0 m zones).step (.tick RESIGN_INTERVAL)).begin [(['x'], zonePath)] :=
    ReloadWatcher.step_poll rfl (Nat.add_le_add_left (by decide) _) (.inr (Nat.le_refl _)) (hlisted ▸ .refl _)
  show (ReloadWatcher.start 0 m zones).made [.tick RESIGN_INTERVAL, .poll [(['x'], zonePath)],
      .load (unkeyedEnv movedFile),
    .publish [['x']]] = [movedLoad]
  rw [ReloadWatcher.made, ReloadWatcher.made, hpoll, ReloadWatcher.made, ReloadWatcher.makes_load rfl]
  rfl

end Replication

end Ironbind
