import Ironbind.FailedSigning
import Ironbind.ReloadWatcher

/- The times of the signatures that are served. A signature is good for thirty days, and
   nothing but the reload watcher renews it: once a day, and whenever it is told to. The
   zones of the manager are renewed one after the other in a reload, and those that are
   served all at once at its end, so a signature may be as old as the time between two
   reloads and what both take (`Fresh`). While the watcher gets to run and its loads read
   their files, every signature that is served is valid at every moment, with time to
   spare (`served_valid`). -/
namespace Ironbind
open Codec

/-! The times of signatures. -/

/-- A validator reads these times in the data of a signature, if it can read it. -/
def SignedAt (now : UInt32) (s : Record) : Prop := ∀ rrsig, parseRrsig s.rdata = .ok rrsig →
  rrsig.sigInception = ZoneSigner.inceptionAt now ∧ rrsig.sigExpiry = ZoneSigner.expirationAt now

/-- The times stand in front of the signer's name, whatever can be read of that. -/
theorem parseRrsig_times {r rrsig : Rrsig} {tail : Bytes} (h : parseRrsig (rrsigFields r ++ tail) = .ok rrsig) :
    rrsig.sigInception = r.sigInception ∧ rrsig.sigExpiry = r.sigExpiry := by
  have hstart : ∀ b : Bytes, Parser.rrsig b 0 = Parser.rrsig ([] ++ b) ([] : Bytes).length := fun _ => rfl
  simp only [rrsigFields, Builder.u16, Builder.u8, Builder.u32, List.append_assoc] at h
  rw [parseRrsig, Reader.run, hstart, Parser.rrsig, (u16_decodes r.typeCovered).step, (u8_decodes r.algorithm).step,
    (u8_decodes r.labels).step, (u32_decodes r.origTtl).step, (u32_decodes r.sigExpiry).step,
    (u32_decodes r.sigInception).step, (u16_decodes r.keyTag).step] at h
  obtain ⟨signer, _, -, hrest⟩ := Reader.bind_eq_ok (Prod.ext h rfl : _ = (Except.ok rrsig, _))
  obtain ⟨length, _, -, hbytes⟩ := Reader.bind_eq_ok hrest
  obtain ⟨signature, _, -, hpure⟩ := Reader.bind_eq_ok hbytes
  cases hpure
  exact ⟨rfl, rfl⟩

section
variable {rsa : Rsa} {now : UInt32} {origin : Text} {key zsk : DnsKey} {ksk : Option DnsKey} {rrset : List Record}
  {s : Record} {tag : UInt16}

theorem signedAt_made (h : (ZoneSigner.new now zsk ksk).signRrsetWithKey rsa key rrset origin tag = .ok s) :
    SignedAt now s := by
  cases rrset with
  | nil => cases h
  | cons first rest =>
    rw [ZoneSigner.signRrsetWithKey] at h
    cases hs : ZoneSigner.signData rsa key
        (buildSignedData ((ZoneSigner.new now zsk ksk).rrsigTemplate key first origin tag) (first :: rest)) with
    | error e => rw [hs] at h; cases h
    | ok signature =>
      rw [hs] at h
      cases h
      exact fun rrsig hparse => parseRrsig_times hparse

end

/-- A zone from the loader has no signatures but those that this load made. -/
theorem signedAt_readZone {env : LoadEnv} {origin path n : Text} {z : Zone} {s : Record}
    (h : ZoneManager.readZone env origin path = .ok z) (hs : s ∈ z.recordsAt (n, RType.RRSIG.toU16)) :
    SignedAt env.now s := by
  cases hcontent : env.files.read path with
  | error e =>
    rw [ZoneManager.readZone, hcontent] at h
    cases h
  | ok content =>
    cases hload : (Zone.new origin).loadFile content with
    | error p =>
      simp only [ZoneManager.readZone, hcontent, Except.mapError, bind, Except.bind, hload] at h
      cases h
    | ok z₀ =>
      have hz := Zone.loadFile_loaded hload
      have hnone : z₀.recordsAt (n, RType.RRSIG.toU16) = [] := hz.recordsAt_eq_nil (by decide)
      rw [readZone_eq hcontent hload] at h
      obtain rfl := Except.ok.inj h
      split at hs
      · by_cases hends : EndsUntouched env.rsa env.files KEY_DIRECTORY z₀
        · rw [signZone_untouched hends, hnone] at hs
          cases hs
        · rw [EndsUntouched, not_or] at hends
          obtain ⟨hapex, hstarts⟩ := hends
          push Not at hstarts
          obtain ⟨zsk, ksk, hread, hrdata⟩ := hstarts
          have hapex : z₀.lookup z₀.origin .DNSKEY = none := by simpa using hapex
          have hrdata : (zsk.dnskeyRdata env.rsa).isOk = true := by simpa using hrdata
          cases @signZone_ending env.rsa env.files env.now env.signOrder KEY_DIRECTORY z₀ zsk ksk hapex hread hrdata with
          | unpublished key hkey hfails hresult hzone =>
            obtain ⟨-, keys, -, -, hat⟩ := keyed_spec hz hread hrdata
            rw [hzone, hat, hnone, if_neg, List.nil_append] at hs
            · cases hs
            · exact fun h => absurd (congrArg Prod.snd h) (show RType.RRSIG.toU16 ≠ RType.DNSKEY.toU16 by decide)
          | unsigned kskTag rrset hrrset htags hfails hresult hzone =>
            rw [hzone, prepared_rrsig hz hread hrdata] at hs
            cases hs
          | signed zskTag kskTag rrsigs hzskTag htags hall hksk hrrsigs hresult hzone =>
            rw [hzone, Zone.recordsAt_foldl_add, prepared_rrsig hz hread hrdata, List.nil_append] at hs
            obtain ⟨rrset, -, hmakes⟩ := (hrrsigs s).mp (List.mem_of_mem_filter hs)
            obtain ⟨key, tag, hmade⟩ := hmakes.made
            exact signedAt_made hmade
      · rw [hnone] at hs
        cases hs

/-! Zones in time. -/

/-- `SystemTime::now` in seconds, as the signer takes it. -/
def unixTime (clock : Nat) : UInt32 := UInt32.ofNat (clock / nanosPerSec)

/-- The signatures of a zone were made in this stretch of time. -/
def Dated (first last : Nat) (z : Zone) : Prop := ∀ n, ∀ s ∈ z.recordsAt (n, RType.RRSIG.toU16),
  ∃ t, first ≤ t ∧ t ≤ last ∧ SignedAt (unixTime t) s

theorem Dated.mono {a b a' b' : Nat} {z : Zone} (h : Dated a b z) (ha : a' ≤ a) (hb : b ≤ b') : Dated a' b' z :=
  fun n s hs =>
    let ⟨t, hat, htb, hsigned⟩ := h n s hs
    ⟨t, ha.trans hat, htb.trans hb, hsigned⟩

/-- The zone served for want of others. -/
def exampleLocal : Zone :=
  ((Zone.new "example.local".toList).add
      { name := "example.local".toList, rtype := .A, rclass := CLASS_IN, ttl := 300, rdata := [127, 0, 0, 1] }).add
    { name := "example.local".toList, rtype := .TXT, rclass := CLASS_IN, ttl := 300
      rdata := UInt8.ofNat "ironbind test zone".length :: utf8 "ironbind test zone".toList }

/-- What `main` serves at first: the zones that were loaded, or the built-in one. -/
def initialZones (m : ZoneManager) (order : List Text) : List Zone :=
  let zones := order.filterMap m.getZone
  if zones = [] then [exampleLocal] else zones

theorem exampleLocal_unsigned (n : Text) : exampleLocal.recordsAt (n, RType.RRSIG.toU16) = [] := by
  have hne : ∀ r : Record, r.rtype.toU16 ≠ RType.RRSIG.toU16 → Zone.recordKey r ≠ (n, RType.RRSIG.toU16) :=
    fun r hr h => hr (congrArg Prod.snd h)
  rw [exampleLocal, Zone.recordsAt_add, if_neg (hne _ (by decide)), Zone.recordsAt_add, if_neg (hne _ (by decide))]
  rfl

namespace ReloadWatcher

/-- The threads get to run: the watcher looks no more than `gap` after it fell asleep, a reload takes no longer than
    `loading`, and the watcher is up. -/
structure OnTime (gap loading : Nat) (st : ReloadWatcher) : Prop where
  asleep : ∀ since, st.phase = .asleep since → st.clock ≤ since + gap
  loading : ∀ left, st.phase = .loading left → st.clock ≤ st.lastSigned + loading
  up : ∀ since, st.phase ≠ .down since

/-- A run on time, in which every load reads its file, and signs by the clock. -/
def WellTimed (gap loading : Nat) : ReloadWatcher → List WatcherStep → Prop
  | st, [] => OnTime gap loading st
  | st, s :: steps => OnTime gap loading st ∧
    (∀ l ∈ st.makes s, l.read.isOk = true ∧ l.1.now = unixTime st.clock) ∧ WellTimed gap loading (st.step s) steps

/-- The age that signatures may have when a reload begins. -/
def stretch (gap loading : Nat) : Nat := RESIGN_INTERVAL + gap + 2 * loading

/-- What holds of the signatures. Asleep, the last reload made all of them; in a reload, those of the zones that are
    left, and those that are served, may be from the one before. -/
structure Fresh (gap loading : Nat) (st : ReloadWatcher) : Prop where
  asleep : ∀ since, st.phase = .asleep since → since ≤ st.lastSigned + RESIGN_INTERVAL + loading ∧
    (∀ o z, st.manager.getZone o = some z → Dated (st.lastSigned - loading) st.clock z) ∧
    ∀ z ∈ st.zones, Dated (st.lastSigned - loading) st.clock z
  loading : ∀ left, st.phase = .loading left →
    (∀ o z, st.manager.getZone o = some z → Dated st.lastSigned st.clock z ∨
      (∃ path, (o, path) ∈ left) ∧ Dated (st.lastSigned - stretch gap loading) st.clock z) ∧
    ∀ z ∈ st.zones, Dated (st.lastSigned - stretch gap loading) st.clock z
  listed : ∀ o z, st.manager.getZone o = some z → ∃ path, st.manager.zoneFiles.lookup o = some path
  served : (∀ z ∈ st.zones, ∀ a b, Dated a b z) ∨ ∃ o z, st.manager.getZone o = some z
  past : st.lastSigned ≤ st.clock

section
variable {gap loading : Nat} {st st' : ReloadWatcher} {s : WatcherStep}

/-- A zone that is there is there after a load, and listed. -/
theorem getZone_attempt {m : ZoneManager} {l : Load} {o : Text} {z : Zone} (hz : (m.attempt l).getZone o = some z) :
    l.2.1 = o ∧ l.read = .ok z ∨ (l.2.1 = o → l.read.isOk = false) ∧ m.getZone o = some z := by
  rw [lookup_attempt] at hz
  split_ifs at hz with ho
  · cases hread : l.read with
    | ok z' =>
      rw [hread] at hz
      exact .inl ⟨ho, congrArg Except.ok (Option.some.inj hz)⟩
    | error e =>
      rw [hread] at hz
      exact .inr ⟨fun _ => rfl, hz⟩
  · exact .inr ⟨fun h => absurd h ho, hz⟩

theorem listed_attempt {m : ZoneManager} (h : ∀ o z, m.getZone o = some z → ∃ path, m.zoneFiles.lookup o = some path)
    (l : Load) : ∀ o z, (m.attempt l).getZone o = some z → ∃ path, (m.attempt l).zoneFiles.lookup o = some path := by
  intro o z hz
  by_cases ho : l.2.1 = o
  · subst ho
    rw [ZoneManager.attempt_lists]
    rcases getZone_attempt hz with ⟨-, hread⟩ | ⟨-, hold⟩
    · exact ⟨l.2.2, by rw [ZoneManager.lists, hread]; rfl⟩
    · obtain ⟨path, hpath⟩ := h _ z hold
      rw [hpath, ZoneManager.lists]
      split
      · exact ⟨_, rfl⟩
      · exact ⟨path, rfl⟩
  · rw [ZoneManager.attempt_files_local.other m l o ho]
    rcases getZone_attempt hz with ⟨heq, -⟩ | ⟨-, hold⟩
    · exact absurd heq ho
    · exact h o z hold

theorem listed_foldl (ls : List Load) : ∀ o z, (ls.foldl ZoneManager.attempt .new).getZone o = some z →
    ∃ path, (ls.foldl ZoneManager.attempt .new).zoneFiles.lookup o = some path := by
  induction ls using List.reverseRecOn with
  | nil => exact fun o z hz => by cases hz
  | append_singleton ls l ih =>
    rw [List.foldl_append]
    exact listed_attempt ih l

theorem exists_getZone_attempt {m : ZoneManager} (h : ∃ o z, m.getZone o = some z) (l : Load) :
    ∃ o z, (m.attempt l).getZone o = some z := by
  obtain ⟨o, z, hz⟩ := h
  refine ⟨o, ?_⟩
  rw [lookup_attempt, hz]
  cases (if l.2.1 = o then l.read.toOption else none) with
  | none => exact ⟨z, rfl⟩
  | some z' => exact ⟨z', rfl⟩

/-- Time passes, and what is dated stays so. -/
theorem Fresh.ticks (h : Fresh gap loading st) (nanos : Nat) :
    Fresh gap loading { st with clock := st.clock + nanos } where
  asleep since hphase := by
    obtain ⟨hsince, hzones, hserved⟩ := h.asleep since hphase
    exact ⟨hsince, fun o z hz => (hzones o z hz).mono le_rfl (Nat.le_add_right _ _),
      fun z hz => (hserved z hz).mono le_rfl (Nat.le_add_right _ _)⟩
  loading left hphase := by
    obtain ⟨hzones, hserved⟩ := h.loading left hphase
    exact ⟨fun o z hz => (hzones o z hz).imp (fun h => h.mono le_rfl (Nat.le_add_right _ _))
      fun h => ⟨h.1, h.2.mono le_rfl (Nat.le_add_right _ _)⟩,
      fun z hz => (hserved z hz).mono le_rfl (Nat.le_add_right _ _)⟩
  listed := h.listed
  served := h.served
  past := Nat.le_add_right_of_le h.past

/-- A reload begins: every zone is left to load, with signatures of the last one. -/
theorem Fresh.begins (h : Fresh gap loading st) (htime : OnTime gap loading st) {since : Nat}
    (hphase : st.phase = .asleep since) {order : List (Text × Text)} (horder : order.Perm st.manager.listed) :
    Fresh gap loading (st.begin order) := by
  obtain ⟨hsince, hzones, hold⟩ := h.asleep since hphase
  have hnow := htime.asleep since hphase
  have hage : st.clock - stretch gap loading ≤ st.lastSigned - loading := by rw [stretch]; omega
  refine ⟨fun since he => (by cases he), fun left he => ?_, h.listed, h.served, Nat.le_refl _⟩
  cases he
  refine ⟨fun o z hz => .inr ⟨?_, (hzones o z hz).mono hage le_rfl⟩, fun z hz => (hold z hz).mono hage le_rfl⟩
  obtain ⟨path, hpath⟩ := h.listed o z hz
  exact ⟨path, horder.mem_iff.mpr (ZoneManager.mem_listed.mpr hpath)⟩

/-- A load that reads its file: the zone it makes is signed by the clock, the others are as they were. -/
theorem Fresh.loads (h : Fresh gap loading st) {env : LoadEnv} {origin path : Text} {left : List (Text × Text)}
    (hphase : st.phase = .loading ((origin, path) :: left)) (hread : (Load.read (env, origin, path)).isOk = true)
    (hnow : env.now = unixTime st.clock) : Fresh gap loading (st.load env origin path left) := by
  obtain ⟨hmanager, hzones, hclock, hsigned, -, hnext⟩ := @load_eq st env origin path left
  have hphase' : (st.load env origin path left).phase = .loading left := by
    refine hnext.resolve_right ?_
    rintro ⟨-, p, hp⟩
    rw [hp] at hread
    cases hread
  obtain ⟨hheld, hold⟩ := h.loading _ hphase
  refine ⟨fun since he => ?_, fun left' he => ?_, ?_, ?_, ?_⟩
  · rw [hphase'] at he
    cases he
  · rw [hphase'] at he
    cases he
    rw [hmanager, hzones, hclock, hsigned]
    refine ⟨fun o z hz => ?_, hold⟩
    rcases getZone_attempt hz with ⟨-, hz⟩ | ⟨hother, hz⟩
    · exact .inl fun n s hs => ⟨st.clock, h.past, le_rfl, hnow ▸ signedAt_readZone hz hs⟩
    · -- a zone that is left to load is another than the one just read
      refine (hheld o z hz).imp_right fun ⟨⟨p, hp⟩, hdated⟩ => ⟨⟨p, ?_⟩, hdated⟩
      refine (List.mem_cons.mp hp).resolve_left fun he => ?_
      have := hother (congrArg Prod.fst he).symm
      rw [hread] at this
      cases this
  · rw [hmanager]
    exact listed_attempt h.listed _
  · rw [hmanager, hzones]
    exact h.served.imp_right fun h => exists_getZone_attempt h _
  · rw [hclock, hsigned]
    exact h.past

/-- What is published when no zone is left: the zones of the manager, or what was served, which then has no
    signatures. -/
theorem mem_publish (h : Fresh gap loading st) {order : List Text} (horder : order.Perm st.manager.zones.keys)
    {z : Zone} (hz : z ∈ (st.publish order).zones) :
    (∀ a b, Dated a b z) ∨ ∃ o, st.manager.getZone o = some z := by
  have hperm := perm_getZones horder
  by_cases hnone : order.filterMap st.manager.getZone = []
  · rw [publish] at hz
    simp only [if_pos hnone] at hz
    rcases h.served with hserved | ⟨o, z', hz'⟩
    · exact .inl (hserved z hz)
    · have hmem := hperm.symm.subset (ZoneManager.mem_getZones.mpr ⟨o, hz'⟩)
      rw [hnone] at hmem
      exact absurd hmem List.not_mem_nil
  · rw [publish] at hz
    simp only [if_neg hnone] at hz
    exact .inr (ZoneManager.mem_getZones.mp (hperm.subset hz))

/-- A reload ends: the manager has only zones it has just made, and these are served. -/
theorem Fresh.publishes (h : Fresh gap loading st) (htime : OnTime gap loading st) (hphase : st.phase = .loading [])
    {order : List Text} (horder : order.Perm st.manager.zones.keys) : Fresh gap loading (st.publish order) := by
  obtain ⟨hheld, -⟩ := h.loading _ hphase
  have hnow := htime.loading _ hphase
  have hdated : ∀ o z, st.manager.getZone o = some z → Dated (st.lastSigned - loading) st.clock z := by
    intro o z hz
    rcases hheld o z hz with hdated | ⟨⟨p, hp⟩, -⟩
    · exact hdated.mono (Nat.sub_le _ _) le_rfl
    · exact absurd hp List.not_mem_nil
  refine ⟨fun since he => ?_, fun left he => (by cases he), h.listed, ?_, h.past⟩
  · cases he
    refine ⟨show st.clock ≤ st.lastSigned + _ + _ by omega, hdated, fun z hz => ?_⟩
    rcases mem_publish h horder hz with hany | ⟨o, ho⟩
    · exact hany _ _
    · exact hdated o z ho
  · refine or_iff_not_imp_right.mpr fun hempty z hz => ?_
    rcases mem_publish h horder hz with hany | ⟨o, ho⟩
    · exact hany
    · exact absurd ⟨o, z, ho⟩ hempty

theorem Fresh.moves (h : Fresh gap loading st) (htime : OnTime gap loading st)
    (hload : ∀ l ∈ st.makes s, l.read.isOk = true ∧ l.1.now = unixTime st.clock) (hm : Moves st s st') :
    Fresh gap loading st' := by
  cases hm with
  | @tick nanos => exact h.ticks nanos
  | sighup => exact ⟨h.asleep, h.loading, h.listed, h.served, h.past⟩
  | @idle order since hphase hdue =>
    refine ⟨fun since' he => ?_, fun left he => (by cases he), h.listed, h.served, h.past⟩
    cases he
    -- not due: the interval since the last reload has not passed
    rw [Due, not_or] at hdue
    exact ⟨by have := hdue.2; show st.clock ≤ st.lastSigned + _ + _; omega, (h.asleep since hphase).2⟩
  | begin hphase hdue horder => exact h.begins htime hphase horder
  | @load env origin path left hphase =>
    obtain ⟨hread, hnow⟩ := hload (env, origin, path) (by rw [makes_load hphase]; rfl)
    exact h.loads hphase hread hnow
  | publish hphase horder => exact h.publishes htime hphase horder
  | restart hphase => exact absurd hphase (htime.up _)

theorem WellTimed.fresh : ∀ {steps : List WatcherStep} {st : ReloadWatcher}, WellTimed gap loading st steps →
    Fresh gap loading st → Fresh gap loading (st.run steps) ∧ OnTime gap loading (st.run steps)
  | [], _, htime, h => ⟨h, htime⟩
  | s :: _, st, ⟨hon, hload, htime⟩, h => by
    refine htime.fresh ?_
    rcases step_moves st s with ⟨hs, -⟩ | hm
    · rw [hs]; exact h
    · exact h.moves hon hload hm

/-- A zone of the manager was read by one of the loads. -/
theorem read_of_getZone (ls : List Load) {o : Text} {z : Zone}
    (h : (ls.foldl ZoneManager.attempt .new).getZone o = some z) : ∃ l ∈ ls, l.read = .ok z := by
  induction ls using List.reverseRecOn with
  | nil => cases h
  | append_singleton ls l ih =>
    rw [List.foldl_append] at h
    rcases getZone_attempt h with ⟨-, hread⟩ | ⟨-, hold⟩
    · exact ⟨l, List.mem_append_right _ List.mem_cons_self, hread⟩
    · obtain ⟨l', hl', hread⟩ := ih hold
      exact ⟨l', List.mem_append_left _ hl', hread⟩

/-- After a start-up no longer than a reload, the signatures are as new as after one. -/
theorem fresh_start {envs : Nat → LoadEnv} {paths : List Text} {clock : Nat} {m : ZoneManager} {order : List Text}
    (hstart : startUp envs paths = .ok m)
    (hsigned : ∀ i, ∃ t, clock ≤ t + loading ∧ t ≤ clock ∧ (envs i).now = unixTime t)
    (horder : order.Perm m.zones.keys) : Fresh gap loading (start clock m (initialZones m order)) := by
  obtain ⟨-, hm⟩ := ZoneManager.loadEach_ok hstart
  have hdated : ∀ o z, m.getZone o = some z → Dated (clock - loading) clock z := by
    intro o z hz
    rw [hm] at hz
    obtain ⟨l, hl, hread⟩ := read_of_getZone _ hz
    obtain ⟨⟨path, i⟩, -, rfl⟩ := List.mem_map.mp hl
    obtain ⟨t, hlate, hpast, hnow⟩ := hsigned i
    exact fun n s hs => ⟨t, by omega, hpast, hnow ▸ signedAt_readZone hread hs⟩
  have hlisted : ∀ o z, m.getZone o = some z → ∃ path, m.zoneFiles.lookup o = some path := by
    rw [hm]
    exact listed_foldl _
  have hperm := perm_getZones horder
  have hzones : (∀ z ∈ initialZones m order, ∀ a b, Dated a b z) ∨
      (∀ z ∈ initialZones m order, ∃ o, m.getZone o = some z) ∧ ∃ o z, m.getZone o = some z := by
    by_cases hnone : order.filterMap m.getZone = []
    · refine .inl fun z hz a b n s hs => ?_
      rw [initialZones] at hz
      simp only [if_pos hnone, List.mem_singleton] at hz
      rw [hz, exampleLocal_unsigned] at hs
      cases hs
    · have hall : ∀ z ∈ order.filterMap m.getZone, ∃ o, m.getZone o = some z :=
        fun z hz => ZoneManager.mem_getZones.mp (hperm.subset hz)
      obtain ⟨z, hz⟩ := List.exists_mem_of_ne_nil _ hnone
      obtain ⟨o, ho⟩ := hall z hz
      refine .inr ⟨fun z hz => hall z ?_, o, z, ho⟩
      rw [initialZones] at hz
      simpa only [if_neg hnone] using hz
  refine ⟨fun since he => ?_, fun left he => (by cases he), hlisted, hzones.imp_right And.right, Nat.le_refl _⟩
  cases he
  refine ⟨show clock ≤ clock + _ + _ by omega, hdated, fun z hz => ?_⟩
  rcases hzones with h | ⟨h, -⟩
  · exact h z hz _ _
  · obtain ⟨o, ho⟩ := h z hz
    exact hdated o z ho

/-- No signature is older than two reloads are apart. -/
theorem Fresh.age (h : Fresh gap loading st) (htime : OnTime gap loading st) :
    ∀ z ∈ st.zones, Dated (st.clock - (stretch gap loading + loading)) st.clock z := by
  intro z hz
  cases hphase : st.phase with
  | asleep since =>
    obtain ⟨hsince, -, hserved⟩ := h.asleep since hphase
    have hnow := htime.asleep since hphase
    exact (hserved z hz).mono (by rw [stretch]; omega) le_rfl
  | loading left =>
    have hnow := htime.loading left hphase
    exact ((h.loading left hphase).2 z hz).mono (by omega) le_rfl
  | down since => exact absurd hphase (htime.up since)

/-- The times of a signature, in seconds. -/
theorem times_of_signedAt {t last : Nat} (hlast : t ≤ last) (hwrap : last / nanosPerSec + 30 * 24 * 3600 < 2 ^ 32) :
    (ZoneSigner.inceptionAt (unixTime t)).toNat ≤ t / nanosPerSec - 3600 ∧
      (ZoneSigner.expirationAt (unixTime t)).toNat = t / nanosPerSec + 30 * 24 * 3600 := by
  have hle : t / nanosPerSec ≤ last / nanosPerSec := Nat.div_le_div_right hlast
  have hnow : (unixTime t).toNat = t / nanosPerSec := by
    rw [unixTime, UInt32.toNat_ofNat']
    exact Nat.mod_eq_of_lt (by omega)
  generalize t / nanosPerSec = seconds at hle hnow
  generalize last / nanosPerSec = limit at hle hwrap
  constructor
  · rw [ZoneSigner.inceptionAt]
    split
    · exact Nat.zero_le _
    · next hlt =>
      have hge : (3600 : UInt32) ≤ unixTime t := by rw [UInt32.not_lt] at hlt; exact hlt
      rw [UInt32.toNat_sub_of_le _ _ hge, hnow]
      rfl
  · rw [ZoneSigner.expirationAt, UInt32.toNat_add, hnow]
    exact Nat.mod_eq_of_lt (show seconds + 30 * 24 * 3600 < 2 ^ 32 by omega)

end

/-- **The signatures that are served are valid.** The server was started, its watcher gets to look every `gap`, and
    no reload takes longer than `loading`, and each reads its files. Then at every moment of its run, whatever signals
    come, every signature of a served zone is within its times for a resolver whose clock is up to an hour behind
    or `left` ahead, as long as a day, the delays and `left` are less than the thirty days of a signature. -/
theorem served_valid {envs : Nat → LoadEnv} {paths : List Text} {clock gap loading left : Nat} {m : ZoneManager}
    {order : List Text} {steps : List WatcherStep} (hstart : startUp envs paths = .ok m)
    (hsigned : ∀ i, ∃ t, clock ≤ t + loading ∧ t ≤ clock ∧ (envs i).now = unixTime t)
    (horder : order.Perm m.zones.keys)
    (hslack : RESIGN_INTERVAL + gap + 3 * loading + left ≤ 30 * 24 * 3600 * nanosPerSec)
    (htimed : WellTimed gap loading (start clock m (initialZones m order)) steps)
    (hwrap : ((start clock m (initialZones m order)).run steps).clock / nanosPerSec + 30 * 24 * 3600 < 2 ^ 32) :
    ∀ z ∈ ((start clock m (initialZones m order)).run steps).zones, ∀ n, ∀ s ∈ z.recordsAt (n, RType.RRSIG.toU16),
      ∀ rrsig, parseRrsig s.rdata = .ok rrsig → ∀ now : Nat,
        ((start clock m (initialZones m order)).run steps).clock / nanosPerSec ≤ now + 3600 →
        now * nanosPerSec ≤ ((start clock m (initialZones m order)).run steps).clock + left →
        rrsig.sigInception.toNat ≤ now ∧ now ≤ rrsig.sigExpiry.toNat := by
  intro z hz n s hs rrsig hparse now hbehind hahead
  obtain ⟨hfresh, hontime⟩ := htimed.fresh (fresh_start hstart hsigned horder)
  generalize (start clock m (initialZones m order)).run steps = st at *
  obtain ⟨t, hage, hpast, hat⟩ := hfresh.age hontime z hz n s hs
  obtain ⟨hinception, hexpiry⟩ := hat rrsig hparse
  obtain ⟨hfrom, huntil⟩ := times_of_signedAt hpast hwrap
  have hle : t / nanosPerSec ≤ st.clock / nanosPerSec := Nat.div_le_div_right hpast
  rw [stretch] at hage
  rw [hinception, hexpiry, huntil]
  simp only [RESIGN_INTERVAL, nanosPerSec] at hage hslack hbehind hahead hfrom hle ⊢
  omega

section
variable {st : ReloadWatcher} {gap loading since : Nat} {order : List (Text × Text)} {left : List (Text × Text)}
  {env : LoadEnv} {origin path : Text} {z : Zone}

theorem step_poll (hphase : st.phase = .asleep since) (hwoken : since + nanosPerSec ≤ st.clock) (hdue : st.Due)
    (horder : order.Perm st.manager.listed) : st.step (.poll order) = st.begin order := by
  simp only [step, hphase, if_pos hwoken, if_pos hdue, if_pos horder]

theorem step_load (hphase : st.phase = .loading ((origin, path) :: left)) :
    st.step (.load env) = st.load env origin path left := by
  simp only [step, hphase]

theorem load_reads (hread : ZoneManager.readZone env origin path = .ok z) :
    (st.load env origin path left).phase = .loading left ∧
      (st.load env origin path left).manager = ZoneManager.install env origin path st.manager z := by
  rw [load, ZoneManager.loadZone, hread]
  exact ⟨rfl, rfl⟩

theorem step_publish {names : List Text} (hphase : st.phase = .loading []) (hnames : names.Perm st.manager.zones.keys) :
    st.step (.publish names) = st.publish names := by
  simp only [step, hphase, if_pos hnames]

theorem onTime_asleep (hphase : st.phase = .asleep since) (h : st.clock ≤ since + gap) : OnTime gap loading st where
  asleep := fun since' he => by
    rw [hphase] at he
    cases he
    exact h
  loading := fun _ he => WatcherPhase.noConfusion (hphase.symm.trans he)
  up := fun _ he => WatcherPhase.noConfusion (hphase.symm.trans he)

theorem onTime_loading (hphase : st.phase = .loading left) (h : st.clock ≤ st.lastSigned + loading) :
    OnTime gap loading st where
  asleep := fun _ he => WatcherPhase.noConfusion (hphase.symm.trans he)
  loading := fun _ _ => h
  up := fun _ he => WatcherPhase.noConfusion (hphase.symm.trans he)
end

/-- A day of a server with the sample zone: the zone is read and signed again when the day is over. -/
def sampleLoad (now : UInt32) : LoadEnv := { sampleEnv sampleRsa with now := now }

def sampleStart : Nat := 1000000 * nanosPerSec

def sampleDay : List WatcherStep :=
  [.tick RESIGN_INTERVAL, .poll [(['x'], zonePath)], .load (sampleLoad 1086400), .publish [['x']]]

theorem sampleLoad_reads (now : UInt32) : ∃ z, ZoneManager.readZone (sampleLoad now) ['x'] zonePath = .ok z :=
  ⟨_, @readZone_eq (sampleLoad now) ['x'] zonePath sampleFile sampleZone rfl sampleZone_loads⟩

theorem sampleDay_start : ∃ m, startUp (fun _ => sampleLoad 1000000) [zonePath] = .ok m ∧ m.zones.keys = [['x']] ∧
    m.listed = [(['x'], zonePath)] := by
  obtain ⟨z, hz⟩ := sampleLoad_reads 1000000
  have horigin : originOf zonePath = ['x'] := by decide
  rw [startUp, configured, List.zipIdx_cons, List.map_cons, loadEach, ZoneManager.loadZone, horigin, hz]
  exact ⟨_, rfl, rfl, rfl⟩

theorem sampleDay_timed {m : ZoneManager} (hkeys : m.zones.keys = [['x']]) (hlisted : m.listed = [(['x'], zonePath)])
    (zones : List Zone) : WellTimed RESIGN_INTERVAL 0 (start sampleStart m zones) sampleDay ∧
      ((start sampleStart m zones).run sampleDay).clock = sampleStart + RESIGN_INTERVAL := by
  obtain ⟨z, hz⟩ := sampleLoad_reads 1086400
  have hpoll : ((start sampleStart m zones).step (.tick RESIGN_INTERVAL)).step (.poll [(['x'], zonePath)]) =
      ((start sampleStart m zones).step (.tick RESIGN_INTERVAL)).begin [(['x'], zonePath)] :=
    step_poll rfl (Nat.add_le_add_left (by decide) _) (.inr (Nat.le_refl _)) (hlisted ▸ .refl _)
  generalize hbegun : ((start sampleStart m zones).step (.tick RESIGN_INTERVAL)).begin [(['x'], zonePath)] = begun at hpoll
  have hphase : begun.phase = .loading [(['x'], zonePath)] := by rw [← hbegun]; rfl
  have hclock : begun.clock = sampleStart + RESIGN_INTERVAL ∧ begun.lastSigned = sampleStart + RESIGN_INTERVAL := by
    rw [← hbegun]
    exact ⟨rfl, rfl⟩
  obtain ⟨hloaded, hmanager⟩ := @load_reads begun [] _ _ _ _ hz
  have hkept : (begun.load (sampleLoad 1086400) ['x'] zonePath []).clock = begun.clock ∧
      (begun.load (sampleLoad 1086400) ['x'] zonePath []).lastSigned = begun.lastSigned :=
    ⟨load_eq.2.2.1, load_eq.2.2.2.1⟩
  have hnames : [['x']].Perm (begun.load (sampleLoad 1086400) ['x'] zonePath []).manager.zones.keys := by
    have hbefore : begun.manager = m := by rw [← hbegun]; rfl
    rw [hmanager, ZoneManager.install, AList.keys_insert, hbefore, hkeys]
    exact .refl _
  constructor
  · rw [sampleDay, WellTimed, WellTimed, WellTimed, WellTimed, WellTimed, hpoll, step_load hphase,
      step_publish hloaded hnames]
    refine ⟨onTime_asleep rfl (Nat.le_add_right _ _), fun l hl => (by cases hl),
      onTime_asleep rfl (Nat.le_refl _), fun l hl => (by cases hl),
      onTime_loading hphase (by rw [hclock.1, hclock.2]; rfl),
      fun l hl => ?_, onTime_loading hloaded (by rw [hkept.1, hkept.2, hclock.1, hclock.2]; rfl),
      fun l hl => (by cases hl),
      onTime_asleep rfl (Nat.le_add_right _ _)⟩
    rw [makes_load hphase] at hl
    cases hl
    refine ⟨by rw [Load.read, hz]; rfl, ?_⟩
    rw [hclock.1]
    show (1086400 : UInt32) = unixTime (sampleStart + RESIGN_INTERVAL)
    decide
  · rw [run, sampleDay, List.foldl_cons, List.foldl_cons, hpoll, List.foldl_cons, step_load hphase, List.foldl_cons,
      step_publish hloaded hnames]
    exact hkept.1.trans hclock.1

theorem sampleDay_valid : ∃ m, startUp (fun _ => sampleLoad 1000000) [zonePath] = .ok m ∧
    ∀ z ∈ ((start sampleStart m (initialZones m [['x']])).run sampleDay).zones, ∀ n,
      ∀ s ∈ z.recordsAt (n, RType.RRSIG.toU16), ∀ rrsig, parseRrsig s.rdata = .ok rrsig → ∀ now : Nat,
        ((start sampleStart m (initialZones m [['x']])).run sampleDay).clock / nanosPerSec ≤ now + 3600 →
        now * nanosPerSec ≤ ((start sampleStart m (initialZones m [['x']])).run sampleDay).clock + 7 * RESIGN_INTERVAL →
        rrsig.sigInception.toNat ≤ now ∧ now ≤ rrsig.sigExpiry.toNat := by
  obtain ⟨m, hstart, hkeys, hlisted⟩ := sampleDay_start
  obtain ⟨htimed, hclock⟩ := sampleDay_timed hkeys hlisted (initialZones m [['x']])
  have hsigned : ∀ _ : Nat, ∃ t, sampleStart ≤ t + 0 ∧ t ≤ sampleStart ∧ (sampleLoad 1000000).now = unixTime t :=
    fun _ => ⟨sampleStart, Nat.le_refl _, Nat.le_refl _, by decide⟩
  refine ⟨m, hstart, served_valid hstart hsigned (hkeys ▸ .refl _) (by decide) htimed ?_⟩
  rw [hclock]
  decide

end ReloadWatcher

end Ironbind
