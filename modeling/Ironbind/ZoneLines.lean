import Ironbind.Bailiwick
import Ironbind.SignedZone

/- A zone file as its records. The loader joins lines until their parentheses are
   closed (`recordTexts`); a text is a directive or a record line, and all that earlier
   texts leave for it is a context of three values (`readText`). So the zone that a
   file leaves is its records, entered in order, under the origin that the last
   $ORIGIN of the file names (`loadFile_eq`, `readTexts_origin`). That origin is the
   apex every later step takes the zone to have, and nothing holds it, or the owners of
   the records, to the SOA record's (`loadFile_inside_iff`). -/
namespace Ironbind
open Codec

/-! Texts. -/

/-- The lines joined to texts, from what is pending of one; a text still open at the end is dropped. -/
def joinLines : Text → Int → List Text → List Text
  | _, _, [] => []
  | pending, openParentheses, rawLine :: rest =>
    let withoutComment := stripZoneComment rawLine
    if pending = [] ∧ trim withoutComment = [] then joinLines pending openParentheses rest
    else
      let pending := pending ++ withoutComment ++ [' ']
      let openParentheses := openParentheses + parenthesisBalance withoutComment
      if openParentheses > 0 then joinLines pending openParentheses rest
      else pending :: joinLines [] 0 rest

/-- The directives and record lines of a file. -/
def recordTexts (content : Text) : List Text := joinLines [] 0 (lines content)

/-- What a text is read in. -/
structure LineContext where
  defaultTtl : UInt32
  origin : Text
  lastName : Text
  deriving DecidableEq

/-- The origin that a text sets. -/
def originDirective (text : Text) : Option Text :=
  let line := trim text
  if ['$', 'O', 'R', 'I', 'G', 'I', 'N'].isPrefixOf line then
    ((splitWhitespace line)[1]?).map fun o => toAsciiLowercase (trimEndMatches '.' o)
  else none

/-- A text read in its context: the context it leaves, and its record. -/
def readText (ctx : LineContext) (text : Text) : Except Panic (LineContext × Option Record) :=
  let line := trim text
  if line = [] then .ok (ctx, none)
  else if ['$', 'O', 'R', 'I', 'G', 'I', 'N'].isPrefixOf line then
    .ok ({ ctx with origin := (originDirective text).getD ctx.origin }, none)
  else if ['$', 'T', 'T', 'L'].isPrefixOf line then
    .ok ({ ctx with defaultTtl := (((splitWhitespace line)[1]?).map parseTtl).getD ctx.defaultTtl }, none)
  else if line.head? = some '$' then .ok (ctx, none)
  else
    (parseRecord ctx.origin ctx.lastName ctx.defaultTtl (text.head?.any isWhitespace) (tokenizeZoneLine line)).map
      fun out => ({ ctx with lastName := out.1 }, out.2)

def readTexts : LineContext → List Text → Except Panic (LineContext × List Record)
  | ctx, [] => .ok (ctx, [])
  | ctx, text :: texts => do
    let (ctx, r) ← readText ctx text
    let (ctx, rs) ← readTexts ctx texts
    pure (ctx, r.toList ++ rs)

/-- The context a file of an origin is read in. -/
def LineContext.start (origin : Text) : LineContext := ⟨3600, origin, origin⟩

/-- The last origin a file sets. -/
def lastOrigin (origin : Text) (texts : List Text) : Text :=
  texts.foldl (fun origin text => (originDirective text).getD origin) origin

/-! The loader reads texts. -/

def LoadState.context (s : LoadState) : LineContext := ⟨s.defaultTtl, s.origin, s.lastName⟩

/-- The state with a context reached and records entered. -/
def LoadState.enter (s : LoadState) (ctx : LineContext) (rs : List Record) : LoadState :=
  { s with
    zone := { rs.foldl Zone.add s.zone with origin := ctx.origin }
    defaultTtl := ctx.defaultTtl
    origin := ctx.origin
    lastName := ctx.lastName }

theorem Zone.foldl_add_origin (o : Text) : ∀ (rs : List Record) (z : Zone),
    rs.foldl Zone.add { z with origin := o } = { rs.foldl Zone.add z with origin := o }
  | [], _ => rfl
  | r :: rs, z => foldl_add_origin o rs (z.add r)

theorem LoadState.enter_enter (s : LoadState) (ctx ctx' : LineContext) (rs rs' : List Record) :
    (s.enter ctx rs).enter ctx' rs' = s.enter ctx' (rs ++ rs') := by
  simp only [enter, Zone.foldl_add_origin, List.foldl_append]

/-- One text read, from a state whose zone has the state's origin. -/
theorem loadText_eq {s : LoadState} (h : s.zone.origin = s.origin) (text : Text) :
    loadText s text = (readText s.context text).map fun out => s.enter out.1 out.2.toList := by
  have hsame : s.enter s.context [] = s := by
    obtain ⟨z, ttl, origin, last, pending, opened⟩ := s
    obtain rfl : z.origin = origin := h
    rfl
  simp only [loadText, readText]
  split
  · exact congrArg Except.ok hsame.symm
  split
  · next hprefix =>
    simp only [originDirective, hprefix, if_true]
    cases (splitWhitespace (trim text))[1]? with
    | none => exact congrArg Except.ok hsame.symm
    | some o => rfl
  split
  · cases (splitWhitespace (trim text))[1]? with
    | none => exact congrArg Except.ok hsame.symm
    | some t => simp [Except.map, LoadState.enter, LoadState.context, ← h]
  split
  · exact congrArg Except.ok hsame.symm
  · simp only [LoadState.context]
    cases parseRecord s.origin s.lastName s.defaultTtl (text.head?.any isWhitespace)
        (tokenizeZoneLine (trim text)) with
    | error e => rfl
    | ok out =>
      obtain ⟨last, r⟩ := out
      cases r with
      | none => simp [Except.map, LoadState.enter, ← h]
      | some r => simp [Except.map, LoadState.enter, ← h, Zone.add]

/-- The lines read from a state, a text at a time. -/
theorem foldlM_loadLine_eq : ∀ (ls : List Text) {s : LoadState}, s.zone.origin = s.origin →
    (ls.foldlM loadLine s).map LoadState.zone =
      (readTexts s.context (joinLines s.pending s.openParentheses ls)).map fun out => (s.enter out.1 out.2).zone
  | [], s, h => by simp [joinLines, readTexts, Except.map, LoadState.enter, LoadState.context, ← h, pure, Except.pure]
  | line :: ls, s, h => by
    rw [List.foldlM_cons, loadLine, joinLines]
    by_cases hblank : s.pending = [] ∧ trim (stripZoneComment line) = []
    · rw [if_pos hblank, if_pos hblank]
      exact foldlM_loadLine_eq ls h
    · rw [if_neg hblank, if_neg hblank]
      dsimp only
      by_cases hopen : s.openParentheses + parenthesisBalance (stripZoneComment line) > 0
      · rw [if_pos hopen, if_pos hopen]
        exact foldlM_loadLine_eq ls h
      · have hclosed : ({ s with pending := [], openParentheses := 0 } : LoadState).zone.origin = s.origin := h
        rw [if_neg hopen, if_neg hopen, loadText_eq hclosed, readTexts]
        simp only [LoadState.context]
        cases hr : readText ⟨s.defaultTtl, s.origin, s.lastName⟩ (s.pending ++ stripZoneComment line ++ [' ']) with
        | error e => rfl
        | ok out =>
          let s' := ({ s with pending := [], openParentheses := 0 } : LoadState).enter out.1 out.2.toList
          calc (ls.foldlM loadLine s').map LoadState.zone
              = (readTexts out.1 (joinLines [] 0 ls)).map fun rest => (s'.enter rest.1 rest.2).zone :=
                foldlM_loadLine_eq ls rfl
            _ = (readTexts out.1 (joinLines [] 0 ls)).map fun rest =>
                  (s.enter rest.1 (out.2.toList ++ rest.2)).zone := by simp only [s', LoadState.enter_enter]; rfl
            _ = _ := by
                cases hrest : readTexts out.1 (joinLines [] 0 ls) with
                | error e => simp [bind, Except.bind, Except.map, hrest]
                | ok rest => simp [bind, Except.bind, Except.map, pure, Except.pure, hrest]

/-- **A file leaves its records, under the last origin.** -/
theorem Zone.loadFile_eq (z : Zone) (content : Text) : z.loadFile content =
    (readTexts (.start z.origin) (recordTexts content)).map fun out =>
      { out.2.foldl Zone.add z with origin := out.1.origin } := by
  have h := foldlM_loadLine_eq (lines content) (s := ⟨z, 3600, z.origin, z.origin, [], 0⟩) rfl
  exact h

theorem readText_origin {ctx ctx' : LineContext} {text : Text} {r : Option Record}
    (h : readText ctx text = .ok (ctx', r)) : ctx'.origin = (originDirective text).getD ctx.origin := by
  simp only [readText] at h
  split at h
  · next hline => cases h; simp [originDirective, hline]
  split at h
  · cases h; rfl
  · next hprefix =>
    have hnone : originDirective text = none := by simp [originDirective, hprefix]
    rw [hnone]
    split at h
    · cases h; rfl
    split at h
    · cases h; rfl
    · cases hp : parseRecord ctx.origin ctx.lastName ctx.defaultTtl (text.head?.any isWhitespace)
          (tokenizeZoneLine (trim text)) with
      | error e => rw [hp] at h; cases h
      | ok out => rw [hp] at h; cases h; rfl

theorem readTexts_cons_ok {ctx ctx' : LineContext} {text : Text} {texts : List Text} {rs : List Record}
    (h : readTexts ctx (text :: texts) = .ok (ctx', rs)) : ∃ next r rest, readText ctx text = .ok (next, r) ∧
      readTexts next texts = .ok (ctx', rest) ∧ rs = r.toList ++ rest := by
  rw [readTexts] at h
  cases hr : readText ctx text with
  | error e => rw [hr] at h; cases h
  | ok out =>
    cases hrest : readTexts out.1 texts with
    | error e => simp [hr, hrest, bind, Except.bind] at h
    | ok rest =>
      simp only [hr, hrest, bind, Except.bind, pure, Except.pure, Except.ok.injEq, Prod.mk.injEq] at h
      exact ⟨out.1, out.2, rest.2, rfl, by rw [hrest, ← h.1], h.2.symm⟩

/-- The origin at the end of a file is the last it sets. -/
theorem readTexts_origin : ∀ {texts : List Text} {ctx ctx' : LineContext} {rs : List Record},
    readTexts ctx texts = .ok (ctx', rs) → ctx'.origin = lastOrigin ctx.origin texts
  | [], _, _, _, h => by cases h; rfl
  | text :: texts, ctx, ctx', rs, h => by
    obtain ⟨next, r, rest, hr, hrest, _⟩ := readTexts_cons_ok h
    rw [readTexts_origin hrest, readText_origin hr]
    rfl

/-! The apex. -/

/-- The zone's origin is the owner of its SOA record, and every name is there or below. -/
def Zone.Inside (z : Zone) (soa : Record) : Prop :=
  z.origin = soa.name ∧ ∀ owner ∈ z.names.keys, Contains z.origin owner

theorem Zone.loadFile_of_read {origin content : Text} {ctx : LineContext} {rs : List Record}
    (h : readTexts (.start (Zone.new origin).origin) (recordTexts content) = .ok (ctx, rs)) :
    ∃ z, (Zone.new origin).loadFile content = .ok z ∧
      z.origin = lastOrigin (Zone.new origin).origin (recordTexts content) ∧
      ∀ owner, owner ∈ z.names.keys ↔ ∃ r ∈ rs, toAsciiLowercase r.name = owner := by
  refine ⟨_, by rw [loadFile_eq, h]; rfl, readTexts_origin h, fun owner => ?_⟩
  show owner ∈ (rs.foldl Zone.add (Zone.new origin)).names.keys ↔ _
  rw [mem_names_foldl_add]
  exact or_iff_right List.not_mem_nil

/-- **Where a zone is inside its apex.** A file leaves a zone whose origin is the owner of its SOA record, with every
    name there or below, exactly when the last origin the file sets is that owner and every record's
    owner is there or below. -/
theorem loadFile_inside_iff (origin content : Text) (ctx : LineContext) (rs : List Record) (soa : Record)
    (hread : readTexts (.start (Zone.new origin).origin) (recordTexts content) = .ok (ctx, rs)) :
    ∃ z, (Zone.new origin).loadFile content = .ok z ∧
      (z.Inside soa ↔ lastOrigin (Zone.new origin).origin (recordTexts content) = soa.name ∧
        ∀ r ∈ rs, Contains soa.name r.name) := by
  obtain ⟨z, hload, horigin, hnames⟩ := Zone.loadFile_of_read hread
  refine ⟨z, hload, ?_⟩
  rw [Zone.Inside, horigin]
  refine and_congr_right fun heq => ?_
  rw [heq]
  simp only [hnames, forall_exists_index, and_imp, forall_apply_eq_imp_iff₂]
  refine forall₂_congr fun r _ => ?_
  rw [Contains, zoneLabels_lower, Contains]

def apexSoa : Record := ⟨['x'], .SOA, CLASS_IN, 3600,
  Builder.name ['n', '.', 'x'] ++ Builder.name ['m', '.', 'x'] ++
    [0, 0, 0, 1, 0, 0, 0, 2, 0, 0, 0, 3, 0, 0, 0, 4, 0, 0, 0, 5]⟩

def hostRecord : Record := ⟨['w', '.', 'x'], .A, CLASS_IN, 3600, [192, 0, 2, 1]⟩

/-- The names below the apex first, under an origin of their own, and then the apex. -/
def insideFile : Text := "$ORIGIN s.x.\nw A 192.0.2.1\n$ORIGIN x.\n@ SOA n m 1 2 3 4 5\n".toList

theorem insideFile_inside : ∃ z, (Zone.new ['y']).loadFile insideFile = .ok z ∧ z.Inside apexSoa := by
  obtain ⟨z, hload, hinside⟩ := loadFile_inside_iff ['y'] insideFile ⟨3600, ['x'], ['x']⟩
    [{ hostRecord with name := ['w', '.', 's', '.', 'x'] }, apexSoa] apexSoa (by decide)
  exact ⟨z, hload, hinside.mpr (by unfold Contains; decide)⟩

/-- A second origin, for the names below it. -/
def subdomainFile : Text := "@ SOA n m 1 2 3 4 5\n$ORIGIN s.x.\nw A 192.0.2.1\n".toList

/-- The apex moves to the second origin, where there is no SOA record. -/
theorem subdomainFile_moves : (∃ ctx rs,
      readTexts (.start (Zone.new ['x']).origin) (recordTexts subdomainFile) = .ok (ctx, rs) ∧
      rs.filter (fun r => r.rtype = .SOA) = [apexSoa]) ∧
    ∀ z, (Zone.new ['x']).loadFile subdomainFile = .ok z → ¬ z.Inside apexSoa := by
  have hread : readTexts (.start (Zone.new ['x']).origin) (recordTexts subdomainFile) =
      .ok (⟨3600, ['s', '.', 'x'], ['w', '.', 's', '.', 'x']⟩,
        [apexSoa, { hostRecord with name := ['w', '.', 's', '.', 'x'] }]) := by decide
  refine ⟨⟨_, _, hread, by decide⟩, fun z hload hinside => ?_⟩
  obtain ⟨z', hload', horigin, _⟩ := Zone.loadFile_of_read hread
  obtain rfl : z' = z := Except.ok.inj (hload'.symm.trans hload)
  exact absurd (horigin.symm.trans hinside.1) (by decide)

end Ironbind
