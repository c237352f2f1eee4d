import Ironbind.LastField

/- Line breaks and comments inside a record. A record broken into lines inside
   parentheses, with comments and blank lines, leaves the zone that it leaves on one
   line (`lineBreaks_iff`), except for one kind: on one line a last field that ends in an
   escaped blank loses the blank to the trimming of the line, and in the broken form a
   parenthesis behind the field keeps it. -/
namespace Ironbind
open Codec

/-! Files as lines. -/

/-- What is pending of a text behind lines. -/
def joinRest : Text → Int → List Text → Text × Int
  | pending, opened, [] => (pending, opened)
  | pending, opened, rawLine :: rest =>
    let withoutComment := stripZoneComment rawLine
    if pending = [] ∧ trim withoutComment = [] then joinRest pending opened rest
    else
      let pending := pending ++ withoutComment ++ [' ']
      let opened := opened + parenthesisBalance withoutComment
      if opened > 0 then joinRest pending opened rest else joinRest [] 0 rest

theorem joinLines_append (after : List Text) : ∀ (before pending : List _) (opened : Int),
    joinLines pending opened (before ++ after) =
      joinLines pending opened before ++
        joinLines (joinRest pending opened before).1 (joinRest pending opened before).2 after
  | [], pending, opened => rfl
  | rawLine :: rest, pending, opened => by
    rw [List.cons_append, joinLines, joinLines, joinRest]
    dsimp only
    split
    · exact joinLines_append after rest pending opened
    · split
      · exact joinLines_append after rest _ _
      · rw [joinLines_append after rest [] 0, List.cons_append]

/-- Between two texts no parenthesis is open. -/
theorem joinRest_opened : ∀ (before : List Text) (pending : Text) (opened : Int), (pending = [] → opened = 0) →
    (joinRest pending opened before).1 = [] → (joinRest pending opened before).2 = 0
  | [], pending, opened, h, he => h he
  | rawLine :: rest, pending, opened, h, he => by
    rw [joinRest] at he ⊢
    dsimp only at he ⊢
    by_cases hblank : pending = [] ∧ trim (stripZoneComment rawLine) = []
    · rw [if_pos hblank] at he ⊢
      exact joinRest_opened rest pending opened h he
    · rw [if_neg hblank] at he ⊢
      by_cases hopen : opened + parenthesisBalance (stripZoneComment rawLine) > 0
      · rw [if_pos hopen] at he ⊢
        exact joinRest_opened rest _ _ (fun hnil => absurd hnil (by simp)) he
      · rw [if_neg hopen] at he ⊢
        exact joinRest_opened rest [] 0 (fun _ => rfl) he

/-- A text that is read like another may stand for it in a file. -/
theorem readTexts_congr {text text' : Text} (h : ∀ ctx, readText ctx text = readText ctx text') (after : List Text) :
    ∀ (before : List Text) (ctx : LineContext),
      readTexts ctx (before ++ text :: after) = readTexts ctx (before ++ text' :: after)
  | [], ctx => by rw [List.nil_append, List.nil_append, readTexts, readTexts, h]
  | t :: before, ctx => by
    rw [List.cons_append, List.cons_append, readTexts, readTexts]
    cases readText ctx t with
    | error e => rfl
    | ok out =>
      simp only [bind, Except.bind]
      rw [readTexts_congr h after before out.1]

/-- Lines written to a file. -/
def unlines (ls : List Text) : Text := ls.flatMap fun l => l ++ ['\r', '\n']

theorem lines_unlines : ∀ {ls : List Text}, (∀ l ∈ ls, '\n' ∉ l) → lines (unlines ls) = ls
  | [], _ => rfl
  | l :: ls, h => by
    obtain ⟨hl, hls⟩ := List.forall_mem_cons.mp h
    have ih := lines_unlines hls
    have hl' : '\n' ∉ l ++ ['\r'] := by
      intro hm
      obtain hm | hm := List.mem_append.mp hm
      · exact hl hm
      · exact absurd hm (by decide)
    have hsplit : (unlines (l :: ls)).splitOn '\n' = (l ++ ['\r']) :: (unlines ls).splitOn '\n' := by
      have : unlines (l :: ls) = (l ++ ['\r']) ++ '\n' :: unlines ls := by simp [unlines]
      rw [this, List.splitOn_append_cons_self, List.splitOn_eq_singleton hl']
      rfl
    have hcr : stripCr (l ++ ['\r']) = l := by
      rw [stripCr, List.getLast?_concat, if_pos rfl, List.dropLast_concat]
    have hne := List.splitOn_ne_nil '\n' (unlines ls)
    unfold lines at ih ⊢
    dsimp only at ih ⊢
    rw [hsplit, List.dropLast_cons_of_ne_nil hne, List.map_cons, hcr, List.getLast?_cons_of_ne_nil hne,
      List.cons_append, ih]

/-! Records broken into lines. -/

/-- Lines that hold the fields of a record and group them by parentheses, the owner blank or not. -/
structure Broken (blank : Bool) (fields : List Text) (ls : List LaidLine) : Prop where
  fields : ls.flatMap LaidLine.fields = fields
  grouped : LaidLine.Grouped 0 ls
  owner : (ls.head?.any fun l => l.text.head?.any isWhitespace) = blank

/-- A line that holds them with nothing but blanks between. -/
structure OneLine (blank : Bool) (fields : List Text) (line : Text) : Prop where
  laid : ∃ balance, LineLaid isWhitespace fields balance line
  owner : line.head?.any isWhitespace = blank
  unbroken : '\n' ∉ line

/-- A file with the lines leaves every zone as a file with the one line does. -/
def SameZones (ls : List Text) (line : Text) : Prop :=
  ∀ (z : Zone) (content content' : Text) (before after : List Text), (joinRest [] 0 before).1 = [] →
    lines content = before ++ ls ++ after → lines content' = before ++ line :: after →
    z.loadFile content = z.loadFile content'

def quoted (body : Text) : Text := '"' :: (body ++ ['"'])

/-- The broken form is read like the one line, and what either has in quotes, parentheses and
    semicolons among it, is in the tokens the loader reads. -/
structure ReadAlike (fields : List Text) (ls : List LaidLine) (line : Text) : Prop where
  same : SameZones (ls.map LaidLine.raw) line
  quotes : ∀ body, quoted body ∈ fields →
    ∀ text ∈ joinLines [] 0 (ls.map LaidLine.raw) ++ joinLines [] 0 [line], quoted body ∈ tokenizeZoneLine (trim text)

section
variable {sep : Char → Bool} {fields init : List Text} {last line text : Text} {balance : Int} {blank : Bool}
  {ls : List LaidLine}

theorem Laid.balance_blanks (h : Laid isWhitespace fields balance text) : balance = 0 := by
  have hparens : ∀ {gap : Text}, Gap isWhitespace gap → parens gap = 0 := by
    intro gap hgap
    have hcount : ∀ c, isWhitespace c = false → gap.count c = 0 := by
      intro c hc
      rw [List.count_eq_zero]
      intro hm
      rw [hgap c hm] at hc
      cases hc
    rw [parens, hcount '(' (by decide), hcount ')' (by decide)]
    rfl
  induction h with
  | trail hgap => exact hparens hgap
  | field _ hgap _ _ ih => rw [hparens hgap, ih]; rfl

theorem LineLaid.balance_blanks (h : LineLaid isWhitespace fields balance text) : balance = 0 := by
  cases h with
  | behind h => exact h.balance_blanks
  | start _ hrest => exact hrest.balance_blanks

/-- The one line as a line of the broken form. -/
def OneLine.asLaid (h : OneLine blank fields line) : LaidLine where
  fields := fields
  balance := 0
  text := line
  comment := []
  laid := by
    obtain ⟨balance, hlaid⟩ := h.laid
    have := hlaid.mono isSeparator_of_blank
    rwa [hlaid.balance_blanks] at this
  commented := .inl rfl
  unbroken := by rw [List.append_nil]; exact h.unbroken

theorem OneLine.raw (h : OneLine blank fields line) : h.asLaid.raw = line := List.append_nil line

/-- The text of the one line. -/
theorem OneLine.joinLines (h : OneLine blank fields line) (hne : fields ≠ []) (after : List Text) :
    joinLines [] 0 (line :: after) = (line ++ [' ']) :: joinLines [] 0 after := by
  have hjoin := LaidLine.joinLines_grouped after [h.asLaid] [] 0
    (fun _ => ⟨rfl, by rw [List.flatMap_cons, List.flatMap_nil, List.append_nil]; exact hne⟩) (Int.zero_add 0)
  rw [List.map_cons, List.map_nil, h.raw] at hjoin
  rw [List.cons_append, List.nil_append] at hjoin
  rw [hjoin, LaidLine.joined, List.flatMap_cons, List.flatMap_nil, List.append_nil, List.nil_append]
  rfl

/-- The text of the broken form. -/
theorem Broken.joinLines (h : Broken blank fields ls) (hne : fields ≠ []) (after : List Text) :
    joinLines [] 0 (ls.map LaidLine.raw ++ after) = LaidLine.joined ls :: joinLines [] 0 after :=
  LaidLine.joinLines_grouped after ls [] 0 (fun _ => ⟨rfl, by rw [h.fields]; exact hne⟩) h.grouped

theorem OneLine.ne_nil (h : OneLine blank fields line) (hne : fields ≠ []) : line ≠ [] := by
  obtain ⟨balance, hlaid⟩ := h.laid
  intro hnil
  have := tokenize_lineLaid (hlaid.mono isSeparator_of_blank)
  rw [hnil] at this
  exact hne this.symm

/-- The first line is not empty, so the text starts as it does. -/
theorem Broken.head (h : Broken blank fields ls) (hne : fields ≠ []) :
    (LaidLine.joined ls).head?.any isWhitespace = blank := by
  rw [← h.owner]
  cases ls with
  | nil => exact absurd h.grouped (fun hg => hg)
  | cons l rest =>
    have htext : l.text ≠ [] := by
      intro hnil
      have hblank : trim l.text = [] := by rw [hnil]; rfl
      obtain ⟨hbalance, hfields⟩ := LaidLine.of_blank hblank
      cases rest with
      | nil =>
        apply hne
        rw [← h.fields, List.flatMap_cons, hfields]
        rfl
      | cons l' rest =>
        have : 0 < 0 + l.balance := h.grouped.1
        omega
    obtain ⟨c, t, ht⟩ := List.exists_cons_of_ne_nil htext
    simp only [LaidLine.joined, List.flatMap_cons, ht, List.cons_append, List.head?_cons, Option.any_some]

/-- The text of a record starts, behind its blanks, with a separator or its first field. -/
theorem LineLaid.trim_head (h : LineLaid sep (init ++ [last]) balance text)
    (hs : ∀ c, sep c = true → isSeparator c = true) (hd : (init ++ [last]).head?.bind List.head? ≠ some '$') :
    trim text ≠ [] ∧ (trim text).head? ≠ some '$' := by
  have hne : trim text ≠ [] := by
    intro hnil
    have := tokenize_laid h hs
    rw [hnil] at this
    simp [tokenizeZoneLine, tokenizeLoop] at this
  refine ⟨hne, ?_⟩
  obtain ⟨balance', h'⟩ := h.trimStart
  have hfront : (text.dropWhile isWhitespace).head? ≠ some '$' := by
    generalize hf : init ++ [last] = fields at h' hd
    generalize text.dropWhile isWhitespace = trimmed at h' ⊢
    cases h' with
    | start ht hrest =>
      obtain ⟨c, u, rfl⟩ := List.exists_cons_of_ne_nil ht.1
      exact hd
    | behind h' =>
      cases h' with
      | trail _ => exact absurd hf (by simp)
      | @field gap t rest fields balance hgapne hgap ht hrest =>
        obtain ⟨c, gap, rfl⟩ := List.exists_cons_of_ne_nil hgapne
        intro hc
        have hsep := hs c hgap.cons.1
        rw [Option.some.inj hc] at hsep
        exact absurd hsep (by decide)
  obtain ⟨rest, hrest⟩ : trim text <+: text.dropWhile isWhitespace := List.rdropWhile_prefix isWhitespace _
  obtain ⟨c, u, hcons⟩ := List.exists_cons_of_ne_nil hne
  intro hhead
  apply hfront
  rw [← hrest, hcons]
  rw [hcons] at hhead
  exact hhead

theorem readText_record {ctx : LineContext} (hne : trim text ≠ []) (hd : (trim text).head? ≠ some '$') :
    readText ctx text = (parseRecord ctx.origin ctx.lastName ctx.defaultTtl (text.head?.any isWhitespace)
      (tokenizeZoneLine (trim text))).map fun out => ({ ctx with lastName := out.1 }, out.2) := by
  have hprefix : ∀ word : Text, ('$' :: word).isPrefixOf (trim text) = false := by
    intro word
    obtain ⟨c, rest, hcons⟩ := List.exists_cons_of_ne_nil hne
    rw [hcons] at hd ⊢
    have hc : ('$' == c) = false := by
      rw [beq_eq_false_iff_ne]
      intro he
      exact hd (by rw [he]; rfl)
    rw [List.isPrefixOf, hc, Bool.false_and]
  unfold readText
  dsimp only
  rw [if_neg hne, hprefix, hprefix, if_neg Bool.false_ne_true, if_neg Bool.false_ne_true, if_neg hd]

/-- On one line nothing but blanks follows the last field. -/
theorem LineLaid.no_parenthesis (h : LineLaid isWhitespace (init ++ [last]) balance text) (hb : EndsInBlank last) :
    ¬ EndsInParenthesis text := by
  obtain ⟨balance', h'⟩ := h.trimStart
  obtain ⟨front, gap, htext, hgap, -⟩ := h'.split_last isSeparator_of_blank
  obtain ⟨g, w, rfl, hw⟩ | ⟨he, -⟩ := escaped_blank (h.scanned last (by simp)).2 hb
  · have hall : gap.rdropWhile isWhitespace = [] := List.rdropWhile_eq_nil_iff.mpr hgap
    have hsplit : front ++ (g ++ ['\\', w]) = (front ++ (g ++ ['\\'])) ++ [w] := by simp
    have htrim : trim text = front ++ (g ++ ['\\']) := by
      rw [trim, htext, ← List.append_assoc, rdropWhile_append_of_nil _ hall, hsplit,
        List.rdropWhile_concat_pos _ _ _ hw, ← List.append_assoc, List.rdropWhile_concat_neg _ _ _ (by decide)]
    unfold EndsInParenthesis
    rw [htrim, ← List.append_assoc, List.getLast?_concat]
    decide
  · cases he

/-- The two texts of a record: how they are read, and with which tokens. -/
structure Texts (blank : Bool) (init : List Text) (last : Text) (text : Text) (cut : Prop) [Decidable cut] : Prop where
  read : ∀ ctx, readText ctx text = (parseRecord ctx.origin ctx.lastName ctx.defaultTtl blank
    (tokenizeZoneLine (trim text))).map fun out => ({ ctx with lastName := out.1 }, out.2)
  tokens : tokenizeZoneLine (trim text) = init ++ [if EndsInBlank last ∧ cut then last.dropLast else last]

theorem Broken.texts (h : Broken blank (init ++ [last]) ls) (hd : (init ++ [last]).head?.bind List.head? ≠ some '$') :
    Texts blank init last (LaidLine.joined ls) (¬ EndsInParenthesis (LaidLine.joined ls)) := by
  obtain ⟨balance, hlaid⟩ : ∃ balance, LineLaid isSeparator (init ++ [last]) balance (LaidLine.joined ls) := by
    cases ls with
    | nil => exact absurd h.grouped (fun hg => hg)
    | cons l rest =>
      rw [← h.fields]
      exact LaidLine.joined_laid l rest
  obtain ⟨hne, hhead⟩ := hlaid.trim_head (fun _ hc => hc) hd
  refine ⟨fun ctx => ?_, tokenize_laid hlaid fun _ hc => hc⟩
  rw [readText_record hne hhead, h.head (by simp)]

theorem OneLine.texts (h : OneLine blank (init ++ [last]) line) (hd : (init ++ [last]).head?.bind List.head? ≠ some '$') :
    Texts blank init last (line ++ [' ']) True := by
  obtain ⟨balance, hlaid⟩ := h.laid
  have hblank : Gap isWhitespace [' '] := by decide
  have hlaid' := hlaid.append (.trail hblank)
  rw [List.append_nil] at hlaid'
  obtain ⟨hne, hhead⟩ := hlaid'.trim_head isSeparator_of_blank hd
  have hfirst : (line ++ [' ']).head?.any isWhitespace = blank := by
    obtain ⟨c, rest, hcons⟩ := List.exists_cons_of_ne_nil (h.ne_nil (by simp))
    have := h.owner
    rw [hcons] at this ⊢
    exact this
  refine ⟨fun ctx => ?_, ?_⟩
  · rw [readText_record hne hhead, hfirst]
  · rw [tokenize_laid hlaid' isSeparator_of_blank]
    by_cases hb : EndsInBlank last
    · rw [if_pos ⟨hb, hlaid'.no_parenthesis hb⟩, if_pos ⟨hb, trivial⟩]
    · rw [if_neg (fun hc => hb hc.1), if_neg (fun hc => hb hc.1)]

/-- The texts are read alike when the last field does not end in a blank, or keeps it in neither,
    or is not read. -/
theorem Texts.readText_eq {text' : Text} {cut : Prop} [Decidable cut] (h : Texts blank init last text cut)
    (h' : Texts blank init last text' True) (hlast : Scanned last)
    (hc : ¬ (EndsInBlank last ∧ ¬ cut ∧ LastFieldRead blank init last)) (ctx : LineContext) :
    readText ctx text = readText ctx text' := by
  rw [h.read, h'.read, h.tokens, h'.tokens]
  by_cases hb : EndsInBlank last
  · by_cases hcut : cut
    · rw [if_pos ⟨hb, hcut⟩, if_pos ⟨hb, trivial⟩]
    · rw [if_neg (fun he => hcut he.2), if_pos ⟨hb, trivial⟩]
      obtain ⟨g, w, rfl, hw⟩ | ⟨he, -⟩ := escaped_blank hlast.2 hb
      · rw [dropLast_blank, parseRecord_cut hw fun hr => hc ⟨hb, hcut, hr⟩]
      · cases he
  · rw [if_neg (fun he => hb he.1), if_neg (fun he => hb he.1)]

/-- A record entered tells what was entered. -/
theorem zone_add_inj {z : Zone} (hz : z.rrsets = ∅) {r r' : Record} (hname : r.name = r'.name)
    (htype : r.rtype = r'.rtype) (h : (z.add r).rrsets = (z.add r').rrsets) : r = r' := by
  have hlookup : ∀ r : Record, (z.add r).rrsets.lookup (toAsciiLowercase r.name, r.rtype.toU16) = some [r] := by
    intro r
    rw [Zone.add, AList.lookup_insert, hz]
    rfl
  have h1 := hlookup r
  rw [h, hname, htype, hlookup r'] at h1
  exact (List.cons.inj (Option.some.inj h1)).1.symm

/-- Files of one text each that leave the same zone read the same record. -/
theorem record_of_loadFile {content content' text' name : Text} {x y : Except Panic (Option Record)}
    (hsame : (Zone.new []).loadFile content = (Zone.new []).loadFile content')
    (ht : recordTexts content = [text]) (ht' : recordTexts content' = [text'])
    (hx : readText (.start (Zone.new []).origin) text =
      (x.map fun r => (name, r)).map fun out => ({ LineContext.start (Zone.new []).origin with lastName := out.1 }, out.2))
    (hy : readText (.start (Zone.new []).origin) text' =
      (y.map fun r => (name, r)).map fun out => ({ LineContext.start (Zone.new []).origin with lastName := out.1 }, out.2))
    (hkey : ∀ r r', x = .ok (some r) → y = .ok (some r') → r.name = r'.name ∧ r.rtype = r'.rtype) : x = y := by
  rw [Zone.loadFile_eq, Zone.loadFile_eq, ht, ht', readTexts, readTexts, hx, hy] at hsame
  have hadd : ∀ r : Record, ((Zone.new []).add r).rrsets ≠ (Zone.new []).rrsets := by
    intro r he
    have hl : ((Zone.new []).add r).rrsets.lookup (toAsciiLowercase r.name, r.rtype.toU16) = some [r] := by
      rw [Zone.add, AList.lookup_insert]
      rfl
    rw [he] at hl
    cases hl
  cases x with
  | error e =>
    cases y with
    | error e' => simpa [Except.map, bind, Except.bind] using hsame
    | ok o' => simp [Except.map, bind, Except.bind, readTexts, pure, Except.pure] at hsame
  | ok o =>
    cases y with
    | error e' => simp [Except.map, bind, Except.bind, readTexts, pure, Except.pure] at hsame
    | ok o' =>
      simp only [Except.map, bind, Except.bind, readTexts, pure, Except.pure, Except.ok.injEq, Zone.mk.injEq] at hsame
      obtain ⟨-, hrrsets, -⟩ := hsame
      cases o with
      | none =>
        cases o' with
        | none => rfl
        | some r' => exact absurd hrrsets.symm (hadd r')
      | some r =>
        cases o' with
        | none => exact absurd hrrsets (hadd r)
        | some r' =>
          obtain ⟨hname, htype⟩ := hkey r r' rfl rfl
          rw [zone_add_inj rfl hname htype hrrsets]

/-- **Line breaks and comments in a record.** A record is read alike in its broken form and on one
    line exactly when its last field does not end in an escaped blank that a parenthesis behind it
    keeps in the broken form and that the record's data depend on. -/
theorem lineBreaks_iff (hd : (init ++ [last]).head?.bind List.head? ≠ some '$')
    (hb : Broken blank (init ++ [last]) ls) (ho : OneLine blank (init ++ [last]) line) :
    ReadAlike (init ++ [last]) ls line ↔
      ¬ (EndsInBlank last ∧ EndsInParenthesis (LaidLine.joined ls) ∧ LastFieldRead blank init last) := by
  have hne : init ++ [last] ≠ [] := by simp
  have hbroken := hb.texts hd
  have hone := ho.texts hd
  have hlast : Scanned last := by
    obtain ⟨balance, hlaid⟩ := ho.laid
    exact hlaid.scanned last (by simp)
  constructor
  · intro h hbad
    obtain ⟨hblank, hparen, hread⟩ := hbad
    obtain ⟨g, w, rfl, hw⟩ | ⟨he, -⟩ := escaped_blank hlast.2 hblank
    · have hraw : ∀ l ∈ ls.map LaidLine.raw, '\n' ∉ l := by
        intro l hl
        obtain ⟨m, -, rfl⟩ := List.mem_map.mp hl
        exact m.unbroken
      have hl : lines (unlines (ls.map LaidLine.raw)) = ls.map LaidLine.raw := lines_unlines hraw
      have hl' : lines (unlines [line]) = [line] := lines_unlines fun l hm => by
        rw [List.mem_singleton.mp hm]
        exact ho.unbroken
      have ht : recordTexts (unlines (ls.map LaidLine.raw)) = [LaidLine.joined ls] := by
        have := hb.joinLines hne []
        rw [List.append_nil] at this
        rw [recordTexts, hl, this]
        rfl
      have ht' : recordTexts (unlines [line]) = [line ++ [' ']] := by
        rw [recordTexts, hl', ho.joinLines hne []]
        rfl
      obtain ⟨name, x, y, hxy, hkey, hx, hy⟩ := parseRecord_differs hw hread (Zone.new []).origin (Zone.new []).origin 3600
      apply hxy
      have hsame := h.same (Zone.new []) (unlines (ls.map LaidLine.raw)) (unlines [line]) [] [] rfl
        (by rw [hl, List.nil_append, List.append_nil]) (by rw [hl', List.nil_append])
      have hkept := hbroken.read (.start (Zone.new []).origin)
      rw [hbroken.tokens, if_neg (fun hc => hc.2 hparen)] at hkept
      have hcut := hone.read (.start (Zone.new []).origin)
      rw [hone.tokens, if_pos ⟨hblank, trivial⟩, dropLast_blank] at hcut
      exact record_of_loadFile hsame ht ht' (hkept.trans (congrArg _ hx)) (hcut.trans (congrArg _ hy)) hkey
    · cases he
  · intro hgood
    refine ⟨?_, ?_⟩
    · intro z content content' before after hbefore hc hc'
      have hopened := joinRest_opened before [] 0 (fun _ => rfl) hbefore
      have heq := hbroken.readText_eq hone hlast (fun hbad => hgood ⟨hbad.1, not_not.mp hbad.2.1, hbad.2.2⟩)
      rw [Zone.loadFile_eq, Zone.loadFile_eq, recordTexts, recordTexts, hc, hc', List.append_assoc, joinLines_append,
        joinLines_append _ before, hbefore, hopened, hb.joinLines hne, ho.joinLines hne, readTexts_congr heq]
    · intro body hbody text htext
      have hend : ¬ EndsInBlank (quoted body) := by
        unfold EndsInBlank quoted
        rw [← List.cons_append, List.getLast?_concat]
        decide
      have hkeep : ∀ (cut : Prop) [Decidable cut], quoted body ∈
          init ++ [if EndsInBlank last ∧ cut then last.dropLast else last] := by
        intro cut _
        obtain hm | hm := List.mem_append.mp hbody
        · exact List.mem_append.mpr (.inl hm)
        · obtain rfl := List.mem_singleton.mp hm
          rw [if_neg (fun hc => hend hc.1)]
          exact hbody
      have hj := hb.joinLines hne []
      rw [List.append_nil] at hj
      rw [hj, ho.joinLines hne []] at htext
      obtain rfl | rfl : text = LaidLine.joined ls ∨ text = line ++ [' '] := by simpa [joinLines] using htext
      · rw [hbroken.tokens]
        exact hkeep _
      · rw [hone.tokens]
        exact hkeep _

end

/-- A line that opens a parenthesis behind an owner and a type, with a comment. -/
def openingLine (owner rtype : Text) (ho : Scanned owner) (ht : Scanned rtype)
    (hn : '\n' ∉ owner ++ ([' '] ++ (rtype ++ [' ', '('])) ++ "; (".toList) : LaidLine where
  fields := [owner, rtype]
  balance := 1
  text := owner ++ ([' '] ++ (rtype ++ [' ', '(']))
  comment := "; (".toList
  laid := .start ho (.field (List.cons_ne_nil ' ' []) gap_space ht
    (.trail (show Gap isSeparator [' ', '('] by decide)))
  commented := .inr rfl
  unbroken := hn

/-- A line with a field in front of the closing parenthesis. -/
def closingLine (field : Text) (hf : Scanned field) (hn : '\n' ∉ field ++ [' ', ')'] ++ []) : LaidLine where
  fields := [field]
  balance := -1
  text := field ++ [' ', ')']
  comment := []
  laid := .start hf (.trail (show Gap isSeparator [' ', ')'] by decide))
  commented := .inl rfl
  unbroken := hn

theorem oneLine_of {owner rtype field : Text} (ho : Scanned owner) (ht : Scanned rtype) (hf : Scanned field)
    (hblank : owner.head?.any isWhitespace = false)
    (hn : '\n' ∉ owner ++ ([' '] ++ (rtype ++ ([' '] ++ (field ++ []))))) :
    OneLine false [owner, rtype, field] (owner ++ ([' '] ++ (rtype ++ ([' '] ++ (field ++ []))))) where
  laid := by
    have hgap : Gap isWhitespace [' '] := by decide
    have hnil : Gap isWhitespace [] := fun _ hc => absurd hc List.not_mem_nil
    have hfield := Laid.field (List.cons_ne_nil ' ' []) hgap hf (.trail hnil)
    exact ⟨_, .start ho (.field (List.cons_ne_nil ' ' []) hgap ht hfield)⟩
  owner := by
    obtain ⟨c, rest, rfl⟩ := List.exists_cons_of_ne_nil ho.1
    exact hblank
  unbroken := hn

def brokenText : List LaidLine :=
  [openingLine ['t'] ['T', 'X', 'T'] (by decide) (by decide) (by decide),
    closingLine "\"a;(b\"".toList (by decide) (by decide)]

/-- A string with a semicolon and a parenthesis, on a line of its own. -/
theorem brokenText_alike : ReadAlike [['t'], ['T', 'X', 'T'], "\"a;(b\"".toList] brokenText "t TXT \"a;(b\"".toList := by
  have hone : OneLine false ([['t'], ['T', 'X', 'T']] ++ ["\"a;(b\"".toList]) "t TXT \"a;(b\"".toList :=
    oneLine_of (show Scanned ['t'] by decide) (show Scanned ['T', 'X', 'T'] by decide)
      (show Scanned "\"a;(b\"".toList by decide) (by decide) (by decide)
  have hgrouped : LaidLine.Grouped 0 brokenText :=
    ⟨show (0 : Int) < 0 + 1 by decide, show (0 + 1 + -1 : Int) = 0 by decide⟩
  have hbroken : Broken false ([['t'], ['T', 'X', 'T']] ++ ["\"a;(b\"".toList]) brokenText := ⟨rfl, hgrouped, by decide⟩
  exact (lineBreaks_iff (by decide) hbroken hone).mpr fun h => absurd h.1 (by decide)

/-- A string that ends in an escaped blank, with the closing parenthesis behind it. -/
def blankText : List LaidLine :=
  [openingLine ['t'] ['T', 'X', 'T'] (by decide) (by decide) (by decide),
    closingLine ['a', '\\', ' '] (by decide) (by decide)]

/-- On one line the blank is lost. -/
theorem blankText_differs : ¬ ReadAlike [['t'], ['T', 'X', 'T'], ['a', '\\', ' ']] blankText "t TXT a\\ ".toList := by
  intro h
  have hsame := h.same (Zone.new ['x']) "t TXT (; (\na\\  )\n".toList "t TXT a\\ \n".toList [] [] rfl
    (by decide) (by decide)
  have hbroken : ((Zone.new ['x']).loadFile "t TXT (; (\na\\  )\n".toList).toOption.map (fun z => z.rrsets.entries) =
      some [⟨(['t', '.', 'x'], 16), [⟨['t', '.', 'x'], .TXT, CLASS_IN, 3600, [3, 97, 92, 32]⟩]⟩] := by decide
  have hone : ((Zone.new ['x']).loadFile "t TXT a\\ \n".toList).toOption.map (fun z => z.rrsets.entries) =
      some [⟨(['t', '.', 'x'], 16), [⟨['t', '.', 'x'], .TXT, CLASS_IN, 3600, [2, 97, 92]⟩]⟩] := by decide
  rw [hsame, hone] at hbroken
  exact absurd hbroken (by decide)

end Ironbind
