import Ironbind.ZoneLines

/- The fields of a line of a zone file. A field is what the scanners pass as one: no
   blank, parenthesis or semicolon outside its quotes, no quote or escape left open. On
   fields with blanks between them the three scanners of the loader agree: nothing is
   cut as a comment, no parenthesis is counted, and the tokens are the fields
   (`stripCommentLoop_spaced`, `balanceLoop_spaced`, `tokenize_spaced`); so a line of
   them is one text (`loadLine_fieldLine`). -/
namespace Ironbind
open Codec

/-- The scan of a field. -/
def fieldLoop : Bool → Bool → Text → Bool
  | quoted, escaped, [] => !quoted && !escaped
  | quoted, true, _ :: rest => fieldLoop quoted false rest
  | quoted, false, c :: rest =>
    (quoted || !(c == '(' || c == ')' || c == ';' || isWhitespace c)) && fieldLoop (toggles quoted c) (c = '\\') rest

/-- A field, which does not end in an escaped blank. -/
def IsField (t : Text) : Prop := t ≠ [] ∧ fieldLoop false false t = true ∧ t.getLast?.any isWhitespace = false

instance (t : Text) : Decidable (IsField t) := inferInstanceAs (Decidable (_ ∧ _ ∧ _))

def AllBlank (t : Text) : Prop := ∀ c ∈ t, isWhitespace c = true

/-- Fields, each behind a gap, and blanks behind the last. -/
inductive Spaced : List Text → Text → Prop where
  | trail {t : Text} : AllBlank t → Spaced [] t
  | field {gap t rest : Text} {fields : List Text} : gap ≠ [] → AllBlank gap → IsField t → Spaced fields rest →
      Spaced (t :: fields) (gap ++ (t ++ rest))

section
variable {t rest : Text} {quoted escaped : Bool} {c : Char}

theorem fieldLoop_cons (h : fieldLoop quoted false (c :: t) = true) :
    (quoted = false → ¬ (c = '(' ∨ c = ')' ∨ c = ';' ∨ isWhitespace c)) ∧
      fieldLoop (toggles quoted c) (c = '\\') t = true := by
  rw [fieldLoop, Bool.and_eq_true] at h
  refine ⟨fun hq hc => ?_, h.2⟩
  have := h.1
  rw [hq] at this
  rcases hc with rfl | rfl | rfl | hc
  · exact absurd this (by decide)
  · exact absurd this (by decide)
  · exact absurd this (by decide)
  · simp [hc] at this

/-- A blank is none of the characters the scanners look for. -/
theorem plain_of_isWhitespace (h : isWhitespace c = true) :
    c ≠ '"' ∧ c ≠ '\\' ∧ c ≠ ';' ∧ c ≠ '(' ∧ c ≠ ')' ∧ c ≠ '$' := by
  refine ⟨?_, ?_, ?_, ?_, ?_, ?_⟩ <;> (rintro rfl; exact absurd h (by decide))

/-! The scanners on one field. -/

theorem tokenizeLoop_field (rest : Text) : ∀ {t : Text} {quoted escaped : Bool} (current : Text),
    fieldLoop quoted escaped t = true →
      tokenizeLoop quoted escaped current (t ++ rest) = tokenizeLoop false false (current ++ t) rest
  | [], quoted, escaped, current, h => by
    rw [fieldLoop, Bool.and_eq_true, Bool.not_eq_true', Bool.not_eq_true'] at h
    rw [h.1, h.2, List.nil_append, List.append_nil]
  | c :: t, quoted, true, current, h => by
    rw [fieldLoop] at h
    rw [List.cons_append, tokenizeLoop, tokenizeLoop_field rest (current ++ [c]) h, List.append_assoc]
    rfl
  | c :: t, quoted, false, current, h => by
    obtain ⟨hc, ht⟩ := fieldLoop_cons h
    have hnot : ¬ ((!quoted) = true ∧ (c = '(' ∨ c = ')' ∨ isWhitespace c)) := by
      rintro ⟨hq, hsep⟩
      exact hc (by simpa using hq) (by tauto)
    rw [List.cons_append, tokenizeLoop, if_neg hnot, tokenizeLoop_field rest (current ++ [c]) ht, List.append_assoc]
    rfl

theorem stripCommentLoop_field (rest : Text) : ∀ {t : Text} {quoted escaped : Bool},
    fieldLoop quoted escaped t = true →
      stripCommentLoop quoted escaped (t ++ rest) = t ++ stripCommentLoop false false rest
  | [], quoted, escaped, h => by
    rw [fieldLoop, Bool.and_eq_true, Bool.not_eq_true', Bool.not_eq_true'] at h
    rw [h.1, h.2]
    rfl
  | c :: t, quoted, true, h => by
    rw [fieldLoop] at h
    rw [List.cons_append, stripCommentLoop, stripCommentLoop_field rest h]
    rfl
  | c :: t, quoted, false, h => by
    obtain ⟨hc, ht⟩ := fieldLoop_cons h
    have hnot : ¬ (c = ';' ∧ (!quoted) = true) := by
      rintro ⟨hsemi, hq⟩
      exact hc (by simpa using hq) (by tauto)
    rw [List.cons_append, stripCommentLoop, if_neg hnot, stripCommentLoop_field rest ht]
    rfl

theorem balanceLoop_field (rest : Text) (balance : Int) : ∀ {t : Text} {quoted escaped : Bool},
    fieldLoop quoted escaped t = true →
      balanceLoop quoted escaped balance (t ++ rest) = balanceLoop false false balance rest
  | [], quoted, escaped, h => by
    rw [fieldLoop, Bool.and_eq_true, Bool.not_eq_true', Bool.not_eq_true'] at h
    rw [h.1, h.2]
    rfl
  | c :: t, quoted, true, h => by
    rw [fieldLoop] at h
    rw [List.cons_append, balanceLoop, balanceLoop_field rest balance h]
  | c :: t, quoted, false, h => by
    obtain ⟨hc, ht⟩ := fieldLoop_cons h
    have hstep : (if quoted then (0 : Int) else if c = '(' then 1 else if c = ')' then -1 else 0) = 0 := by
      cases quoted with
      | true => rfl
      | false =>
        have hc := hc rfl
        simp only [not_or] at hc
        rw [if_neg Bool.false_ne_true, if_neg hc.1, if_neg hc.2.1]
    rw [List.cons_append, balanceLoop]
    simp only [hstep, Int.add_zero]
    exact balanceLoop_field rest balance ht

/-! The scanners on blanks. -/

theorem toggles_blank (h : isWhitespace c = true) : toggles false c = false := by
  rw [toggles, if_neg (plain_of_isWhitespace h).1]

theorem tokenizeLoop_blank (h : isWhitespace c = true) (current : Text) :
    tokenizeLoop false false current (c :: rest) =
      (if current = [] then [] else [current]) ++ tokenizeLoop false false [] rest := by
  rw [tokenizeLoop, if_pos ⟨rfl, .inr (.inr h)⟩]
  split <;> rfl

theorem tokenizeLoop_blanks (rest : Text) : ∀ {gap : Text}, AllBlank gap →
    tokenizeLoop false false [] (gap ++ rest) = tokenizeLoop false false [] rest
  | [], _ => rfl
  | c :: gap, h => by
    rw [List.cons_append, tokenizeLoop_blank (h c List.mem_cons_self)]
    exact tokenizeLoop_blanks rest fun d hd => h d (List.mem_cons_of_mem c hd)

theorem stripCommentLoop_blanks (rest : Text) : ∀ {gap : Text}, AllBlank gap →
    stripCommentLoop false false (gap ++ rest) = gap ++ stripCommentLoop false false rest
  | [], _ => rfl
  | c :: gap, h => by
    have hc := h c List.mem_cons_self
    obtain ⟨-, hesc, hsemi, -⟩ := plain_of_isWhitespace hc
    rw [List.cons_append, stripCommentLoop, if_neg (by tauto), toggles_blank hc, decide_eq_false hesc,
      stripCommentLoop_blanks rest fun d hd => h d (List.mem_cons_of_mem c hd)]
    rfl

theorem balanceLoop_blanks (rest : Text) (balance : Int) : ∀ {gap : Text}, AllBlank gap →
    balanceLoop false false balance (gap ++ rest) = balanceLoop false false balance rest
  | [], _ => rfl
  | c :: gap, h => by
    have hc := h c List.mem_cons_self
    obtain ⟨-, hesc, -, hopen, hclose, -⟩ := plain_of_isWhitespace hc
    rw [List.cons_append, balanceLoop, toggles_blank hc, decide_eq_false hesc]
    simp only [Bool.false_eq_true, if_false, if_neg hopen, if_neg hclose, Int.add_zero]
    exact balanceLoop_blanks rest balance fun d hd => h d (List.mem_cons_of_mem c hd)

end

theorem balance_of_blank {line : Text} (h : AllBlank line) : parenthesisBalance line = 0 := by
  have := balanceLoop_blanks [] 0 h
  rw [List.append_nil] at this
  exact this

theorem allBlank_of_trim {line : Text} (h : trim line = []) : AllBlank line := by
  have hdrop : AllBlank (line.dropWhile isWhitespace) := List.rdropWhile_eq_nil_iff.mp h
  have hnil : line.dropWhile isWhitespace = [] := by
    cases hd : line.dropWhile isWhitespace with
    | nil => rfl
    | cons c rest =>
      have hc : isWhitespace c = false := by
        have := List.head?_dropWhile_not isWhitespace line
        rw [hd] at this
        simpa using this
      rw [hd] at hdrop
      exact absurd (hdrop c List.mem_cons_self) (by rw [hc]; decide)
  exact List.dropWhile_eq_nil_iff.mp hnil

/-! The scanners on fields with gaps. -/

section
variable {fields : List Text} {t text : Text}

theorem Spaced.isField (h : Spaced fields text) : ∀ t ∈ fields, IsField t := by
  induction h with
  | trail _ => exact fun t ht => absurd ht List.not_mem_nil
  | field _ _ ht _ ih => exact List.forall_mem_cons.mpr ⟨ht, ih⟩

theorem tokenizeLoop_spaced (h : Spaced fields text) : ∀ current : Text,
    tokenizeLoop false false current text = (if current = [] then [] else [current]) ++ fields := by
  induction h with
  | @trail t hblank =>
    intro current
    cases t with
    | nil => rw [tokenizeLoop, List.append_nil]
    | cons c t =>
      have hrest := tokenizeLoop_blanks [] fun d hd => hblank d (List.mem_cons_of_mem c hd)
      rw [tokenizeLoop_blank (hblank c List.mem_cons_self), ← List.append_nil t, hrest, tokenizeLoop, if_pos rfl]
  | @field gap t rest fields hne hgap ht _ ih =>
    intro current
    obtain ⟨c, gap, rfl⟩ := List.exists_cons_of_ne_nil hne
    rw [List.cons_append, tokenizeLoop_blank (hgap c List.mem_cons_self),
      tokenizeLoop_blanks _ fun d hd => hgap d (List.mem_cons_of_mem c hd), tokenizeLoop_field _ _ ht.2.1, ih,
      List.nil_append, if_neg ht.1]
    rfl

theorem stripCommentLoop_spaced (h : Spaced fields text) (rest : Text) :
    stripCommentLoop false false (text ++ rest) = text ++ stripCommentLoop false false rest := by
  induction h with
  | trail hblank => exact stripCommentLoop_blanks rest hblank
  | @field gap t text fields _ hgap ht _ ih =>
    rw [List.append_assoc, List.append_assoc, stripCommentLoop_blanks _ hgap, stripCommentLoop_field _ ht.2.1, ih,
      List.append_assoc, List.append_assoc]

theorem balanceLoop_spaced (h : Spaced fields text) : balanceLoop false false 0 text = 0 := by
  induction h with
  | @trail t hblank => rw [← List.append_nil t, balanceLoop_blanks [] 0 hblank]; rfl
  | field _ hgap ht _ ih => rw [balanceLoop_blanks _ 0 hgap, balanceLoop_field _ 0 ht.2.1, ih]

theorem Spaced.append_blank (h : Spaced fields text) {blank : Text} (hb : AllBlank blank) :
    Spaced fields (text ++ blank) := by
  induction h with
  | trail ht => exact .trail fun c hc => (List.mem_append.mp hc).elim (ht c) (hb c)
  | field hne hgap ht _ ih =>
    rw [List.append_assoc, List.append_assoc]
    exact .field hne hgap ht ih

/-- Nothing of a text that ends in no blank is trimmed in front of another. -/
theorem rdropWhile_append (rest : Text) (h : t.getLast?.any isWhitespace = false) :
    (t ++ rest).rdropWhile isWhitespace = t ++ rest.rdropWhile isWhitespace := by
  induction rest using List.reverseRecOn with
  | nil =>
    rw [List.append_nil, List.rdropWhile_nil, List.append_nil, List.rdropWhile_eq_self_iff]
    intro hne hlast
    rw [List.getLast?_eq_some_getLast hne] at h
    exact absurd hlast (by simpa using h)
  | append_singleton rest c ih =>
    rw [← List.append_assoc]
    by_cases hc : isWhitespace c
    · rw [List.rdropWhile_concat_pos _ _ _ hc, List.rdropWhile_concat_pos _ _ _ hc, ih]
    · rw [List.rdropWhile_concat_neg _ _ _ hc, List.rdropWhile_concat_neg _ _ _ hc, List.append_assoc]

theorem Spaced.trimEnd (h : Spaced fields text) : Spaced fields (text.rdropWhile isWhitespace) := by
  induction h with
  | trail ht =>
    rw [List.rdropWhile_eq_nil_iff.mpr ht]
    exact .trail fun _ hc => absurd hc List.not_mem_nil
  | @field gap t rest fields hne hgap ht _ ih =>
    have hlast : (gap ++ t).getLast?.any isWhitespace = false := by
      rw [List.getLast?_append_of_ne_nil gap ht.1]
      exact ht.2.2
    rw [← List.append_assoc, rdropWhile_append rest hlast, List.append_assoc]
    exact .field hne hgap ht ih

theorem IsField.head (h : IsField t) : ∃ c rest, t = c :: rest ∧ isWhitespace c = false := by
  obtain ⟨c, rest, rfl⟩ := List.exists_cons_of_ne_nil h.1
  refine ⟨c, rest, rfl, ?_⟩
  have := (fieldLoop_cons h.2.1).1 rfl
  simp only [not_or, Bool.not_eq_true] at this
  exact this.2.2.2

/-- A first field, with or without blanks in front of it, and the others behind it. -/
theorem trim_spaced {lead : Text} (hlead : AllBlank lead) (ht : IsField t) (h : Spaced fields text) :
    ∃ rest, trim (lead ++ (t ++ text)) = t ++ rest ∧ Spaced fields rest := by
  obtain ⟨c, u, rfl, hc⟩ := ht.head
  refine ⟨_, ?_, h.trimEnd⟩
  have hdrop : (lead ++ (c :: u ++ text)).dropWhile isWhitespace = c :: u ++ text := by
    rw [List.dropWhile_append_of_pos hlead, List.cons_append, List.dropWhile_cons_of_neg (by simp [hc])]
  rw [trim, hdrop, rdropWhile_append text ht.2.2]

theorem tokenize_spaced (ht : IsField t) (h : Spaced fields text) : tokenizeZoneLine (t ++ text) = t :: fields := by
  rw [tokenizeZoneLine, tokenizeLoop_field text [] ht.2.1, tokenizeLoop_spaced h, List.nil_append, if_neg ht.1]
  rfl

/-! A line of fields. -/

/-- A line of fields, at its start or behind blanks, with a comment or none behind it. -/
structure FieldLine (blank : Bool) (t : Text) (fields : List Text) (line : Text) : Prop where
  field : IsField t
  spaced : ∃ lead rest comment, line = lead ++ (t ++ rest) ++ comment ∧ AllBlank lead ∧ (lead = [] ↔ blank = false) ∧
    Spaced fields rest ∧ (comment = [] ∨ comment.head? = some ';')

theorem stripCommentLoop_comment {comment : Text} (h : comment = [] ∨ comment.head? = some ';') :
    stripCommentLoop false false comment = [] := by
  rcases h with rfl | h
  · rfl
  · cases comment with
    | nil => rfl
    | cons c rest =>
      rw [Option.some.inj h, stripCommentLoop, if_pos ⟨rfl, rfl⟩]

/-- Between records, a line of fields is one text, which trimmed has the fields as its tokens. -/
theorem loadLine_fieldLine {s : LoadState} (hp : s.pending = []) (ho : s.openParentheses = 0) {blank : Bool}
    {line : Text} (h : FieldLine blank t fields line) : ∃ text rest, loadLine s line = loadText s text ∧
      text.head?.any isWhitespace = blank ∧ trim text = t ++ rest ∧ Spaced fields rest := by
  obtain ⟨lead, rest, comment, rfl, hlead, hblank, hspaced, hcomment⟩ := h.spaced
  obtain ⟨c, u, rfl, hc⟩ := h.field.head
  have hstrip : stripZoneComment (lead ++ (c :: u ++ rest) ++ comment) = lead ++ (c :: u ++ rest) := by
    rw [stripZoneComment, List.append_assoc, stripCommentLoop_blanks _ hlead, List.append_assoc,
      stripCommentLoop_field _ h.field.2.1, stripCommentLoop_spaced hspaced, stripCommentLoop_comment hcomment,
      List.append_nil]
  have hbalance : parenthesisBalance (lead ++ (c :: u ++ rest)) = 0 := by
    rw [parenthesisBalance, balanceLoop_blanks _ 0 hlead, balanceLoop_field _ 0 h.field.2.1, balanceLoop_spaced hspaced]
  obtain ⟨rest', htrim, hrest'⟩ := trim_spaced hlead h.field hspaced
  have htext : trim (lead ++ (c :: u ++ rest)) ≠ [] := by rw [htrim]; exact List.cons_ne_nil _ _
  have hlast : AllBlank [' '] := by intro d hd; rw [List.mem_singleton.mp hd]; rfl
  obtain ⟨rest'', htrim', hrest''⟩ := trim_spaced hlead h.field (hspaced.append_blank hlast)
  refine ⟨lead ++ (c :: u ++ rest) ++ [' '], rest'', ?_, ?_, ?_, hrest''⟩
  · rw [loadLine]
    simp only [hstrip, htext, and_false, if_false, hbalance, hp, ho, List.nil_append]
    rw [if_neg (by decide)]
    obtain ⟨z, ttl, origin, last, pending, opened⟩ := s
    cases hp
    cases ho
    rfl
  · cases lead with
    | nil =>
      rw [hblank.mp rfl]
      exact hc
    | cons d lead =>
      have hb : blank = true := by
        cases hb : blank with
        | true => rfl
        | false => exact absurd (hblank.mpr hb) (List.cons_ne_nil d lead)
      rw [hb]
      exact hlead d List.mem_cons_self
  · rw [← htrim']
    simp only [List.append_assoc]

end

/-! Lines written out. -/

theorem allBlank_space : AllBlank [' '] := by
  intro c hc
  rw [List.mem_singleton.mp hc]
  rfl

/-- Fields with one space in front of each. -/
theorem spaced_of_fields : ∀ {fields : List Text}, (∀ t ∈ fields, IsField t) →
    Spaced fields (fields.flatMap fun t => ' ' :: t)
  | [], _ => .trail fun _ h => absurd h List.not_mem_nil
  | t :: fields, h => by
    rw [List.flatMap_cons]
    exact .field (List.cons_ne_nil ' ' []) allBlank_space (h t List.mem_cons_self)
      (spaced_of_fields fun u hu => h u (List.mem_cons_of_mem t hu))

theorem fieldLine_spaced {t : Text} {fields : List Text} (ht : IsField t) (h : ∀ u ∈ fields, IsField u) :
    FieldLine false t fields (t ++ fields.flatMap fun u => ' ' :: u) :=
  ⟨ht, [], _, [], by rw [List.append_nil, List.nil_append], fun _ h => absurd h List.not_mem_nil, by simp,
    spaced_of_fields h, .inl rfl⟩

/-- Fields without quotes or escapes are any other characters. -/
theorem isField_of_plain {t : Text} (hne : t ≠ []) (h : ∀ c ∈ t, c ≠ '"' ∧ c ≠ '\\' ∧ c ≠ ';' ∧ c ≠ '(' ∧ c ≠ ')' ∧
    isWhitespace c = false) : IsField t := by
  refine ⟨hne, ?_, ?_⟩
  · induction t with
    | nil => rfl
    | cons c t ih =>
      obtain ⟨hquote, hesc, hsemi, hopen, hclose, hblank⟩ := h c List.mem_cons_self
      have hrest : fieldLoop false false t = true := by
        cases t with
        | nil => rfl
        | cons d t => exact ih (List.cons_ne_nil d t) fun e he => h e (List.mem_cons_of_mem c he)
      rw [fieldLoop, toggles, if_neg hquote, decide_eq_false hesc, hrest]
      simp [hsemi, hopen, hclose, hblank]
  · rw [List.getLast?_eq_some_getLast hne, Option.any_some]
    exact (h _ (List.getLast_mem hne)).2.2.2.2.2

/-! Words of a directive. -/

theorem splitWhitespace_append (t rest : Text) {c : Char} (h : isWhitespace c = true) :
    splitWhitespace (t ++ c :: rest) = splitWhitespace t ++ splitWhitespace rest := by
  rw [splitWhitespace, List.splitOnP_append_cons t rest h, List.filter_append, splitWhitespace, splitWhitespace]

theorem splitWhitespace_blanks (rest : Text) : ∀ {gap : Text}, AllBlank gap →
    splitWhitespace (gap ++ rest) = splitWhitespace rest
  | [], _ => rfl
  | c :: gap, h => by
    have hempty : splitWhitespace [] = [] := rfl
    rw [List.cons_append, ← List.nil_append (c :: (gap ++ rest)),
      splitWhitespace_append [] _ (h c List.mem_cons_self), hempty, List.nil_append]
    exact splitWhitespace_blanks rest fun d hd => h d (List.mem_cons_of_mem c hd)

theorem splitWhitespace_word {t : Text} (hne : t ≠ []) (h : ∀ c ∈ t, isWhitespace c = false) :
    splitWhitespace t = [t] := by
  rw [splitWhitespace, List.splitOnP_eq_singleton h, List.filter_cons_of_pos (by simpa using hne), List.filter_nil]

/-- Fields without blanks in them are the words of their line. -/
theorem splitWhitespace_spaced {fields : List Text} {text : Text} (h : Spaced fields text)
    (hf : ∀ u ∈ fields, ∀ c ∈ u, isWhitespace c = false) (t : Text) :
    splitWhitespace (t ++ text) = splitWhitespace t ++ fields := by
  induction h generalizing t with
  | @trail text hblank =>
    cases text with
    | nil => rw [List.append_nil, List.append_nil]
    | cons c text =>
      have hrest := splitWhitespace_blanks [] fun d hd => hblank d (List.mem_cons_of_mem c hd)
      rw [splitWhitespace_append t text (hblank c List.mem_cons_self), ← List.append_nil text, hrest]
      rfl
  | @field gap u rest fields hne hgap hu _ ih =>
    obtain ⟨c, gap, rfl⟩ := List.exists_cons_of_ne_nil hne
    rw [List.cons_append, splitWhitespace_append t _ (hgap c List.mem_cons_self),
      splitWhitespace_blanks _ fun d hd => hgap d (List.mem_cons_of_mem c hd),
      ih (fun v hv => hf v (List.mem_cons_of_mem u hv)) u,
      splitWhitespace_word hu.1 (hf u List.mem_cons_self)]
    rfl

end Ironbind
