import Ironbind.ZoneFields

/- A record laid out over lines. `Laid` renders fields with separators between them:
   blanks and, inside a record of several lines, grouping parentheses. On such a text
   the three scanners of the loader agree: nothing of it is cut as a comment, its
   parentheses are those of the separators, and its tokens are the fields
   (`stripCommentLoop_laid`, `balanceLoop_laid`, `tokenizeLoop_laid`). So lines whose
   parentheses close on the last one are joined to one text (`joinLines_grouped`).
   Trimmed, that text has the fields as its tokens, or all of them but the last
   character: a last field that ends in an escaped blank loses it when nothing but
   blanks follows (`tokenize_laid`). -/
namespace Ironbind
open Codec

/-- What the scanners pass as one field. -/
def Scanned (t : Text) : Prop := t ≠ [] ∧ fieldLoop false false t = true

instance (t : Text) : Decidable (Scanned t) := inferInstanceAs (Decidable (_ ∧ _))

/-- What may stand between two fields of a record in parentheses. -/
def isSeparator (c : Char) : Bool := isWhitespace c || c == '(' || c == ')'

def Gap (sep : Char → Bool) (gap : Text) : Prop := ∀ c ∈ gap, sep c = true

instance (sep : Char → Bool) (gap : Text) : Decidable (Gap sep gap) :=
  decidable_of_iff (gap.all sep = true) (by simp [Gap])

theorem gap_space : Gap isSeparator [' '] := by decide

/-- Opening minus closing parentheses. -/
def parens (gap : Text) : Int := (gap.count '(' : Int) - gap.count ')'

/-- Fields, each behind separators, and separators behind the last; the number is that of the
    parentheses left open. -/
inductive Laid (sep : Char → Bool) : List Text → Int → Text → Prop where
  | trail {gap : Text} (hgap : Gap sep gap) : Laid sep [] (parens gap) gap
  | field {gap t rest : Text} {fields : List Text} {balance : Int} (hne : gap ≠ []) (hgap : Gap sep gap) (ht : Scanned t)
      (hrest : Laid sep fields balance rest) : Laid sep (t :: fields) (parens gap + balance) (gap ++ (t ++ rest))

/-- A line of them, on which the first field may stand at the start. -/
inductive LineLaid (sep : Char → Bool) : List Text → Int → Text → Prop where
  | behind {fields : List Text} {balance : Int} {text : Text} (h : Laid sep fields balance text) :
      LineLaid sep fields balance text
  | start {t rest : Text} {fields : List Text} {balance : Int} (ht : Scanned t) (hrest : Laid sep fields balance rest) :
      LineLaid sep (t :: fields) balance (t ++ rest)

section
variable {sep : Char → Bool} {fields : List Text} {balance : Int} {text gap rest : Text} {c : Char}

theorem Gap.cons (h : Gap sep (c :: gap)) : sep c = true ∧ Gap sep gap := List.forall_mem_cons.mp h

theorem Gap.mono {sep' : Char → Bool} (h : Gap sep gap) (hs : ∀ c, sep c = true → sep' c = true) : Gap sep' gap :=
  fun c hc => hs c (h c hc)

theorem Gap.append {gap' : Text} (h : Gap sep gap) (h' : Gap sep gap') : Gap sep (gap ++ gap') := fun c hc =>
  (List.mem_append.mp hc).elim (h c) (h' c)

theorem parens_append (gap gap' : Text) : parens (gap ++ gap') = parens gap + parens gap' := by
  unfold parens
  rw [List.count_append, List.count_append]
  omega

theorem Laid.mono {sep' : Char → Bool} (h : Laid sep fields balance text) (hs : ∀ c, sep c = true → sep' c = true) :
    Laid sep' fields balance text := by
  induction h with
  | trail hgap => exact .trail (hgap.mono hs)
  | field hne hgap ht _ ih => exact .field hne (hgap.mono hs) ht ih

theorem LineLaid.mono {sep' : Char → Bool} (h : LineLaid sep fields balance text)
    (hs : ∀ c, sep c = true → sep' c = true) : LineLaid sep' fields balance text := by
  cases h with
  | behind h => exact .behind (h.mono hs)
  | start ht hrest => exact .start ht (hrest.mono hs)

theorem isSeparator_of_blank (c : Char) (h : isWhitespace c = true) : isSeparator c = true := by
  simp [isSeparator, h]

theorem LineLaid.scanned (h : LineLaid sep fields balance text) : ∀ t ∈ fields, Scanned t := by
  have hlaid : ∀ {fields : List Text} {balance : Int} {text : Text}, Laid sep fields balance text →
      ∀ t ∈ fields, Scanned t := by
    intro fields balance text h
    induction h with
    | trail _ => exact fun t ht => absurd ht List.not_mem_nil
    | field _ _ ht _ ih => exact List.forall_mem_cons.mpr ⟨ht, ih⟩
  cases h with
  | behind h => exact hlaid h
  | start ht hrest => exact List.forall_mem_cons.mpr ⟨ht, hlaid hrest⟩

theorem Laid.prepend (hgap : Gap sep gap) (h : Laid sep fields balance text) :
    Laid sep fields (parens gap + balance) (gap ++ text) := by
  cases h with
  | trail h =>
    rw [← parens_append]
    exact .trail (hgap.append h)
  | @field gap' t rest fields balance hne hgap' ht hrest =>
    rw [← Int.add_assoc, ← parens_append, ← List.append_assoc]
    exact .field (List.append_ne_nil_of_right_ne_nil gap hne) (hgap.append hgap') ht hrest

theorem Laid.append {fields' : List Text} {balance' : Int} {text' : Text} (h : Laid sep fields balance text)
    (h' : Laid sep fields' balance' text') : Laid sep (fields ++ fields') (balance + balance') (text ++ text') := by
  induction h with
  | trail hgap => exact h'.prepend hgap
  | field hne hgap ht _ ih =>
    rw [Int.add_assoc, List.append_assoc, List.append_assoc]
    exact .field hne hgap ht ih

theorem LineLaid.append {fields' : List Text} {balance' : Int} {text' : Text} (h : LineLaid sep fields balance text)
    (h' : Laid sep fields' balance' text') : LineLaid sep (fields ++ fields') (balance + balance') (text ++ text') := by
  cases h with
  | behind h => exact .behind (h.append h')
  | start ht hrest =>
    rw [List.append_assoc]
    exact .start ht (hrest.append h')

/-- Behind a gap a line is laid out as any other fields. -/
theorem LineLaid.prepend (hne : gap ≠ []) (hgap : Gap sep gap) (h : LineLaid sep fields balance text) :
    Laid sep fields (parens gap + balance) (gap ++ text) := by
  cases h with
  | behind h => exact h.prepend hgap
  | start ht hrest => exact .field hne hgap ht hrest

/-! The scanners on separators. -/

theorem plain_of_isSeparator (h : isSeparator c = true) : c ≠ '"' ∧ c ≠ '\\' ∧ c ≠ ';' := by
  simp only [isSeparator, Bool.or_eq_true, beq_iff_eq] at h
  obtain (h | rfl) | rfl := h
  · obtain ⟨h1, h2, h3, -⟩ := plain_of_isWhitespace h
    exact ⟨h1, h2, h3⟩
  · decide
  · decide

theorem toggles_separator (h : isSeparator c = true) : toggles false c = false := by
  rw [toggles, if_neg (plain_of_isSeparator h).1]

theorem tokenizeLoop_separator (h : isSeparator c = true) (current : Text) :
    tokenizeLoop false false current (c :: rest) =
      (if current = [] then [] else [current]) ++ tokenizeLoop false false [] rest := by
  have hsep : (!false) = true ∧ (c = '(' ∨ c = ')' ∨ isWhitespace c) := by
    simp only [isSeparator, Bool.or_eq_true, beq_iff_eq] at h
    exact ⟨rfl, by tauto⟩
  rw [tokenizeLoop, if_pos hsep]
  split <;> rfl

theorem tokenizeLoop_gap (rest : Text) : ∀ {gap : Text}, Gap isSeparator gap →
    tokenizeLoop false false [] (gap ++ rest) = tokenizeLoop false false [] rest
  | [], _ => rfl
  | c :: gap, h => by
    rw [List.cons_append, tokenizeLoop_separator h.cons.1]
    exact tokenizeLoop_gap rest h.cons.2

theorem stripCommentLoop_gap (rest : Text) : ∀ {gap : Text}, Gap isSeparator gap →
    stripCommentLoop false false (gap ++ rest) = gap ++ stripCommentLoop false false rest
  | [], _ => rfl
  | c :: gap, h => by
    obtain ⟨-, hesc, hsemi⟩ := plain_of_isSeparator h.cons.1
    rw [List.cons_append, stripCommentLoop, if_neg (by tauto), toggles_separator h.cons.1, decide_eq_false hesc,
      stripCommentLoop_gap rest h.cons.2]
    rfl

theorem balanceLoop_gap (rest : Text) : ∀ {gap : Text} (balance : Int), Gap isSeparator gap →
    balanceLoop false false balance (gap ++ rest) = balanceLoop false false (balance + parens gap) rest
  | [], balance, _ => by simp [parens]
  | c :: gap, balance, h => by
    obtain ⟨-, hesc, -⟩ := plain_of_isSeparator h.cons.1
    have hstep : (if c = '(' then (1 : Int) else if c = ')' then -1 else 0) + parens gap = parens (c :: gap) := by
      unfold parens
      rw [List.count_cons, List.count_cons]
      by_cases hopen : c = '('
      · subst hopen
        simp
        omega
      · by_cases hclose : c = ')'
        · subst hclose
          simp
          omega
        · simp [hopen, hclose]
    rw [List.cons_append, balanceLoop, toggles_separator h.cons.1, decide_eq_false hesc]
    simp only [Bool.false_eq_true, if_false]
    rw [balanceLoop_gap rest _ h.cons.2, Int.add_assoc, hstep]

/-! The scanners on fields with separators. -/

theorem tokenizeLoop_laid (h : Laid isSeparator fields balance text) : ∀ current : Text,
    tokenizeLoop false false current text = (if current = [] then [] else [current]) ++ fields := by
  induction h with
  | @trail gap hgap =>
    intro current
    cases gap with
    | nil => rw [tokenizeLoop, List.append_nil]
    | cons c gap =>
      have hrest := tokenizeLoop_gap [] hgap.cons.2
      rw [tokenizeLoop_separator hgap.cons.1, ← List.append_nil gap, hrest, tokenizeLoop, if_pos rfl]
  | @field gap t rest fields balance hne hgap ht _ ih =>
    intro current
    obtain ⟨c, gap, rfl⟩ := List.exists_cons_of_ne_nil hne
    rw [List.cons_append, tokenizeLoop_separator hgap.cons.1, tokenizeLoop_gap _ hgap.cons.2,
      tokenizeLoop_field _ _ ht.2, ih, List.nil_append, if_neg ht.1]
    rfl

theorem stripCommentLoop_laid (h : Laid isSeparator fields balance text) (rest : Text) :
    stripCommentLoop false false (text ++ rest) = text ++ stripCommentLoop false false rest := by
  induction h with
  | trail hgap => exact stripCommentLoop_gap rest hgap
  | @field gap t text fields balance _ hgap ht _ ih =>
    rw [List.append_assoc, List.append_assoc, stripCommentLoop_gap _ hgap, stripCommentLoop_field _ ht.2, ih,
      List.append_assoc, List.append_assoc]

theorem balanceLoop_laid (h : Laid isSeparator fields balance text) : ∀ opened : Int,
    balanceLoop false false opened text = opened + balance := by
  induction h with
  | @trail gap hgap =>
    intro opened
    have := balanceLoop_gap [] opened hgap
    rw [List.append_nil] at this
    rw [this]
    rfl
  | field _ hgap ht _ ih =>
    intro opened
    rw [balanceLoop_gap _ opened hgap, balanceLoop_field _ _ ht.2, ih, Int.add_assoc]

theorem tokenize_lineLaid (h : LineLaid isSeparator fields balance text) : tokenizeZoneLine text = fields := by
  cases h with
  | behind h => exact tokenizeLoop_laid h []
  | start ht hrest =>
    rw [tokenizeZoneLine, tokenizeLoop_field _ [] ht.2, tokenizeLoop_laid hrest, List.nil_append, if_neg ht.1]
    rfl

theorem stripZoneComment_lineLaid (h : LineLaid isSeparator fields balance text) {comment : Text}
    (hc : comment = [] ∨ comment.head? = some ';') : stripZoneComment (text ++ comment) = text := by
  cases h with
  | behind h => rw [stripZoneComment, stripCommentLoop_laid h, stripCommentLoop_comment hc, List.append_nil]
  | start ht hrest =>
    rw [stripZoneComment, List.append_assoc, stripCommentLoop_field _ ht.2, stripCommentLoop_laid hrest,
      stripCommentLoop_comment hc, List.append_nil]

theorem parenthesisBalance_lineLaid (h : LineLaid isSeparator fields balance text) :
    parenthesisBalance text = balance := by
  cases h with
  | behind h => rw [parenthesisBalance, balanceLoop_laid h, Int.zero_add]
  | start ht hrest => rw [parenthesisBalance, balanceLoop_field _ 0 ht.2, balanceLoop_laid hrest, Int.zero_add]

end

/-! Trimmed texts. -/

def EndsInBlank (t : Text) : Prop := t.getLast?.any isWhitespace = true

instance (t : Text) : Decidable (EndsInBlank t) := inferInstanceAs (Decidable (_ = true))

/-- Blanks apart, a text ends in a parenthesis. -/
def EndsInParenthesis (text : Text) : Prop := (trim text).getLast? = some '(' ∨ (trim text).getLast? = some ')'

instance (text : Text) : Decidable (EndsInParenthesis text) := inferInstanceAs (Decidable (_ ∨ _))

theorem rdropWhile_append_of_ne {p : Char → Bool} (a : Text) {b : Text} (h : b.rdropWhile p ≠ []) :
    (a ++ b).rdropWhile p = a ++ b.rdropWhile p := by
  have hne : (b.reverse.dropWhile p).isEmpty = false := by
    rw [List.isEmpty_eq_false_iff]
    intro hnil
    exact h (by rw [List.rdropWhile, hnil, List.reverse_nil])
  rw [List.rdropWhile, List.reverse_append, List.dropWhile_append, hne, if_neg Bool.false_ne_true, List.reverse_append,
    List.reverse_reverse]
  rfl

theorem rdropWhile_append_of_nil {p : Char → Bool} (a : Text) {b : Text} (h : b.rdropWhile p = []) :
    (a ++ b).rdropWhile p = a.rdropWhile p := by
  have hnil : (b.reverse.dropWhile p).isEmpty = true := by
    rw [List.isEmpty_iff]
    exact List.reverse_eq_nil_iff.mp h
  rw [List.rdropWhile, List.reverse_append, List.dropWhile_append, hnil, if_pos rfl]
  rfl

/-- A field that ends in a blank has it escaped. -/
theorem escaped_blank : ∀ {t : Text} {quoted escaped : Bool}, fieldLoop quoted escaped t = true → EndsInBlank t →
    (∃ h w, t = h ++ ['\\', w] ∧ isWhitespace w = true) ∨ escaped = true ∧ t.length = 1
  | [], _, _, _, hb => by cases hb
  | [c], quoted, true, _, _ => .inr ⟨rfl, rfl⟩
  | [c], quoted, false, h, hb => by
    -- unescaped, the blank would stand in quotes, which nothing closes
    have hblank : isWhitespace c = true := hb
    obtain ⟨hplain, hend⟩ := fieldLoop_cons h
    obtain ⟨hquote, hesc, -⟩ := plain_of_isWhitespace hblank
    rw [toggles, if_neg hquote, fieldLoop, Bool.and_eq_true, Bool.not_eq_true'] at hend
    exact absurd (.inr (.inr (.inr hblank))) (hplain hend.1)
  | c :: d :: t, quoted, escaped, h, hb => by
    have hb' : EndsInBlank (d :: t) := by
      unfold EndsInBlank at hb ⊢
      rwa [List.getLast?_cons_cons] at hb
    obtain ⟨escaped', hnext, hesc⟩ : ∃ escaped', (∃ quoted', fieldLoop quoted' escaped' (d :: t) = true) ∧
        (escaped' = true → c = '\\') := by
      cases escaped with
      | true => exact ⟨false, ⟨quoted, h⟩, fun he => by cases he⟩
      | false => exact ⟨decide (c = '\\'), ⟨toggles quoted c, (fieldLoop_cons h).2⟩, fun he => of_decide_eq_true he⟩
    obtain ⟨quoted', hnext⟩ := hnext
    obtain ⟨g, w, hg, hw⟩ | ⟨he, hlen⟩ := escaped_blank hnext hb'
    · exact .inl ⟨c :: g, w, by rw [hg]; rfl, hw⟩
    · have ht : t = [] := List.length_eq_zero_iff.mp (Nat.succ_inj.mp hlen)
      subst ht
      exact .inl ⟨[], d, by rw [hesc he]; rfl, hb'⟩

/-- The start of a field is one token. -/
theorem tokenizeLoop_prefix : ∀ {p s : Text} {quoted escaped : Bool} (current : Text),
    fieldLoop quoted escaped (p ++ s) = true → current ++ p ≠ [] → tokenizeLoop quoted escaped current p = [current ++ p]
  | [], s, quoted, escaped, current, _, hne => by
    rw [List.append_nil] at hne ⊢
    cases escaped <;> rw [tokenizeLoop, if_neg hne]
  | c :: p, s, quoted, true, current, h, hne => by
    rw [List.cons_append, fieldLoop] at h
    rw [tokenizeLoop, tokenizeLoop_prefix (current ++ [c]) h (by simp), List.append_assoc]
    rfl
  | c :: p, s, quoted, false, current, h, hne => by
    obtain ⟨hplain, hrest⟩ := fieldLoop_cons h
    have hnot : ¬ ((!quoted) = true ∧ (c = '(' ∨ c = ')' ∨ isWhitespace c)) := by
      intro hsep
      exact hplain (by simpa using hsep.1) (by tauto)
    rw [tokenizeLoop, if_neg hnot, tokenizeLoop_prefix (current ++ [c]) hrest (by simp), List.append_assoc]
    rfl

section
variable {sep : Char → Bool} {fields init : List Text} {last : Text} {balance : Int} {text gap rest : Text}

/-- A text cut in front of its last field: the front has the other fields as its tokens. -/
theorem Laid.split_last (h : Laid sep fields balance text) (hs : ∀ c, sep c = true → isSeparator c = true) :
    ∀ {init : List Text}, fields = init ++ [last] → ∃ front gap, text = front ++ (last ++ gap) ∧ Gap sep gap ∧
      ∀ current s, tokenizeLoop false false current (front ++ s) =
        (if current = [] then [] else [current]) ++ (init ++ tokenizeLoop false false [] s) := by
  induction h with
  | trail _ => exact fun he => absurd he.symm (by simp)
  | @field gap t rest fields balance hne hgap ht hrest ih =>
    intro init he
    obtain ⟨c, gap', rfl⟩ := List.exists_cons_of_ne_nil hne
    have hsep := hgap.mono hs
    have hfront : ∀ current s, tokenizeLoop false false current ((c :: gap') ++ s) =
        (if current = [] then [] else [current]) ++ tokenizeLoop false false [] s := by
      intro current s
      rw [List.cons_append, tokenizeLoop_separator hsep.cons.1, tokenizeLoop_gap s hsep.cons.2]
    cases init with
    | nil =>
      obtain ⟨rfl, rfl⟩ := List.cons.inj he
      cases hrest with
      | trail hgap'' => exact ⟨c :: gap', _, rfl, hgap'', fun current s => hfront current s⟩
    | cons u init =>
      obtain ⟨rfl, hrest'⟩ := List.cons.inj he
      obtain ⟨front, gap'', rfl, hgap'', htokens⟩ := ih hrest'
      refine ⟨(c :: gap') ++ (t ++ front), gap'', by simp, hgap'', fun current s => ?_⟩
      rw [List.append_assoc, List.append_assoc, hfront, tokenizeLoop_field _ [] ht.2, List.nil_append, htokens,
        if_neg ht.1]
      rfl

theorem LineLaid.split_last (h : LineLaid sep (init ++ [last]) balance text)
    (hs : ∀ c, sep c = true → isSeparator c = true) : ∃ front gap, text = front ++ (last ++ gap) ∧ Gap sep gap ∧
      ∀ s, tokenizeLoop false false [] (front ++ s) = init ++ tokenizeLoop false false [] s := by
  generalize hf : init ++ [last] = fields at h
  cases h with
  | behind h =>
    obtain ⟨front, gap, htext, hgap, htokens⟩ := h.split_last hs hf.symm
    exact ⟨front, gap, htext, hgap, fun s => htokens [] s⟩
  | @start t rest fields balance ht hrest =>
    cases init with
    | nil =>
      obtain ⟨rfl, rfl⟩ := List.cons.inj hf
      cases hrest with
      | trail hgap => exact ⟨[], _, rfl, hgap, fun s => rfl⟩
    | cons u init =>
      obtain ⟨rfl, hrest'⟩ := List.cons.inj hf
      obtain ⟨front, gap, rfl, hgap, htokens⟩ := hrest.split_last hs hrest'.symm
      refine ⟨u ++ front, gap, by simp, hgap, fun s => ?_⟩
      rw [List.append_assoc, tokenizeLoop_field _ [] ht.2, List.nil_append, htokens, if_neg ht.1]
      rfl

theorem Scanned.head (h : Scanned text) : ∃ c rest, text = c :: rest ∧ isWhitespace c = false := by
  obtain ⟨c, rest, rfl⟩ := List.exists_cons_of_ne_nil h.1
  refine ⟨c, rest, rfl, ?_⟩
  have := (fieldLoop_cons h.2).1 rfl
  simp only [not_or, Bool.not_eq_true] at this
  exact this.2.2.2

/-- Without the blanks in front of it a line is laid out as before. -/
theorem LineLaid.trimStart (h : LineLaid sep (init ++ [last]) balance text) :
    ∃ balance', LineLaid sep (init ++ [last]) balance' (text.dropWhile isWhitespace) := by
  have hstart : ∀ {t rest : Text}, Scanned t → (t ++ rest).dropWhile isWhitespace = t ++ rest := by
    intro t rest ht
    obtain ⟨c, u, rfl, hc⟩ := ht.head
    rw [List.cons_append, List.dropWhile_cons_of_neg (by simp [hc])]
  generalize hf : init ++ [last] = fields at h ⊢
  cases h with
  | start ht hrest => exact ⟨_, by rw [hstart ht]; exact .start ht hrest⟩
  | behind h =>
    cases h with
    | trail _ => exact absurd hf (by simp)
    | @field gap t rest fields balance hne hgap ht hrest =>
      rw [List.dropWhile_append]
      cases hd : gap.dropWhile isWhitespace with
      | nil =>
        rw [List.isEmpty_nil, if_pos rfl, hstart ht]
        exact ⟨_, .start ht hrest⟩
      | cons c gap' =>
        rw [if_neg (by simp)]
        have hsub : Gap sep (c :: gap') := by
          intro d hd'
          rw [← hd] at hd'
          exact hgap d (List.dropWhile_subset _ hd')
        exact ⟨_, .behind (.field (List.cons_ne_nil c gap') hsub ht hrest)⟩

/-- **The tokens of a record.** Trimmed, it has its fields as tokens; only a last field that ends in
    an escaped blank, with no parenthesis behind it, loses the blank. -/
theorem tokenize_laid (h : LineLaid sep (init ++ [last]) balance text) (hs : ∀ c, sep c = true → isSeparator c = true) :
    tokenizeZoneLine (trim text) =
      init ++ [if EndsInBlank last ∧ ¬ EndsInParenthesis text then last.dropLast else last] := by
  have hlast : Scanned last := h.scanned last (by simp)
  obtain ⟨balance', h'⟩ := h.trimStart
  obtain ⟨front, gap, htext, hgap, htokens⟩ := h'.split_last hs
  have hone : tokenizeLoop false false [] last = [last] := by
    have := tokenizeLoop_prefix (s := []) [] (by rw [List.append_nil]; exact hlast.2) hlast.1
    exact this
  have hsep := hgap.mono hs
  by_cases hall : gap.rdropWhile isWhitespace = []
  · -- nothing but blanks behind the last field
    have htrim : trim text = (front ++ last).rdropWhile isWhitespace := by
      rw [trim, htext, ← List.append_assoc, rdropWhile_append_of_nil _ hall]
    by_cases hb : EndsInBlank last
    · obtain ⟨g, w, rfl, hw⟩ | ⟨he, -⟩ := escaped_blank hlast.2 hb
      · have hcut : trim text = front ++ (g ++ ['\\']) := by
          have hsplit : front ++ (g ++ ['\\', w]) = (front ++ (g ++ ['\\'])) ++ [w] := by simp
          rw [htrim, hsplit, List.rdropWhile_concat_pos _ _ _ hw, ← List.append_assoc,
            List.rdropWhile_concat_neg _ _ _ (by decide)]
        have hparen : ¬ EndsInParenthesis text := by
          unfold EndsInParenthesis
          rw [hcut, ← List.append_assoc, List.getLast?_concat]
          decide
        have hdrop : (g ++ ['\\', w]).dropLast = g ++ ['\\'] := by
          have hsplit : g ++ ['\\', w] = (g ++ ['\\']) ++ [w] := by simp
          rw [hsplit, List.dropLast_concat]
        have hfield := hlast.2
        rw [show g ++ ['\\', w] = (g ++ ['\\']) ++ [w] by simp] at hfield
        rw [if_pos ⟨hb, hparen⟩, hdrop, tokenizeZoneLine, hcut, htokens, tokenizeLoop_prefix [] hfield (by simp)]
        rfl
      · cases he
    · have hkeep : trim text = front ++ last := by
        rw [htrim, List.rdropWhile_eq_self_iff]
        intro hne
        rw [List.getLast_append_of_ne_nil _ hlast.1]
        intro hblank
        apply hb
        unfold EndsInBlank
        rw [List.getLast?_eq_some_getLast hlast.1]
        exact hblank
      rw [if_neg (fun hc => hb hc.1), tokenizeZoneLine, hkeep, htokens, hone]
  · -- a parenthesis behind it
    have htrim : trim text = front ++ (last ++ gap.rdropWhile isWhitespace) := by
      rw [trim, htext, ← List.append_assoc, rdropWhile_append_of_ne _ hall, List.append_assoc]
    have hgap' : Gap isSeparator (gap.rdropWhile isWhitespace) := fun c hc =>
      hsep c ((List.rdropWhile_prefix isWhitespace gap).subset hc)
    have hparen : EndsInParenthesis text := by
      have hend := List.rdropWhile_last_not isWhitespace gap hall
      have hmem := hgap' _ (List.getLast_mem hall)
      unfold EndsInParenthesis
      rw [htrim, ← List.append_assoc, List.getLast?_append_of_ne_nil _ hall, List.getLast?_eq_some_getLast hall]
      simp only [isSeparator, Bool.or_eq_true, beq_iff_eq] at hmem
      simp only [Option.some.injEq]
      tauto
    have hrest := tokenizeLoop_gap [] hgap'
    rw [List.append_nil] at hrest
    have htail : tokenizeLoop false false [] (last ++ gap.rdropWhile isWhitespace) = [last] := by
      obtain ⟨c, gap', hcons⟩ := List.exists_cons_of_ne_nil hall
      rw [tokenizeLoop_field _ [] hlast.2, List.nil_append, hcons]
      rw [hcons] at hgap'
      have hgap'' := tokenizeLoop_gap [] hgap'.cons.2
      rw [List.append_nil] at hgap''
      rw [tokenizeLoop_separator hgap'.cons.1, if_neg hlast.1, hgap'', tokenizeLoop, if_pos rfl, List.append_nil]
    rw [if_neg (fun hc => hc.2 hparen), tokenizeZoneLine, htrim, htokens, htail]

end

/-! Records over lines. -/

/-- A line of a record: its fields and parentheses, and a comment or none. -/
structure LaidLine where
  fields : List Text
  balance : Int
  text : Text
  comment : Text
  laid : LineLaid isSeparator fields balance text
  commented : comment = [] ∨ comment.head? = some ';'
  unbroken : '\n' ∉ text ++ comment

namespace LaidLine

/-- The line as the file has it. -/
def raw (l : LaidLine) : Text := l.text ++ l.comment

/-- Parentheses are open at the end of every line but the last, where all are closed. -/
def Grouped : Int → List LaidLine → Prop
  | _, [] => False
  | opened, [l] => opened + l.balance = 0
  | opened, l :: ls => 0 < opened + l.balance ∧ Grouped (opened + l.balance) ls

/-- The text the loader makes of them. -/
def joined (ls : List LaidLine) : Text := ls.flatMap fun l => l.text ++ [' ']

theorem strip_raw (l : LaidLine) : stripZoneComment l.raw = l.text := stripZoneComment_lineLaid l.laid l.commented

theorem balance_text (l : LaidLine) : parenthesisBalance l.text = l.balance := parenthesisBalance_lineLaid l.laid

/-- A line with nothing but blanks has no fields and no parentheses. -/
theorem of_blank {l : LaidLine} (h : trim l.text = []) : l.balance = 0 ∧ l.fields = [] := by
  have hblank := allBlank_of_trim h
  have htokens := tokenizeLoop_blanks [] hblank
  rw [List.append_nil] at htokens
  refine ⟨?_, ?_⟩
  · rw [← l.balance_text]
    exact balance_of_blank hblank
  · rw [← tokenize_lineLaid l.laid]
    exact htokens

theorem joined_tail : ∀ ls : List LaidLine, ∃ balance, Laid isSeparator (ls.flatMap fields) balance (' ' :: joined ls)
  | [] => by
    exact ⟨_, .trail gap_space⟩
  | l :: ls => by
    obtain ⟨balance, h⟩ := joined_tail ls
    have hline := (l.laid.append h).prepend (List.cons_ne_nil ' ' []) gap_space
    refine ⟨parens [' '] + (l.balance + balance), ?_⟩
    simpa only [joined, List.flatMap_cons, List.append_assoc, List.singleton_append] using hline

/-- The joined text is laid out as one line is. -/
theorem joined_laid (l : LaidLine) (ls : List LaidLine) :
    ∃ balance, LineLaid isSeparator ((l :: ls).flatMap fields) balance (joined (l :: ls)) := by
  obtain ⟨balance, h⟩ := joined_tail ls
  refine ⟨l.balance + balance, ?_⟩
  simpa only [joined, List.flatMap_cons, List.append_assoc, List.singleton_append] using l.laid.append h

/-- Lines whose parentheses close on the last are joined. -/
theorem joinLines_grouped (after : List Text) : ∀ (ls : List LaidLine) (pending : Text) (opened : Int),
    (pending = [] → opened = 0 ∧ ls.flatMap fields ≠ []) → Grouped opened ls →
    joinLines pending opened (ls.map raw ++ after) = (pending ++ joined ls) :: joinLines [] 0 after
  | [l], pending, opened, hp, hg => by
    have hblank : ¬ (pending = [] ∧ trim l.text = []) := by
      intro h
      apply (hp h.1).2
      rw [List.flatMap_cons, (of_blank h.2).2]
      rfl
    have hclosed : ¬ opened + l.balance > 0 := by
      have : opened + l.balance = 0 := hg
      omega
    rw [List.map_cons, List.map_nil, List.cons_append, List.nil_append, joinLines, strip_raw, if_neg hblank]
    dsimp only
    rw [balance_text, if_neg hclosed, List.append_assoc, joined, List.flatMap_cons, List.flatMap_nil, List.append_nil]
  | l :: l' :: ls, pending, opened, hp, hg => by
    obtain ⟨hopen, hrest⟩ := hg
    have hblank : ¬ (pending = [] ∧ trim l.text = []) := by
      intro h
      have h0 := (hp h.1).1
      have hb := (of_blank h.2).1
      omega
    rw [List.map_cons, List.cons_append, joinLines, strip_raw, if_neg hblank]
    dsimp only
    rw [balance_text, if_pos hopen, joinLines_grouped after (l' :: ls) _ _ (fun h => absurd h (by simp)) hrest]
    simp only [joined, List.flatMap_cons, List.append_assoc]

end LaidLine

end Ironbind
