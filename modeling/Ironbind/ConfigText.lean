import Ironbind.ConfigFile
import Ironbind.RecordFields

/- What a configuration file says, read apart from how it is parsed. A text is taken
   character by character (`Place`): a number sign outside quotes begins a comment, and a
   newline ends a statement unless quotes keep it from being one or brackets are open behind an
   equals sign, so that an array may stand on several lines. A statement is a section in brackets or a
   key with a value, and a value is a text in quotes or without, a number, a flag or a
   list of texts. `RegularText` is the text whose statements are its lines, with no quotes around
   names and nothing but double quotes around values: there the parser finds the same entries
   (`parseStr_regular`), and what a value stands for it reads too (`valueOf_textIn` and those
   after it). -/
namespace Ironbind
open Codec

/-! Statements. -/

/-- Where a character stands: outside quotes, between double quotes, behind a backslash there, between single quotes, or
    in a comment. Behind an equals sign the brackets that are open are counted. -/
inductive Place where
  | bare (depth : Option Nat)
  | quoted (depth : Option Nat)
  | escaped (depth : Option Nat)
  | literal (depth : Option Nat)
  | comment (depth : Option Nat)
  deriving DecidableEq, Repr

namespace Place

/-- The next character stands in a new statement when no brackets are open. -/
def newline (depth : Option Nat) : Place := bare (depth.filter (· ≠ 0))

def next : Place → Char → Place
  | bare depth, c =>
    if c = '"' then quoted depth
    else if c = '\'' then literal depth
    else if c = '#' then comment depth
    else if c = '=' then bare (some (depth.getD 0))
    else if c = '[' then bare (depth.map (· + 1))
    else if c = ']' then bare (depth.map (· - 1))
    else if c = '\n' then newline depth
    else bare depth
  | quoted depth, c =>
    if c = '"' then bare depth else if c = '\\' then escaped depth else if c = '\n' then bare none else quoted depth
  | escaped depth, c => if c = '\n' then bare none else quoted depth
  | literal depth, c => if c = '\'' then bare depth else if c = '\n' then bare none else literal depth
  | comment depth, c => if c = '\n' then newline depth else comment depth

/-- A newline in open brackets is a blank. -/
def lineEnd (depth : Option Nat) : Char := if depth.getD 0 = 0 then '\n' else ' '

/-- What is left of a character: of a comment, the newline behind it. -/
def keep : Place → Char → Text
  | bare depth, c => if c = '#' then [] else if c = '\n' then [lineEnd depth] else [c]
  | comment depth, c => if c = '\n' then [lineEnd depth] else []
  | _, c => [c]

def isBare : Place → Bool
  | bare _ => true
  | _ => false

end Place

/-- A text without its comments, and with every statement on a line. -/
def logical : Place → Text → Text
  | _, [] => []
  | p, c :: rest => p.keep c ++ logical (p.next c) rest

def statements (content : Text) : List Text := (logical (.bare none) content).splitOn '\n'

/-! Quotes. -/

/-- The characters that have a letter of their own. One that is spelled by its number is not read: the parser gives no such
    text back. -/
def escapeOf (c : Char) : Option Char :=
  match c with
  | '"' => some '"'
  | '\\' => some '\\'
  | 'b' => some (Char.ofNat 8)
  | 't' => some '\t'
  | 'n' => some '\n'
  | 'f' => some (Char.ofNat 12)
  | 'r' => some '\r'
  | _ => none

/-- The text up to a double quote that ends it. -/
def unescape : Text → Option Text
  | [] => none
  | '"' :: rest => if rest = [] then some [] else none
  | '\\' :: c :: rest => (escapeOf c).bind fun e => (unescape rest).map (e :: ·)
  | c :: rest => (unescape rest).map (c :: ·)

/-- A text in double quotes, or as it is in single ones. -/
def quotedIn : Text → Option Text
  | '"' :: rest => unescape rest
  | '\'' :: rest => if rest.getLast? = some '\'' ∧ '\'' ∉ rest.dropLast then some rest.dropLast else none
  | _ => none

/-! Entries. -/

structure ConfigEntry where
  sec : Option Text
  key : Text
  value : Text
  deriving DecidableEq

/-- A name, with quotes around it or not. -/
def nameIn (s : Text) : Text := (quotedIn (trim s)).getD (trim s)

/-- The name of a section stands in brackets. -/
def sectionIn (s : Text) : Option Text :=
  if s.head? = some '[' ∧ s.getLast? = some ']' then some (nameIn (s.drop 1).dropLast) else none

def entryIn (sec : Option Text) (s : Text) : Option ConfigEntry :=
  if '=' ∈ s then some ⟨sec, nameIn (s.takeWhile (· != '=')), trim ((s.dropWhile (· != '=')).drop 1)⟩ else none

/-- The entries of the statements that follow in a section. -/
def entriesFrom : Option Text → List Text → List ConfigEntry
  | _, [] => []
  | sec, s :: rest =>
    match sectionIn (trim s) with
    | some name => entriesFrom (some name) rest
    | none => (entryIn sec (trim s)).toList ++ entriesFrom sec rest

def configEntries (content : Text) : List ConfigEntry := entriesFrom none (statements content)

/-! Values. -/

def digitsIn (s : Text) : Option Nat :=
  if s ≠ [] ∧ s.all Char.isDigit then some (Nat.ofDigits 10 (s.reverse.map fun c => c.toNat - '0'.toNat)) else none

/-- An integer of 64 bits, in decimal. -/
def integerIn (s : Text) : Option Int :=
  (match s with
    | '-' :: rest => (digitsIn rest).map fun n : Nat => -(n : Int)
    | '+' :: rest => (digitsIn rest).map Int.ofNat
    | _ => (digitsIn s).map Int.ofNat).filter fun n => -2 ^ 63 ≤ n ∧ n < 2 ^ 63

def flags : List (Text × Bool) := [("true".toList, true), ("false".toList, false)]

/-- A text without quotes: it holds none, and is nothing else. -/
def Bare (s : Text) : Prop :=
  s ≠ [] ∧ '"' ∉ s ∧ '\'' ∉ s ∧ s.head? ≠ some '[' ∧ integerIn s = none ∧ flags.lookup s = none

instance (s : Text) : Decidable (Bare s) := inferInstanceAs (Decidable (_ ∧ _ ∧ _ ∧ _ ∧ _ ∧ _))

def textIn (s : Text) : Option Text := (quotedIn s).or (if Bare s then some s else none)

/-- A number may stand in quotes, and so may a flag. -/
def numberIn (s : Text) : Option Int := integerIn ((quotedIn s).getD s)
def flagIn (s : Text) : Option Bool := flags.lookup ((quotedIn s).getD s)

/-- The pieces between the commas outside quotes. -/
def cutAt : Place → Text → List Text
  | _, [] => [[]]
  | p, c :: rest =>
    if c = ',' ∧ p.isBare then [] :: cutAt (p.next c) rest
    else (cutAt (p.next c) rest).modifyHead (c :: ·)

/-- A comma may stand behind the last item. -/
def itemsIn (body : Text) : Option (List Text) :=
  let pieces := (cutAt (.bare (some 1)) body).map trim
  (if pieces.getLast? = some [] then pieces.dropLast else pieces).mapM textIn

/-- A list as it is written: a text that stands for the list of it alone, or the items in brackets. -/
inductive Listing where
  | one (s : Text)
  | many (items : List Text)
  deriving DecidableEq, Repr

def Listing.items : Listing → List Text
  | one s => [s]
  | many items => items

def listIn (s : Text) : Option Listing :=
  if s.head? = some '[' then
    if s.getLast? = some ']' then (itemsIn (s.drop 1).dropLast).map .many else none
  else (textIn s).map .one

/-! Lines that are statements. -/

namespace Place

/-- Where the parser can follow: outside comments, and in no quotes but double ones behind an equals sign. -/
def plain : Place → Bool
  | bare _ => true
  | quoted depth => depth.isSome
  | _ => false

/-- Every character leads to a plain place. -/
def calm : Place → Text → Bool
  | _, [] => true
  | p, c :: rest => (p.next c).plain && calm (p.next c) rest

/-- A statement may end here, with its quotes and brackets closed. -/
def closed : Place → Bool
  | bare depth => depth.getD 0 = 0
  | _ => false

end Place

/-- A line that is a statement of its own, in places the parser can follow. -/
def RegularLine (line : Text) : Prop :=
  (Place.bare none).calm (logical (.bare none) line) ∧ ((logical (.bare none) line).foldl Place.next (.bare none)).closed

instance (line : Text) : Decidable (RegularLine line) := inferInstanceAs (Decidable (_ ∧ _))

def RegularText (content : Text) : Prop := ∀ line ∈ content.splitOn '\n', RegularLine line

instance (content : Text) : Decidable (RegularText content) := inferInstanceAs (Decidable (∀ _ ∈ _, _))

section
variable {p : Place} {depth : Option Nat} {c : Char} {s line rest : Text}

theorem calm_cons : p.calm (c :: rest) ↔ (p.next c).plain ∧ (p.next c).calm rest := by
  rw [Place.calm, Bool.and_eq_true]

theorem calm_append : ∀ {p : Place} {a b : Text}, p.calm (a ++ b) ↔ p.calm a ∧ (a.foldl Place.next p).calm b
  | p, [], b => by simp [Place.calm]
  | p, c :: a, b => by rw [List.cons_append, calm_cons, calm_cons, calm_append, List.foldl_cons, and_assoc]

/-- Outside quotes, a character that leads to a plain place opens double quotes or leaves the place outside them. -/
theorem next_bare (hn : c ≠ '\n') (h : ((Place.bare depth).next c).plain) : c ≠ '\'' ∧ c ≠ '#' ∧
    ∃ after, (Place.bare depth).next c = if c = '"' then .quoted after else .bare after := by
  simp only [Place.next] at h ⊢
  refine ⟨?_, ?_, ?_⟩
  · rintro rfl
    simp [Place.plain] at h
  · rintro rfl
    simp [Place.plain] at h
  · by_cases hquote : c = '"'
    · exact ⟨depth, by simp only [if_pos hquote]⟩
    · rw [if_neg hquote] at h ⊢
      split at h
      · cases h
      · split at h
        · cases h
        · next hlit hcom =>
          simp only [if_neg hquote, if_neg hlit, if_neg hcom, if_neg hn]
          split
          · exact ⟨_, rfl⟩
          · split
            · exact ⟨_, rfl⟩
            · split <;> exact ⟨_, rfl⟩

/-- Between double quotes it closes them, or stays there. -/
theorem next_quoted (hn : c ≠ '\n') (h : ((Place.quoted depth).next c).plain) : c ≠ '\\' ∧
    (Place.quoted depth).next c = if c = '"' then .bare depth else .quoted depth := by
  simp only [Place.next, if_neg hn] at h ⊢
  have hne : c ≠ '\\' := by
    rintro rfl
    simp [Place.plain] at h
  exact ⟨hne, by rw [if_neg hne]⟩

/-- A newline ends a statement with no brackets open. -/
theorem logical_newline (hp : p = .bare depth ∨ p = .comment depth) (hdepth : depth.getD 0 = 0) :
    logical p ('\n' :: rest) = '\n' :: logical (.bare none) rest := by
  have hnext : Place.newline depth = .bare none := by
    cases depth with
    | none => rfl
    | some n => rw [show n = 0 from hdepth]; rfl
  have hend : Place.lineEnd depth = '\n' := if_pos hdepth
  rcases hp with rfl | rfl
  · simp [logical, Place.keep, Place.next, hnext, hend]
  · simp [logical, Place.keep, Place.next, hnext, hend]

/-- A comment leaves nothing of its line. -/
theorem logical_comment (hline : '\n' ∉ line) : logical (.comment depth) line = [] := by
  induction line with
  | nil => rfl
  | cons c line ih =>
    obtain ⟨hc, hline⟩ := not_or.mp (mt List.mem_cons.mpr hline)
    rw [logical, Place.keep, if_neg (Ne.symm hc), Place.next, if_neg (Ne.symm hc), ih hline]
    rfl

/-- The newline behind it is kept. -/
theorem logical_comment_append (hline : '\n' ∉ line) (hdepth : depth.getD 0 = 0) :
    logical (.comment depth) (line ++ '\n' :: rest) = '\n' :: logical (.bare none) rest := by
  induction line with
  | nil => exact logical_newline (.inr rfl) hdepth
  | cons c line ih =>
    obtain ⟨hc, hline⟩ := not_or.mp (mt List.mem_cons.mpr hline)
    rw [List.cons_append, logical, Place.keep, if_neg (Ne.symm hc), Place.next, if_neg (Ne.symm hc), ih hline]
    rfl

/-- In which places the parser is in a string. -/
def Place.inString : Place → Bool
  | quoted _ => true
  | _ => false

/-- **A regular line** is read by itself, and what is left of it is what the parser leaves. -/
theorem logical_line (hline : '\n' ∉ line) (hplain : p.plain) (hcalm : p.calm (logical p line))
    (hclosed : ((logical p line).foldl Place.next p).closed) :
    (∀ rest, logical p (line ++ '\n' :: rest) = logical p line ++ '\n' :: logical (.bare none) rest) ∧
      logical p line = Toml.stripCommentLoop p.inString line := by
  induction line generalizing p with
  | nil =>
    match p, hclosed with
    | .bare depth, hclosed =>
      exact ⟨fun rest => logical_newline (.inl rfl) (of_decide_eq_true hclosed), rfl⟩
  | cons c line ih =>
    obtain ⟨hc, hrest⟩ := not_or.mp (mt List.mem_cons.mpr hline)
    -- a character that is kept goes on to a plain place
    have hkept : p.keep c = [c] → (p.inString = true ∨ c ≠ '#') → (p.next c).inString = toggles p.inString c →
        (∀ rest, logical p (c :: line ++ '\n' :: rest) = logical p (c :: line) ++ '\n' :: logical (.bare none) rest) ∧
          logical p (c :: line) = Toml.stripCommentLoop p.inString (c :: line) := by
      intro hkeep hnot htoggles
      rw [logical, hkeep, List.singleton_append] at hcalm hclosed
      obtain ⟨hnext, hcalm⟩ := calm_cons.mp hcalm
      obtain ⟨happend, hstrip⟩ := ih hrest hnext hcalm hclosed
      rw [htoggles] at hstrip
      refine ⟨fun rest => ?_, ?_⟩
      · rw [List.cons_append, logical, logical, hkeep, happend rest, List.append_assoc]
      · rw [logical, hkeep, hstrip, Toml.stripCommentLoop, if_neg]
        · rfl
        · rintro ⟨hhash, hout⟩
          rcases hnot with hin | hne
          · rw [hin] at hout
            cases hout
          · exact hne hhash
    match p, hplain with
    | .bare depth, _ =>
      by_cases hhash : c = '#'
      · -- the comment goes, and the place is the one in front of it
        subst hhash
        have hnil : logical (.bare depth) ('#' :: line) = [] := by
          rw [logical, Place.keep, if_pos rfl, List.nil_append]
          exact logical_comment hrest
        rw [hnil] at hclosed
        have hdepth : depth.getD 0 = 0 := of_decide_eq_true hclosed
        rw [hnil]
        refine ⟨fun rest => ?_, rfl⟩
        rw [List.cons_append, logical, Place.keep, if_pos rfl, List.nil_append, List.nil_append]
        exact logical_comment_append hrest hdepth
      · have hkeep : (Place.bare depth).keep c = [c] := by rw [Place.keep, if_neg hhash, if_neg (Ne.symm hc)]
        refine hkept hkeep (.inr hhash) ?_
        rw [logical, hkeep, List.singleton_append] at hcalm
        obtain ⟨-, -, after, hnext⟩ := next_bare (Ne.symm hc) (calm_cons.mp hcalm).1
        rw [hnext, toggles]
        split <;> rfl
    | .quoted depth, _ =>
      have hkeep : (Place.quoted depth).keep c = [c] := rfl
      refine hkept hkeep (.inl rfl) ?_
      rw [logical, hkeep, List.singleton_append] at hcalm
      rw [(next_quoted (Ne.symm hc) (calm_cons.mp hcalm).1).2, toggles]
      split <;> rfl

theorem stripComment_subset : ∀ {inStr : Bool} {line : Text}, Toml.stripCommentLoop inStr line ⊆ line
  | _, [] => List.Subset.refl _
  | inStr, c :: line => by
    rw [Toml.stripCommentLoop]
    split
    · exact List.nil_subset _
    · exact List.cons_subset_cons c stripComment_subset

theorem logical_regular {ls : List Text} (hls : ∀ line ∈ ls, '\n' ∉ line ∧ RegularLine line) :
    logical (.bare none) (['\n'].intercalate ls) = ['\n'].intercalate (ls.map Toml.stripComment) := by
  induction ls with
  | nil => rfl
  | cons line ls ih =>
    obtain ⟨⟨hn, hregular⟩, hrest⟩ := List.forall_mem_cons.mp hls
    obtain ⟨happend, hstrip⟩ := logical_line hn rfl hregular.1 hregular.2
    replace hstrip : logical (.bare none) line = Toml.stripComment line := hstrip
    cases ls with
    | nil => rw [List.map_singleton, List.intercalate_singleton, List.intercalate_singleton, hstrip]
    | cons next ls =>
      have hmore := ih hrest
      rw [List.map_cons] at hmore
      rw [List.map_cons, List.map_cons, List.intercalate_cons_cons, List.intercalate_cons_cons, List.append_assoc,
        List.singleton_append, happend, hmore, hstrip, List.append_assoc, List.singleton_append]

/-- The statements of a regular text are its lines, without their comments. -/
theorem statements_regular {content : Text} (h : RegularText content) :
    statements content = (content.splitOn '\n').map Toml.stripComment := by
  have hlines : ∀ line ∈ content.splitOn '\n', '\n' ∉ line ∧ RegularLine line :=
    fun line hline => ⟨not_mem_of_mem_splitOn hline, h line hline⟩
  have hjoined : ['\n'].intercalate (content.splitOn '\n') = content := List.intercalate_splitOn '\n'
  rw [statements, ← hjoined, logical_regular hlines, hjoined]
  refine List.splitOn_intercalate '\n' (fun line hline => ?_) (by simp [List.splitOn_ne_nil])
  obtain ⟨raw, hraw, rfl⟩ := List.mem_map.mp hline
  exact fun hmem => (hlines raw hraw).1 (stripComment_subset hmem)

/-! Blanks. -/

theorem exists_trim (s : Text) : ∃ lead trail, s = lead ++ (trim s ++ trail) ∧ AllBlank lead ∧ AllBlank trail := by
  refine ⟨s.takeWhile isWhitespace, (s.dropWhile isWhitespace).rtakeWhile isWhitespace, ?_, fun c hc => ?_, fun c hc => ?_⟩
  · rw [trim, List.rdropWhile_append_rtakeWhile, List.takeWhile_append_dropWhile]
  · exact List.mem_takeWhile_imp hc
  · exact List.mem_rtakeWhile_imp hc

/-- A blank leaves the place as it is. -/
theorem next_blank (hplain : p.plain) (hn : c ≠ '\n') (hc : isWhitespace c) : p.next c = p := by
  have hne : ∀ d, isWhitespace d = false → c ≠ d := by
    rintro d hd rfl
    rw [hc] at hd
    cases hd
  match p, hplain with
  | .bare depth, _ =>
    simp only [Place.next, if_neg (hne _ (by decide : isWhitespace '"' = false)),
      if_neg (hne _ (by decide : isWhitespace '\'' = false)),
      if_neg (hne _ (by decide : isWhitespace '#' = false)), if_neg (hne _ (by decide : isWhitespace '=' = false)),
      if_neg (hne _ (by decide : isWhitespace '[' = false)),
      if_neg (hne _ (by decide : isWhitespace ']' = false)), if_neg hn]
  | .quoted depth, _ =>
    simp only [Place.next, if_neg (hne _ (by decide : isWhitespace '"' = false)),
      if_neg (hne _ (by decide : isWhitespace '\\' = false)), if_neg hn]

theorem run_blank (hplain : p.plain) : ∀ {s : Text}, '\n' ∉ s → AllBlank s → s.foldl Place.next p = p
  | [], _, _ => rfl
  | c :: s, hn, hs => by
    obtain ⟨hc, hn⟩ := not_or.mp (mt List.mem_cons.mpr hn)
    obtain ⟨hblank, hs⟩ := List.forall_mem_cons.mp hs
    rw [List.foldl_cons, next_blank hplain (Ne.symm hc) hblank]
    exact run_blank hplain hn hs

theorem run_plain : ∀ {s : Text} {p : Place}, p.plain → p.calm s → (s.foldl Place.next p).plain
  | [], _, hplain, _ => hplain
  | c :: s, p, _, hcalm => run_plain (p := p.next c) (s := s) (calm_cons.mp hcalm).1 (calm_cons.mp hcalm).2

/-- The blanks around a text do not matter. -/
theorem calm_trim (hplain : p.plain) (hn : '\n' ∉ s) (hcalm : p.calm s) :
    p.calm (trim s) ∧ (trim s).foldl Place.next p = s.foldl Place.next p := by
  obtain ⟨lead, trail, heq, hlead, htrail⟩ := exists_trim s
  rw [heq, List.mem_append, List.mem_append, not_or, not_or] at hn
  rw [heq, calm_append, run_blank hplain hn.1 hlead, calm_append] at hcalm
  refine ⟨hcalm.2.1, ?_⟩
  conv_rhs => rw [heq, List.foldl_append, run_blank hplain hn.1 hlead, List.foldl_append,
    run_blank (run_plain hplain hcalm.2.1) hn.2.2 htrail]

theorem trim_subset (s : Text) : trim s ⊆ s :=
  fun _ hc => (List.dropWhile_suffix _).subset ((List.rdropWhile_prefix _ _).subset hc)

/-! The entries of a regular text. -/

/-- In front of an equals sign nothing opens. -/
theorem run_name : ∀ {name : Text}, (Place.bare none).calm name → '=' ∉ name → '\n' ∉ name →
    name.foldl Place.next (.bare none) = .bare none
  | [], _, _, _ => rfl
  | c :: name, hcalm, heq, hn => by
    obtain ⟨hc, hn⟩ := not_or.mp (mt List.mem_cons.mpr hn)
    obtain ⟨he, heq⟩ := not_or.mp (mt List.mem_cons.mpr heq)
    obtain ⟨hplain, hcalm⟩ := calm_cons.mp hcalm
    have hnext : (Place.bare none).next c = .bare none := by
      obtain ⟨hlit, hhash, -⟩ := next_bare (Ne.symm hc) hplain
      have hquote : c ≠ '"' := by
        rintro rfl
        cases hplain
      simp [Place.next, hquote, hlit, hhash, Ne.symm he, Ne.symm hc]
    rw [List.foldl_cons, hnext]
    rw [hnext] at hcalm
    exact run_name hcalm heq hn

/-- A name that the parser can follow has no quotes around it. -/
theorem nameIn_calm (hn : '\n' ∉ s) (hcalm : (Place.bare none).calm s) : nameIn s = trim s := by
  have htrim := (calm_trim rfl hn hcalm).1
  rw [nameIn]
  cases hs : trim s with
  | nil => rfl
  | cons c rest =>
    rw [hs] at htrim
    have hplain := (calm_cons.mp htrim).1
    unfold quotedIn
    split
    · next heq =>
      obtain ⟨rfl, -⟩ := List.cons.inj heq
      cases hplain
    · next heq =>
      obtain ⟨rfl, -⟩ := List.cons.inj heq
      cases hplain
    · rfl

/-- A value in places the parser can follow, which closes its quotes and brackets. -/
structure RegularValue (v : Text) : Prop where
  calm : (Place.bare (some 0)).calm v
  closed : (v.foldl Place.next (.bare (some 0))).closed
  oneLine : '\n' ∉ v

/-- What is left of a regular line. -/
structure RegularStatement (s : Text) : Prop where
  calm : (Place.bare none).calm s
  closed : (s.foldl Place.next (.bare none)).closed
  oneLine : '\n' ∉ s

theorem RegularLine.statement (hn : '\n' ∉ line) (h : RegularLine line) :
    RegularStatement (trim (Toml.stripComment line)) := by
  have hstrip : logical (.bare none) line = Toml.stripComment line := (logical_line hn rfl h.1 h.2).2
  obtain ⟨hcalm, hclosed⟩ := h
  rw [hstrip] at hcalm hclosed
  have hn' : '\n' ∉ Toml.stripComment line := fun hmem => hn (stripComment_subset hmem)
  obtain ⟨htrim, hrun⟩ := calm_trim rfl hn' hcalm
  exact ⟨htrim, hrun ▸ hclosed, fun hmem => hn' (trim_subset _ hmem)⟩

theorem RegularStatement.prefix_calm {a : Text} (h : RegularStatement s) (ha : a <+: s) :
    (Place.bare none).calm a ∧ '\n' ∉ a := by
  obtain ⟨b, hb⟩ := ha
  have hcalm := h.calm
  rw [← hb, calm_append] at hcalm
  exact ⟨hcalm.1, fun hmem => h.oneLine (hb ▸ List.mem_append_left b hmem)⟩

/-- The parser finds the same section. -/
theorem RegularStatement.sectionIn (h : RegularStatement s) :
    sectionIn s = if Toml.isHeader s then some (Toml.headerName s) else none := by
  rw [Ironbind.sectionIn]
  by_cases hheader : s.head? = some '[' ∧ s.getLast? = some ']'
  · have hinner : nameIn (s.drop 1).dropLast = Toml.headerName s := by
      obtain ⟨rest, rfl⟩ := List.head?_eq_some_iff.mp hheader.1
      have hcalm := (calm_cons.mp h.calm).2
      refine nameIn_calm (fun hmem => h.oneLine (List.mem_cons_of_mem _ (List.dropLast_subset rest hmem))) ?_
      obtain ⟨b, hb⟩ := List.dropLast_prefix rest
      rw [← hb, calm_append] at hcalm
      exact hcalm.1
    rw [if_pos hheader, hinner, if_pos (by simp [Toml.isHeader, hheader.1, hheader.2])]
  · rw [if_neg hheader, if_neg (by simpa [Toml.isHeader] using hheader)]

/-- The parser finds the same key and value. -/
theorem RegularStatement.entryIn (h : RegularStatement s) (heq : '=' ∈ s) (sec : Option Text) :
    entryIn sec s = some ⟨sec, Toml.keyText s, Toml.valueText s⟩ ∧ RegularValue (Toml.valueText s) := by
  obtain ⟨hname, hnameLine⟩ := h.prefix_calm (List.takeWhile_prefix (· != '='))
  refine ⟨by rw [Ironbind.entryIn, if_pos heq, nameIn_calm hnameLine hname]; rfl, ?_⟩
  -- the equals sign, and what stands behind it
  obtain ⟨after, hafter⟩ : ∃ after, s.dropWhile (· != '=') = '=' :: after := by
    cases hdrop : s.dropWhile (· != '=') with
    | nil => exact absurd (List.dropWhile_eq_nil_iff.mp hdrop '=' heq) (by decide)
    | cons c after =>
      have hc := List.head?_dropWhile_not (· != '=') s
      rw [hdrop] at hc
      exact ⟨after, by rw [show c = '=' by simpa using hc]⟩
  have hs : s = s.takeWhile (· != '=') ++ '=' :: after := by rw [← hafter, List.takeWhile_append_dropWhile]
  have hnot : '=' ∉ s.takeWhile (· != '=') := fun hmem => absurd (List.mem_takeWhile_imp hmem) (by decide)
  have hrun := run_name hname hnot hnameLine
  have hcalm := h.calm
  have hclosed := h.closed
  rw [hs, calm_append, hrun, calm_cons] at hcalm
  rw [hs, List.foldl_append, hrun, List.foldl_cons] at hclosed
  have hn : '\n' ∉ after := fun hmem => h.oneLine (hs ▸ List.mem_append_right _ (List.mem_cons_of_mem _ hmem))
  obtain ⟨htrim, hsame⟩ := calm_trim (p := .bare (some 0)) rfl hn hcalm.2.2
  rw [Toml.valueText, hafter, List.drop_one, List.tail_cons]
  exact ⟨htrim, hsame ▸ hclosed, fun hmem => hn (trim_subset _ hmem)⟩

end

/-! The parsed file. -/

/-- What the parser makes of a value's text. -/
def valueOf (text : Text) : Option TomlVal := (Toml.parseValue text).toOption.join

/-- An entry takes effect when its text is a value. -/
def enter (t : Toml) (e : ConfigEntry) : Toml := (valueOf e.value).elim t (t.insert e.sec e.key)

def Toml.empty : Toml := ⟨fun _ => none, fun _ => none⟩

theorem parseValue_ok {s : Text} (h : s ≠ ['"']) : Toml.parseValue s = .ok (valueOf s) := by
  have hlength : ¬ (s.head? = some '"' ∧ s.length < 2) := by
    rintro ⟨hhead, hlen⟩
    rcases s with _ | ⟨c, _ | ⟨d, rest⟩⟩
    · cases hhead
    · exact h (congrArg (· :: []) (Option.some.inj hhead))
    · simp at hlen
  cases hv : Toml.parseValue s with
  | ok v => rw [valueOf, hv]; rfl
  | error e =>
    -- the quotes around nothing are the only text that is refused
    unfold Toml.parseValue at hv
    split at hv
    · next hquotes =>
      split at hv
      · next hlen => exact absurd ⟨hquotes.1, hlen⟩ hlength
      · cases hv
    · repeat (first | cases hv | split at hv)

theorem RegularValue.ne_quote {v : Text} (h : RegularValue v) : v ≠ ['"'] := by
  rintro rfl
  exact absurd h.closed (by decide)

/-- The parser's step on a regular line. -/
theorem parseLine_regular {line : Text} (hn : '\n' ∉ line) (h : RegularLine line) (t : Toml) (sec : Option Text) :
    Toml.parseLine (t, sec) line = .ok
      (match sectionIn (trim (Toml.stripComment line)) with
      | some name => (t, some name)
      | none => ((entryIn sec (trim (Toml.stripComment line))).elim t (enter t), sec)) := by
  have hstatement := h.statement hn
  set s := trim (Toml.stripComment line) with hs
  rw [hstatement.sectionIn]
  simp only [Toml.parseLine, ← hs]
  by_cases hheader : Toml.isHeader s
  · have hne : s ≠ [] := by
      intro hnil
      rw [hnil] at hheader
      cases hheader
    simp only [if_neg hne, if_pos hheader]
  · by_cases heq : '=' ∈ s
    · obtain ⟨hentry, hvalue⟩ := hstatement.entryIn heq sec
      simp only [if_neg (List.ne_nil_of_mem heq), if_neg hheader, Toml.parseKv, if_pos heq, parseValue_ok hvalue.ne_quote,
        hentry, Option.elim_some, enter]
      cases valueOf (Toml.valueText s) <;> rfl
    · simp only [if_neg hheader, Toml.parseKv, if_neg heq, entryIn, Option.elim_none]
      split <;> rfl

/-- The run over regular lines enters their entries, one after the other. -/
theorem parseLines_regular : ∀ {ls : List Text}, (∀ line ∈ ls, '\n' ∉ line ∧ RegularLine line) →
    ∀ (t : Toml) (sec : Option Text), ∃ after, ls.foldlM Toml.parseLine (t, sec) =
      .ok ((entriesFrom sec (ls.map Toml.stripComment)).foldl enter t, after)
  | [], _, t, sec => ⟨sec, rfl⟩
  | line :: ls, hls, t, sec => by
    obtain ⟨⟨hn, hregular⟩, hrest⟩ := List.forall_mem_cons.mp hls
    rw [List.foldlM_cons, parseLine_regular hn hregular, List.map_cons, entriesFrom]
    cases sectionIn (trim (Toml.stripComment line)) with
    | some name => exact parseLines_regular hrest t (some name)
    | none =>
      rw [List.foldl_append]
      cases entryIn sec (trim (Toml.stripComment line)) with
      | none => exact parseLines_regular hrest t sec
      | some e => exact parseLines_regular hrest (enter t e) sec

/-- Every entry of regular lines has a value that the parser can follow. -/
theorem entriesFrom_regular : ∀ {ls : List Text}, (∀ line ∈ ls, '\n' ∉ line ∧ RegularLine line) →
    ∀ {sec : Option Text}, ∀ e ∈ entriesFrom sec (ls.map Toml.stripComment), RegularValue e.value
  | [], _, _, e, he => by simp [entriesFrom] at he
  | line :: ls, hls, sec, e, he => by
    obtain ⟨⟨hn, hregular⟩, hrest⟩ := List.forall_mem_cons.mp hls
    rw [List.map_cons, entriesFrom] at he
    cases hsec : sectionIn (trim (Toml.stripComment line)) with
    | some name =>
      rw [hsec] at he
      exact entriesFrom_regular hrest e he
    | none =>
      rw [hsec] at he
      rcases List.mem_append.mp he with hentry | hmem
      · rw [Option.mem_toList, entryIn] at hentry
        by_cases heq : '=' ∈ trim (Toml.stripComment line)
        · rw [if_pos heq] at hentry
          obtain rfl := Option.some.inj hentry
          exact ((hregular.statement hn).entryIn heq sec).2
        · rw [if_neg heq] at hentry
          cases hentry
      · exact entriesFrom_regular hrest e hmem

/-! The lines that are parsed are the lines of the text: what `lines` takes off them does not matter. -/

theorem stripComment_concat (s : Text) (c : Char) :
    ∀ inStr, Toml.stripCommentLoop inStr (s ++ [c]) = Toml.stripCommentLoop inStr s ∨
    Toml.stripCommentLoop inStr (s ++ [c]) = Toml.stripCommentLoop inStr s ++ [c] := by
  induction s with
  | nil =>
    intro inStr
    by_cases hcut : c = '#' ∧ !inStr
    · exact .inl (if_pos hcut)
    · exact .inr (if_neg hcut)
  | cons d s ih =>
    intro inStr
    rw [List.cons_append, Toml.stripCommentLoop, Toml.stripCommentLoop]
    split
    · exact .inl rfl
    · rcases ih (toggles inStr d) with h | h
      · exact .inl (by rw [h])
      · exact .inr (by rw [h, List.cons_append])

theorem trim_concat {c : Char} (hc : isWhitespace c) (s : Text) : trim (s ++ [c]) = trim s := by
  rw [trim, List.dropWhile_append]
  cases hs : s.dropWhile isWhitespace with
  | nil =>
    rw [trim, hs]
    simp [hc]
  | cons d rest =>
    rw [trim, hs]
    exact List.rdropWhile_concat_pos _ _ _ hc

theorem parseLine_stripCr (st : Toml × Option Text) (line : Text) :
    Toml.parseLine st (stripCr line) = Toml.parseLine st line := by
  have hsame : trim (Toml.stripComment (stripCr line)) = trim (Toml.stripComment line) := by
    rw [stripCr]
    split
    · next hlast =>
      obtain ⟨front, rfl⟩ := List.getLast?_eq_some_iff.mp hlast
      rw [List.dropLast_concat, Toml.stripComment, Toml.stripComment]
      rcases stripComment_concat front '\r' false with h | h
      · rw [h]
      · rw [h, trim_concat (by decide)]
    · rfl
  simp only [Toml.parseLine, hsame]

theorem foldlM_lines (content : Text) (st : Toml × Option Text) :
    (lines content).foldlM Toml.parseLine st = (content.splitOn '\n').foldlM Toml.parseLine st := by
  have hne := List.splitOn_ne_nil '\n' content
  have hlast : ∀ (st : Toml × Option Text) (line : Text), ([line].filter (· ≠ [])).foldlM Toml.parseLine st =
      [line].foldlM Toml.parseLine st := by
    intro st line
    by_cases hline : line = []
    · rw [hline]
      rfl
    · rw [List.filter_cons_of_pos (by simpa using hline), List.filter_nil]
  conv_rhs => rw [← List.dropLast_append_getLast hne]
  rw [lines, List.getLast?_eq_some_getLast hne, Option.toList_some, List.foldlM_append, List.foldlM_append,
    List.foldlM_map]
  simp only [parseLine_stripCr]
  congr 1
  funext st
  exact hlast st _

/-- **A regular text** is parsed into its entries, and the parser can follow every value. -/
theorem parseStr_regular {content : Text} (h : RegularText content) :
    Toml.parseStr content = .ok ((configEntries content).foldl enter Toml.empty) ∧
      ∀ e ∈ configEntries content, RegularValue e.value := by
  have hlines : ∀ line ∈ content.splitOn '\n', '\n' ∉ line ∧ RegularLine line :=
    fun line hline => ⟨not_mem_of_mem_splitOn hline, h line hline⟩
  rw [configEntries, statements_regular h]
  refine ⟨?_, entriesFrom_regular hlines⟩
  obtain ⟨after, hrun⟩ := parseLines_regular hlines Toml.empty none
  rw [Toml.parseStr, foldlM_lines, show (⟨fun _ => none, fun _ => none⟩ : Toml) = Toml.empty from rfl, hrun]
  rfl

/-! Numbers. -/

theorem foldl_digits (s : Text) : s.foldl (fun n c => n * 10 + (c.toNat - '0'.toNat)) 0 =
    Nat.ofDigits 10 (s.reverse.map fun c => c.toNat - '0'.toNat) := by
  induction s using List.reverseRecOn with
  | nil => rfl
  | append_singleton s c ih =>
    rw [List.foldl_append, List.foldl_cons, List.foldl_nil, ih, List.reverse_append, List.reverse_singleton,
      List.singleton_append, List.map_cons, Nat.ofDigits_cons]
    omega

theorem parseUnsigned_eq (max : Nat) (s : Text) :
    parseUnsigned max s = (digitsIn (unsignedDigits s)).filter (· ≤ max) := by
  have hif : parseUnsigned max s = if unsignedDigits s = [] ∨ !(unsignedDigits s).all Char.isDigit then none else
      let n := (unsignedDigits s).foldl (fun n c => n * 10 + (c.toNat - '0'.toNat)) 0
      if n ≤ max then some n else none := rfl
  rw [hif, foldl_digits, digitsIn]
  by_cases hbad : unsignedDigits s = [] ∨ !(unsignedDigits s).all Char.isDigit
  · rw [if_pos hbad, if_neg]
    · rfl
    · intro hgood
      rcases hbad with hnil | hnot
      · exact hgood.1 hnil
      · rw [hgood.2] at hnot
        cases hnot
  · rw [not_or] at hbad
    have hgood : unsignedDigits s ≠ [] ∧ (unsignedDigits s).all Char.isDigit := ⟨hbad.1, by simpa using hbad.2⟩
    rw [if_neg (not_or.mpr hbad), if_pos hgood, Option.filter_some]
    simp only [decide_eq_true_eq]

theorem digitsIn_digits {s : Text} {n : Nat} (h : digitsIn s = some n) : s ≠ [] ∧ s.all Char.isDigit := by
  unfold digitsIn at h
  split at h
  · assumption
  · cases h

/-- The parser's integers are those of the text. -/
theorem parseI64_eq (s : Text) : Toml.parseI64 s = integerIn s := by
  rw [Toml.parseI64]
  by_cases hminus : s.head? = some '-'
  · obtain ⟨rest, rfl⟩ := List.head?_eq_some_iff.mp hminus
    have hinteger : integerIn ('-' :: rest) =
        ((digitsIn rest).map fun n : Nat => -(n : Int)).filter fun n => -2 ^ 63 ≤ n ∧ n < 2 ^ 63 := rfl
    rw [if_pos hminus, hinteger, List.drop_one, List.tail_cons]
    split
    · next hbad =>
      rw [digitsIn, if_neg]
      · rfl
      · intro hgood
        rcases hbad with hnil | hnot
        · exact hgood.1 hnil
        · rw [hgood.2] at hnot
          cases hnot
    · next hgood =>
      -- digits have no sign of their own
      have hsame : unsignedDigits rest = rest := by
        cases rest with
        | nil => rfl
        | cons c rest =>
          have hc : c.isDigit := by
            have := (not_or.mp hgood).2
            simp at this
            exact this.1
          unfold unsignedDigits
          split
          · next heq =>
            obtain ⟨rfl, -⟩ := List.cons.inj heq
            cases hc
          · rfl
      rw [parseUnsigned_eq, hsame]
      cases digitsIn rest with
      | none => rfl
      | some n =>
        rw [Option.filter_some, Option.map_some, Option.filter_some]
        by_cases hn : n ≤ 2 ^ 63
        · rw [if_pos (by simpa using hn), if_pos (by simp; omega)]
          rfl
        · rw [if_neg (by simpa using hn), if_neg (by simp; omega)]
          rfl
  · have hinteger : integerIn s =
        ((digitsIn (unsignedDigits s)).map Int.ofNat).filter fun n => -2 ^ 63 ≤ n ∧ n < 2 ^ 63 := by
      unfold integerIn unsignedDigits
      split
      · exact absurd rfl hminus
      · rfl
      · next hplus =>
        split
        · exact absurd rfl (hplus _)
        · rfl
    rw [if_neg hminus, hinteger, parseUnsigned_eq]
    cases digitsIn (unsignedDigits s) with
    | none => rfl
    | some n =>
      rw [Option.filter_some, Option.map_some, Option.filter_some]
      by_cases hn : n ≤ 2 ^ 63 - 1
      · rw [if_pos (by simpa using hn), if_pos (by simp; omega)]
        rfl
      · rw [if_neg (by simpa using hn), if_neg (by simp; omega)]
        rfl

/-- A number begins with a digit or a sign. -/
theorem head?_of_integerIn {s : Text} {n : Int} (h : integerIn s = some n) :
    ∃ c, s.head? = some c ∧ (c.isDigit ∨ c = '+' ∨ c = '-') := by
  obtain ⟨hsome, -⟩ := Option.filter_eq_some_iff.mp h
  split at hsome
  · exact ⟨'-', rfl, .inr (.inr rfl)⟩
  · exact ⟨'+', rfl, .inr (.inl rfl)⟩
  · obtain ⟨m, hm, -⟩ := Option.map_eq_some_iff.mp hsome
    obtain ⟨hne, hall⟩ := digitsIn_digits hm
    obtain ⟨c, rest, rfl⟩ := List.exists_cons_of_ne_nil hne
    exact ⟨c, rfl, .inl (List.all_eq_true.mp hall c List.mem_cons_self)⟩

/-! Values that the parser can follow. -/

section
variable {depth : Option Nat} {v s : Text}

theorem unescape_cons {c : Char} {rest : Text} (hquote : c ≠ '"') (hslash : c ≠ '\\') :
    unescape (c :: rest) = (unescape rest).map (c :: ·) := by
  rw [unescape]
  · exact hquote
  · rintro d tail rfl
    exact absurd rfl hslash

/-- Between double quotes the characters stand for themselves. -/
theorem unescape_calm (hn : '\n' ∉ v) (hcalm : (Place.quoted depth).calm v) (h : unescape v = some s) :
    v = s ++ ['"'] ∧ '"' ∉ s := by
  induction v generalizing s with
  | nil => cases h
  | cons c v ih =>
    obtain ⟨hc, hn⟩ := not_or.mp (mt List.mem_cons.mpr hn)
    obtain ⟨hplain, hcalm⟩ := calm_cons.mp hcalm
    obtain ⟨hslash, hnext⟩ := next_quoted (Ne.symm hc) hplain
    rw [hnext] at hcalm
    by_cases hquote : c = '"'
    · subst hquote
      rw [unescape] at h
      split at h
      · next hnil =>
        obtain rfl := Option.some.inj h
        exact ⟨by rw [hnil]; rfl, List.not_mem_nil⟩
      · cases h
    · rw [if_neg hquote] at hcalm
      rw [unescape_cons hquote hslash] at h
      obtain ⟨inner, hinner, rfl⟩ := Option.map_eq_some_iff.mp h
      obtain ⟨rfl, hmem⟩ := ih hn hcalm hinner
      exact ⟨rfl, fun hin => (List.mem_cons.mp hin).elim (fun e => hquote e.symm) hmem⟩

/-- Its quotes are double ones. -/
theorem quotedIn_calm (hn : '\n' ∉ v) (hcalm : (Place.bare depth).calm v) (h : quotedIn v = some s) :
    v = '"' :: (s ++ ['"']) ∧ '"' ∉ s := by
  unfold quotedIn at h
  split at h
  · next rest =>
    obtain ⟨heq, hmem⟩ := unescape_calm (fun hin => hn (List.mem_cons_of_mem _ hin)) (calm_cons.mp hcalm).2 h
    exact ⟨by rw [heq], hmem⟩
  · cases (calm_cons.mp hcalm).1
  · cases h

theorem valueOf_quoted (s : Text) : valueOf ('"' :: (s ++ ['"'])) = some (.Str s) := by
  have hlast : ('"' :: (s ++ ['"'])).getLast? = some '"' := by rw [← List.cons_append, List.getLast?_concat]
  have hlength : ¬ ('"' :: (s ++ ['"'])).length < 2 := by simp
  rw [valueOf, Toml.parseValue, if_pos ⟨rfl, hlast⟩, if_neg hlength, List.drop_one, List.tail_cons, List.dropLast_concat]
  rfl

/-- A value that does not begin with a quote or a bracket, nor is a flag, is a number or what it is. -/
theorem valueOf_plain (hquote : v.head? ≠ some '"') (hflag : flags.lookup v = none) (hbracket : v.head? ≠ some '[')
    (hne : v ≠ []) : valueOf v = some (((integerIn v).map .Int).getD (.Str v)) := by
  have htrue : v ≠ "true".toList := by
    rintro rfl
    exact absurd hflag (by decide)
  have hfalse : v ≠ "false".toList := by
    rintro rfl
    exact absurd hflag (by decide)
  rw [valueOf, Toml.parseValue, if_neg (fun h => hquote h.1), if_neg htrue, if_neg hfalse,
    if_neg (fun h => hbracket h.1), parseI64_eq, if_neg hne]
  cases integerIn v <;> rfl

theorem valueOf_integer {n : Int} (h : integerIn v = some n) : valueOf v = some (.Int n) := by
  obtain ⟨c, hhead, hc⟩ := head?_of_integerIn h
  have hnot : ∀ d : Char, d.isDigit = false → d ≠ '+' → d ≠ '-' → v.head? ≠ some d := by
    intro d hdigit hplus hminus heq
    obtain rfl := Option.some.inj (heq.symm.trans hhead)
    rcases hc with hc | hc | hc
    · rw [hdigit] at hc
      cases hc
    · exact hplus hc
    · exact hminus hc
  have hflag : flags.lookup v = none := by
    by_cases htrue : v = "true".toList
    · exact absurd (by rw [htrue]; rfl) (hnot 't' (by decide) (by decide) (by decide))
    · by_cases hfalse : v = "false".toList
      · exact absurd (by rw [hfalse]; rfl) (hnot 'f' (by decide) (by decide) (by decide))
      · rw [flags, List.lookup_cons, beq_false_of_ne htrue, List.lookup_cons, beq_false_of_ne hfalse]
        rfl
  have hne : v ≠ [] := by
    rintro rfl
    cases hhead
  rw [valueOf_plain (hnot '"' (by decide) (by decide) (by decide)) hflag
    (hnot '[' (by decide) (by decide) (by decide)) hne, h]
  rfl

theorem valueOf_flag {b : Bool} (h : flags.lookup v = some b) : valueOf v = some (.Bool b) := by
  rw [flags, List.lookup_cons] at h
  split at h
  · next htrue =>
    obtain rfl := Option.some.inj h
    rw [beq_iff_eq.mp htrue]
    rfl
  · rw [List.lookup_cons] at h
    split at h
    · next hfalse =>
      obtain rfl := Option.some.inj h
      rw [beq_iff_eq.mp hfalse]
      rfl
    · cases h

/-- The parser reads the text that a value is. -/
theorem valueOf_textIn (hn : '\n' ∉ v) (hcalm : (Place.bare depth).calm v) (h : textIn v = some s) :
    valueOf v = some (.Str s) := by
  rcases Option.or_eq_some_iff.mp h with hquoted | ⟨-, hbare⟩
  · rw [(quotedIn_calm hn hcalm hquoted).1, valueOf_quoted]
  · split at hbare
    · next hb =>
      obtain rfl := Option.some.inj hbare
      obtain ⟨hne, hquote, -, hbracket, hinteger, hflag⟩ := hb
      rw [valueOf_plain (fun hhead => hquote (List.mem_of_head? hhead)) hflag hbracket hne, hinteger]
      rfl
    · cases hbare

theorem valueOf_numberIn {n : Int} (hn : '\n' ∉ v) (hcalm : (Place.bare depth).calm v) (h : numberIn v = some n) :
    (valueOf v).bind Toml.intOf = some n := by
  rw [numberIn] at h
  cases hquoted : quotedIn v with
  | some s =>
    rw [hquoted, Option.getD_some] at h
    rw [(quotedIn_calm hn hcalm hquoted).1, valueOf_quoted, Option.bind_some, Toml.intOf, parseI64_eq, h]
  | none =>
    rw [hquoted, Option.getD_none] at h
    rw [valueOf_integer h]
    rfl

theorem valueOf_flagIn {b : Bool} (hn : '\n' ∉ v) (hcalm : (Place.bare depth).calm v) (h : flagIn v = some b) :
    (valueOf v).bind Toml.boolOf = some b := by
  rw [flagIn] at h
  cases hquoted : quotedIn v with
  | some s =>
    rw [hquoted, Option.getD_some] at h
    rw [(quotedIn_calm hn hcalm hquoted).1, valueOf_quoted, Option.bind_some, Toml.boolOf, ← h]
    by_cases htrue : s = "true".toList
    · rw [if_pos htrue, htrue]
      rfl
    · by_cases hfalse : s = "false".toList
      · rw [if_neg htrue, if_pos hfalse, hfalse]
        rfl
      · rw [if_neg htrue, if_neg hfalse, flags, List.lookup_cons, beq_false_of_ne htrue, List.lookup_cons,
          beq_false_of_ne hfalse]
        rfl
  | none =>
    rw [hquoted, Option.getD_none] at h
    rw [valueOf_flag h]
    rfl

/-! Lists. -/

/-- A list the parser can follow: it cuts items in brackets at every comma, and drops those that are empty. -/
def Listing.Plain : Listing → Prop
  | one _ => True
  | many items => ∀ item ∈ items, item ≠ [] ∧ ',' ∉ item

instance : DecidablePred Listing.Plain
  | .one _ => .isTrue trivial
  | .many items => inferInstanceAs (Decidable (∀ item ∈ items, item ≠ [] ∧ ',' ∉ item))

theorem trimQuotes_eq (h : '"' ∉ s) : Toml.trimQuotes s = s ∧ Toml.trimQuotes ('"' :: (s ++ ['"'])) = s := by
  have hkept : ∀ c ∈ s, (c == '"') = false := fun c hc => beq_false_of_ne fun e => h (e ▸ hc)
  have hdrop : ∀ t : Text, s ≠ [] → (s ++ t).dropWhile (· == '"') = s ++ t := by
    intro t hne
    obtain ⟨c, rest, rfl⟩ := List.exists_cons_of_ne_nil hne
    rw [List.cons_append, List.dropWhile_cons, hkept c List.mem_cons_self]
    rfl
  have hrdrop : s.rdropWhile (· == '"') = s :=
    List.rdropWhile_eq_self_iff.mpr fun hne => by simp [hkept _ (List.getLast_mem hne)]
  by_cases hne : s = []
  · subst hne
    exact ⟨rfl, rfl⟩
  · have hself := hdrop [] hne
    rw [List.append_nil] at hself
    refine ⟨by rw [Toml.trimQuotes, hself, hrdrop], ?_⟩
    rw [Toml.trimQuotes, List.dropWhile_cons, if_pos (by decide), hdrop _ hne,
      List.rdropWhile_concat_pos _ _ _ (by decide), hrdrop]

/-- An item the parser can follow is its text between quotes that may stand around it. -/
theorem trimQuotes_textIn (hn : '\n' ∉ v) (hcalm : (Place.bare depth).calm v) (h : textIn v = some s) :
    Toml.trimQuotes v = s ∧ (',' ∉ s → ',' ∉ v) := by
  rcases Option.or_eq_some_iff.mp h with hquoted | ⟨-, hbare⟩
  · obtain ⟨rfl, hmem⟩ := quotedIn_calm hn hcalm hquoted
    exact ⟨(trimQuotes_eq hmem).2, fun hcomma => by simpa using hcomma⟩
  · split at hbare
    · next hb =>
      obtain rfl := Option.some.inj hbare
      exact ⟨(trimQuotes_eq hb.2.1).1, id⟩
    · cases hbare

theorem cutAt_ne_nil : ∀ {p : Place} {body : Text}, cutAt p body ≠ []
  | _, [] => List.cons_ne_nil _ _
  | p, c :: body => by
    rw [cutAt]
    split
    · exact List.cons_ne_nil _ _
    · rw [Ne, List.modifyHead_eq_nil_iff]
      exact cutAt_ne_nil

/-- Nothing is lost in cutting but the commas. -/
theorem intercalate_cutAt : ∀ {p : Place} {body : Text}, [','].intercalate (cutAt p body) = body
  | _, [] => rfl
  | p, c :: body => by
    have ih := @intercalate_cutAt (p.next c) body
    rw [cutAt]
    split
    · next hcomma => rw [List.intercalate_cons_of_ne_nil cutAt_ne_nil, ih, hcomma.1]; rfl
    · cases hcut : cutAt (p.next c) body with
      | nil => exact absurd hcut cutAt_ne_nil
      | cons first rest =>
        rw [hcut] at ih
        conv_rhs => rw [← ih]
        cases rest with
        | nil => simp
        | cons next rest => simp [List.intercalate_cons_cons]

theorem cutAt_subset : ∀ {p : Place} {body : Text}, ∀ piece ∈ cutAt p body, piece ⊆ body
  | _, [], piece, h => by rw [List.mem_singleton.mp h]; exact List.Subset.refl _
  | p, c :: body, piece, h => by
    rw [cutAt] at h
    split at h
    · rcases List.mem_cons.mp h with rfl | h
      · exact List.nil_subset _
      · exact List.subset_cons_of_subset c (cutAt_subset piece h)
    · cases hcut : cutAt (p.next c) body with
      | nil => exact absurd hcut cutAt_ne_nil
      | cons first rest =>
        have ih := @cutAt_subset (p.next c) body
        rw [hcut] at h ih
        rcases List.mem_cons.mp h with rfl | h
        · exact List.cons_subset_cons c (ih first List.mem_cons_self)
        · exact List.subset_cons_of_subset c (ih piece (List.mem_cons_of_mem _ h))

/-- Every piece begins outside quotes, and stays in plain places. -/
theorem calm_cutAt : ∀ {p : Place} {body : Text}, p.calm body → ∃ first rest, cutAt p body = first :: rest ∧ p.calm first ∧
    ∀ piece ∈ rest, ∃ depth, (Place.bare depth).calm piece
  | _, [], _ => ⟨[], [], rfl, rfl, by simp⟩
  | p, c :: body, hcalm => by
    obtain ⟨hplain, hcalm⟩ := calm_cons.mp hcalm
    obtain ⟨first, rest, hcut, hfirst, hrest⟩ := calm_cutAt hcalm
    rw [cutAt, hcut]
    split
    · next hcomma =>
      refine ⟨[], first :: rest, rfl, rfl, List.forall_mem_cons.mpr ⟨?_, hrest⟩⟩
      match p, hcomma with
      | .bare depth, hcomma => exact ⟨depth, by rw [hcomma.1] at hfirst; exact hfirst⟩
    · exact ⟨c :: first, rest, rfl, calm_cons.mpr ⟨hplain, hfirst⟩, hrest⟩

/-- A piece that is trimmed, in places the parser can follow. -/
def CalmPiece (piece : Text) : Prop := '\n' ∉ piece ∧ ∃ depth, (Place.bare depth).calm piece

theorem mapM_textIn : ∀ {pieces items : List Text}, (∀ piece ∈ pieces, CalmPiece piece) → pieces.mapM textIn = some items →
    (∀ item ∈ items, ',' ∉ item) → pieces.map Toml.trimQuotes = items ∧ ∀ piece ∈ pieces, ',' ∉ piece
  | [], items, _, h, _ => by
    obtain rfl : [] = items := Option.some.inj h
    exact ⟨rfl, by simp⟩
  | piece :: pieces, items, hcalm, h, hcomma => by
    obtain ⟨⟨hn, depth, hpiece⟩, hrest⟩ := List.forall_mem_cons.mp hcalm
    rw [List.mapM_cons] at h
    obtain ⟨item, hitem, h⟩ := Option.bind_eq_some_iff.mp h
    obtain ⟨more, hmore, h⟩ := Option.bind_eq_some_iff.mp h
    obtain rfl : item :: more = items := Option.some.inj h
    obtain ⟨hfirst, hcommas⟩ := List.forall_mem_cons.mp hcomma
    obtain ⟨hmap, hpieces⟩ := mapM_textIn hrest hmore hcommas
    obtain ⟨htrim, hnone⟩ := trimQuotes_textIn hn hpiece hitem
    exact ⟨by rw [List.map_cons, htrim, hmap], List.forall_mem_cons.mpr ⟨hnone hfirst, hpieces⟩⟩

/-- What the parser makes of the items in brackets. -/
def cutItems (body : Text) : List Text := ((body.splitOn ',').map fun p => Toml.trimQuotes (trim p)).filter (· ≠ [])

theorem valueOf_brackets (hhead : v.head? = some '[') (hlast : v.getLast? = some ']') :
    valueOf v = some (.Array (cutItems (v.drop 1).dropLast)) := by
  obtain ⟨rest, rfl⟩ := List.head?_eq_some_iff.mp hhead
  rw [valueOf, Toml.parseValue, if_neg (by simp), if_neg (by simp), if_neg (by simp), if_pos ⟨hhead, hlast⟩]
  rfl

theorem cutItems_plain {body item : Text} (h : item ∈ cutItems body) : item ≠ [] ∧ ',' ∉ item := by
  obtain ⟨hmem, hne⟩ := List.mem_filter.mp h
  obtain ⟨piece, hpiece, rfl⟩ := List.mem_map.mp hmem
  refine ⟨by simpa using hne, fun hcomma => not_mem_of_mem_splitOn hpiece (trim_subset _ ?_)⟩
  exact (List.dropWhile_suffix _).subset ((List.rdropWhile_prefix _ _).subset hcomma)

/-- Items without commas are found, whatever quotes they stand in. -/
theorem cutItems_eq {body : Text} {items : List Text} (hn : '\n' ∉ body) (hcalm : (Place.bare (some 1)).calm body)
    (h : itemsIn body = some items) (hplain : (Listing.many items).Plain) : cutItems body = items := by
  set pieces := cutAt (.bare (some 1)) body with hpieces
  have hjoin : [','].intercalate pieces = body := intercalate_cutAt
  have hcalmPieces : ∀ piece ∈ pieces.map trim, CalmPiece piece := by
    intro piece hmem
    obtain ⟨raw, hraw, rfl⟩ := List.mem_map.mp hmem
    have hraws : '\n' ∉ raw := fun hin => hn (cutAt_subset raw hraw hin)
    obtain ⟨first, rest, hcut, hfirst, hrest⟩ := calm_cutAt hcalm
    have hdepth : ∃ depth, (Place.bare depth).calm raw := by
      rw [hpieces, hcut] at hraw
      rcases List.mem_cons.mp hraw with rfl | hmore
      · exact ⟨_, hfirst⟩
      · exact hrest raw hmore
    obtain ⟨depth, hdepth⟩ := hdepth
    exact ⟨fun hin => hraws (trim_subset _ hin), depth, (calm_trim rfl hraws hdepth).1⟩
  -- the pieces that are items, and a blank one that may stand behind them
  obtain ⟨kept, hkept, hmapM⟩ : ∃ kept, (pieces.map trim = kept ∨ pieces.map trim = kept ++ [[]]) ∧
      kept.mapM textIn = some items := by
    rw [itemsIn, ← hpieces] at h
    split at h
    · next hblank =>
      obtain ⟨front, hfront⟩ := List.getLast?_eq_some_iff.mp hblank
      rw [hfront, List.dropLast_concat] at h
      exact ⟨front, .inr hfront, h⟩
    · exact ⟨_, .inl rfl, h⟩
  have hsub : ∀ piece ∈ kept, piece ∈ pieces.map trim := by
    rintro piece hmem
    rcases hkept with heq | heq <;> simp [heq, hmem]
  obtain ⟨hmap, hcommas⟩ := mapM_textIn (fun piece hmem => hcalmPieces piece (hsub piece hmem)) hmapM
    fun item hitem => (hplain item hitem).2
  have htrimmed : ∀ piece ∈ pieces.map trim, ',' ∉ piece := by
    intro piece hmem
    rcases hkept with heq | heq
    · exact hcommas piece (heq ▸ hmem)
    · rw [heq, List.mem_append, List.mem_singleton] at hmem
      rcases hmem with hmem | rfl
      · exact hcommas piece hmem
      · exact List.not_mem_nil
  have hraws : ∀ raw ∈ pieces, ',' ∉ raw := by
    intro raw hraw hin
    obtain ⟨lead, trail, heq, hlead, htrail⟩ := exists_trim raw
    rw [heq, List.mem_append, List.mem_append] at hin
    rcases hin with hin | hin | hin
    · exact absurd (hlead ',' hin) (by decide)
    · exact htrimmed _ (List.mem_map_of_mem hraw) hin
    · exact absurd (htrail ',' hin) (by decide)
  have hsplit : body.splitOn ',' = pieces := by
    conv_lhs => rw [← hjoin]
    exact List.splitOn_intercalate ',' hraws cutAt_ne_nil
  have hitems : items.filter (· ≠ []) = items :=
    List.filter_eq_self.mpr fun item hitem => by simpa using (hplain item hitem).1
  have hquotes : (pieces.map fun p => Toml.trimQuotes (trim p)) = (pieces.map trim).map Toml.trimQuotes := by
    rw [List.map_map]
    rfl
  rw [cutItems, hsplit, hquotes]
  rcases hkept with heq | heq
  · rw [heq, hmap, hitems]
  · rw [heq, List.map_append, hmap, List.filter_append, hitems]
    exact List.append_nil items

/-- The parser reads a plain list, and no item it finds in brackets is empty or has a comma in it. -/
theorem valueOf_listIn {l : Listing} (hregular : RegularValue v) (h : listIn v = some l) :
    ∃ items, (valueOf v).bind Toml.arrayOf = some items ∧ (items = l.items ↔ l.Plain) := by
  unfold listIn at h
  split at h
  · next hhead =>
    split at h
    · next hlast =>
      obtain ⟨items, hitems, rfl⟩ := Option.map_eq_some_iff.mp h
      obtain ⟨rest, rfl⟩ := List.head?_eq_some_iff.mp hhead
      have hcalm := (calm_cons.mp hregular.calm).2
      obtain ⟨b, hb⟩ := List.dropLast_prefix rest
      rw [← hb, calm_append] at hcalm
      refine ⟨cutItems rest.dropLast, by rw [valueOf_brackets hhead hlast]; rfl, fun heq item hitem => ?_,
        fun hplain => ?_⟩
      · have hfound : cutItems rest.dropLast = items := heq
        rw [← hfound] at hitem
        exact cutItems_plain hitem
      · have hn : '\n' ∉ rest.dropLast :=
          fun hin => hregular.oneLine (List.mem_cons_of_mem _ (List.dropLast_subset rest hin))
        exact cutItems_eq hn hcalm.1 hitems hplain
    · cases h
  · obtain ⟨s, hs, rfl⟩ := Option.map_eq_some_iff.mp h
    rw [valueOf_textIn hregular.oneLine hregular.calm hs]
    exact ⟨[s], rfl, fun _ => trivial, fun _ => rfl⟩

end

end Ironbind
