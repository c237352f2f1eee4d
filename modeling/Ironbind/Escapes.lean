import Ironbind.Lib.Escape
import Ironbind.LineBreaks

/- Names and strings with escapes. What a name field or a string field stands for is
   labels or octets with every escape decoded. The loader encodes the text as it stands,
   cut at every dot: it comes to what the field stands for when there is no backslash in
   it (`name_plain`, `strings_plain`), and to something else when there is
   (`name_no_slash`, `strings_no_slash`), even where the blank of an escape at the end of
   the line has been trimmed off. -/
namespace Ironbind
open Codec

/-! What fields say. -/

/-- A label of 1 to 63 octets, in which a dot is escaped. -/
structure LabelDenotes (p : Text) (l : Bytes) : Prop where
  denotes : Denotes '.' p l
  ne_nil : l ≠ []
  le_63 : l.length ≤ 63

/-- The labels of a name field, and whether the origin stands behind them. -/
inductive NameDenotes : Text → List Bytes → Bool → Prop where
  | apex : NameDenotes ['@'] [] true
  | root : NameDenotes ['.'] [] false
  | relative {ps : List Text} {ls : List Bytes} (hne : ps ≠ []) (hat : ps ≠ [['@']])
      (h : List.Forall₂ LabelDenotes ps ls) :
      NameDenotes (['.'].intercalate ps) ls true
  | absolute {ps : List Text} {ls : List Bytes} (hne : ps ≠ []) (h : List.Forall₂ LabelDenotes ps ls) :
      NameDenotes (['.'].intercalate ps ++ ['.']) ls false

/-- A string in quotes or without. -/
inductive StringDenotes : Text → Bytes → Prop where
  | bare {t : Text} {b : Bytes} (hne : t ≠ []) (h : Denotes '"' t b) : StringDenotes t b
  | quoted {body : Text} {b : Bytes} (h : Denotes '"' body b) : StringDenotes ('"' :: (body ++ ['"'])) b

/-- Octets behind their number. -/
def counted (b : Bytes) : Bytes := UInt8.ofNat b.length :: b

/-- The octets without case. -/
def folded (ls : List Bytes) : List Bytes := ls.map (List.map foldOctet)

/-- A name field on the wire: its labels in any case, and the origin as it is encoded, or the root. -/
def NameOf (encode : Text → Bytes) (origin t : Text) (wire : Bytes) : Prop :=
  ∃ labels relative ls, NameDenotes t labels relative ∧ folded ls = folded labels ∧
    wire = ls.flatMap counted ++ if relative then encode origin else [0]

/-- The strings of a field: what it says, in pieces of at most 255 octets. -/
structure PiecesOf (t : Text) (pieces : List Bytes) : Prop where
  denotes : StringDenotes t pieces.flatten
  ne_nil : pieces ≠ []
  le_255 : ∀ s ∈ pieces, s.length ≤ 255

/-- Character-strings, field by field. -/
def StringsOf (fields : List Text) (rdata : Bytes) : Prop :=
  ∃ strings, List.Forall₂ PiecesOf fields strings ∧ rdata = strings.flatten.flatMap counted

/-! Names. -/

/-- A stretch between dots. -/
structure Stretch (p : Text) : Prop where
  ne_nil : p ≠ []
  no_dot : '.' ∉ p

/-- How names are encoded: the stretches of a text in lower case, in front of the origin or the root. -/
structure NameEncoder (encode : Text → Bytes) (stretches : Text → List Text) : Prop where
  empty : encode [] = [0]
  alone : ∀ {a : Text}, a ≠ [] → a.getLast? ≠ some '.' →
    encode (toAsciiLowercase a) = encodeLabels ((stretches a).map toAsciiLowercase) ++ [0]
  behind : ∀ {a : Text}, a ≠ [] → a.getLast? ≠ some '.' → ∀ origin,
    encode (toAsciiLowercase a ++ '.' :: origin) = encodeLabels ((stretches a).map toAsciiLowercase) ++ encode origin
  leads : ∀ {qs : List Text} {r rest : Text}, (∀ q ∈ qs, Stretch q) → Stretch r → (rest = [] ∨ ∃ u, rest = '.' :: u) →
    ∃ more, stretches (qs.flatMap (· ++ ['.']) ++ (r ++ rest)) = qs ++ r :: more ∧ (rest = [] → more = [])

theorem splitOn_leads {qs : List Text} {r rest : Text} (hqs : ∀ q ∈ qs, Stretch q) (hr : Stretch r)
    (hrest : rest = [] ∨ ∃ u, rest = '.' :: u) :
    ∃ more, (qs.flatMap (· ++ ['.']) ++ (r ++ rest)).splitOn '.' = qs ++ r :: more ∧ (rest = [] → more = []) := by
  induction qs with
  | nil =>
    obtain rfl | ⟨u, rfl⟩ := hrest
    · exact ⟨[], by simpa using List.splitOn_eq_singleton hr.no_dot, fun _ => rfl⟩
    · exact ⟨u.splitOn '.', by simpa using List.splitOn_append_cons_self_of_not_mem hr.no_dot u, fun h => by cases h⟩
  | cons q qs ih =>
    obtain ⟨hq, hqs⟩ := List.forall_mem_cons.mp hqs
    obtain ⟨more, hmore, hnil⟩ := ih hqs
    refine ⟨more, ?_, hnil⟩
    rw [List.flatMap_cons, List.append_assoc, List.append_assoc, List.singleton_append,
      List.splitOn_append_cons_self_of_not_mem hq.no_dot, hmore, List.cons_append]

theorem builderEncoder : NameEncoder Builder.name labelsOf where
  empty := rfl
  alone := by
    intro a _ _
    rw [Builder.name_eq, labelsOf_lower]
  behind := by
    intro a _ _ origin
    rw [Builder.name_eq, Builder.name_eq, labelsOf_append_dot, labelsOf_lower, encodeLabels_append, List.append_assoc]
  leads := by
    intro qs r rest hqs hr hrest
    obtain ⟨more, hmore, hnil⟩ := splitOn_leads hqs hr hrest
    refine ⟨more.filter (· ≠ []), ?_, fun h => by rw [hnil h]; rfl⟩
    have hkeep : ∀ q ∈ qs, decide (q ≠ []) = true := fun q hq => decide_eq_true (hqs q hq).ne_nil
    have hr' : decide (r ≠ []) = true := decide_eq_true hr.ne_nil
    rw [labelsOf, pieces, hmore, List.filter_append, List.filter_eq_self.mpr hkeep]
    congr 1
    exact List.filter_cons_of_pos hr'

theorem canonicalEncoder : NameEncoder encodeName (·.splitOn '.') where
  empty := rfl
  alone := by
    intro a hne hdot
    have hne' : toAsciiLowercase a ≠ [] := fun h => hne (toAsciiLowercase_eq_nil.mp h)
    have hlast : (toAsciiLowercase a).getLast? ≠ some '.' := mt (toAsciiLowercase_getLast? dot_not_alpha).mp hdot
    rw [encodeName, canonicalName, toAsciiLowercase_idem, trimEndMatches_eq_self hlast, if_neg hne',
      splitOn_toAsciiLowercase dot_not_alpha]
    rfl
  behind := by
    intro a hne hdot origin
    have hne' : toAsciiLowercase a ≠ [] := fun h => hne (toAsciiLowercase_eq_nil.mp h)
    have hlow : toAsciiLowercase (toAsciiLowercase a ++ '.' :: origin) =
        toAsciiLowercase a ++ '.' :: toAsciiLowercase origin := by
      rw [toAsciiLowercase_append, toAsciiLowercase_idem, toAsciiLowercase_cons]
      rfl
    have hlast : (toAsciiLowercase a).getLast? ≠ some '.' := mt (toAsciiLowercase_getLast? dot_not_alpha).mp hdot
    rw [encodeName, encodeName, canonicalName, canonicalName, hlow, trimEndMatches_append hlast]
    by_cases hnil : trimEndMatches '.' (toAsciiLowercase origin) = []
    · -- nothing but dots behind the dot
      have hdots : trimEndMatches '.' ('.' :: toAsciiLowercase origin) = [] := by
        rw [trimEndMatches, List.rdropWhile_eq_nil_iff] at hnil ⊢
        exact List.forall_mem_cons.mpr ⟨rfl, hnil⟩
      rw [hdots, List.append_nil, hnil, if_neg hne', if_pos rfl, splitOn_toAsciiLowercase dot_not_alpha]
      rfl
    · have hdot' : trimEndMatches '.' ('.' :: toAsciiLowercase origin) =
          '.' :: trimEndMatches '.' (toAsciiLowercase origin) := rdropWhile_append_of_ne ['.'] hnil
      rw [hdot', if_neg (by simp), if_neg hnil, List.splitOn_append_cons_self, List.flatMap_append,
        splitOn_toAsciiLowercase dot_not_alpha, List.append_assoc]
      rfl
  leads := splitOn_leads

/-! The first escape of a name. -/

def firstStretch (s : Text) : Text := s.takeWhile (· ≠ '.')

section
variable {s tail p t t' origin : Text} {qs rest : List Text} {d : Bytes} {encode : Text → Bytes}
  {stretches : Text → List Text} {labels : List Bytes} {relative : Bool}

theorem firstStretch_append (p : Text) (htail : tail = [] ∨ ∃ u, tail = '.' :: u) :
    firstStretch (p ++ tail) = firstStretch p := by
  obtain rfl | ⟨u, rfl⟩ := htail
  · rw [List.append_nil]
  · induction p with
    | nil => rfl
    | cons c p ih =>
      unfold firstStretch at ih ⊢
      rw [List.cons_append, List.takeWhile_cons, List.takeWhile_cons, ih]

theorem firstStretch_trim (s : Text) : firstStretch (trimEndMatches '.' s) = firstStretch s := by
  obtain ⟨n, hn⟩ := trimEndMatches_spec (c := '.') s
  conv_rhs => rw [hn]
  symm
  apply firstStretch_append
  cases n with
  | zero => exact .inl rfl
  | succ n => exact .inr ⟨List.replicate n '.', rfl⟩

theorem firstStretch_eq (h : '.' ∉ p) : firstStretch p = p := by
  apply List.takeWhile_eq_self_iff.mpr
  intro c hc
  exact decide_eq_true fun he => h (he ▸ hc)

theorem firstStretch_spec (hne : s ≠ []) (hdot : s.head? ≠ some '.') :
    Stretch (firstStretch s) ∧ ∃ tail, s = firstStretch s ++ tail ∧ (tail = [] ∨ ∃ u, tail = '.' :: u) := by
  refine ⟨⟨?_, ?_⟩, s.dropWhile (· ≠ '.'), List.takeWhile_append_dropWhile.symm, ?_⟩
  · obtain ⟨c, u, rfl⟩ := List.exists_cons_of_ne_nil hne
    have hc : c ≠ '.' := fun he => hdot (by rw [he]; rfl)
    rw [firstStretch, List.takeWhile_cons, if_pos (decide_eq_true hc)]
    exact List.cons_ne_nil _ _
  · intro hm
    have := List.mem_takeWhile_imp hm
    simp at this
  · cases hdrop : s.dropWhile (· ≠ '.') with
    | nil => exact .inl rfl
    | cons c u =>
      right
      have := List.head?_dropWhile_not (· ≠ '.') s
      rw [hdrop] at this
      refine ⟨u, ?_⟩
      rw [show c = '.' by simpa using this]

/-- Of the pieces of a text, the first with a backslash. -/
theorem first_slash : ∀ {ps : List Text}, (∃ p ∈ ps, '\\' ∈ p) →
    ∃ qs p rest, ps = qs ++ p :: rest ∧ (∀ q ∈ qs, '\\' ∉ q) ∧ '\\' ∈ p
  | [], h => by
    obtain ⟨p, hp, -⟩ := h
    cases hp
  | p :: ps, h => by
    by_cases hp : '\\' ∈ p
    · exact ⟨[], p, ps, rfl, fun q hq => absurd hq List.not_mem_nil, hp⟩
    · have hps : ∃ p ∈ ps, '\\' ∈ p := by
        obtain ⟨p', hp', hs⟩ := h
        obtain rfl | hp' := List.mem_cons.mp hp'
        · exact absurd hs hp
        · exact ⟨p', hp', hs⟩
      obtain ⟨qs, p', rest, rfl, hqs, hp'⟩ := first_slash hps
      exact ⟨p :: qs, p', rest, rfl, List.forall_mem_cons.mpr ⟨hp, hqs⟩, hp'⟩

theorem intercalate_split (p : Text) (rest : List Text) : ∀ qs : List Text,
    ∃ tail, ['.'].intercalate (qs ++ p :: rest) = qs.flatMap (· ++ ['.']) ++ (p ++ tail) ∧
      (tail = [] ∨ ∃ u, tail = '.' :: u) ∧ (rest = [] → tail = [])
  | [] => by
    cases rest with
    | nil => exact ⟨[], by simp, .inl rfl, fun _ => rfl⟩
    | cons p' rest =>
      refine ⟨'.' :: ['.'].intercalate (p' :: rest), ?_, .inr ⟨_, rfl⟩, fun h => by cases h⟩
      rw [List.nil_append, List.intercalate_cons_of_ne_nil (List.cons_ne_nil _ _), List.append_assoc]
      rfl
  | q :: qs => by
    obtain ⟨tail, ih, htail⟩ := intercalate_split p rest qs
    refine ⟨tail, ?_, htail⟩
    rw [List.cons_append, List.intercalate_cons_of_ne_nil (by simp), ih, List.flatMap_cons, List.append_assoc,
      List.append_assoc, List.append_assoc]

theorem mem_intercalate_slash {ps : List Text} (h : '\\' ∈ ['.'].intercalate ps) : ∃ p ∈ ps, '\\' ∈ p := by
  induction ps with
  | nil => cases h
  | cons p ps ih =>
    cases ps with
    | nil =>
      rw [List.intercalate_singleton] at h
      exact ⟨p, List.mem_cons_self, h⟩
    | cons p' ps =>
      rw [List.intercalate_cons_of_ne_nil (List.cons_ne_nil _ _)] at h
      simp only [List.mem_append, List.mem_singleton] at h
      obtain (h | h) | h := h
      · exact ⟨p, List.mem_cons_self, h⟩
      · exact absurd h (by decide)
      · obtain ⟨q, hq, hs⟩ := ih h
        exact ⟨q, List.mem_cons_of_mem _ hq, hs⟩

theorem LabelDenotes.head (h : LabelDenotes p d) : p ≠ [] ∧ p.head? ≠ some '.' := by
  cases h.denotes with
  | nil => exact absurd rfl h.ne_nil
  | plain hdot _ _ => exact ⟨List.cons_ne_nil _ _, fun he => hdot (Option.some.inj he)⟩
  | escaped _ _ => exact ⟨List.cons_ne_nil _ _, fun he => absurd (Option.some.inj he) (by decide)⟩
  | octet _ _ _ _ _ => exact ⟨List.cons_ne_nil _ _, fun he => absurd (Option.some.inj he) (by decide)⟩

theorem LabelDenotes.stretch (h : LabelDenotes p d) (hs : '\\' ∉ p) : Stretch p :=
  ⟨h.head.1, h.denotes.stop_not_mem hs⟩

theorem counted_cancel {b b' x y : Bytes} (hb : b.length < 256) (hb' : b'.length < 256)
    (h : counted b ++ x = counted b' ++ y) : b = b' ∧ x = y := by
  obtain ⟨hlen, h⟩ := List.cons.inj h
  have hlen := congrArg UInt8.toNat hlen
  rw [UInt8.toNat_ofNat', UInt8.toNat_ofNat', Nat.mod_eq_of_lt (by omega), Nat.mod_eq_of_lt (by omega)] at hlen
  exact List.append_inj h hlen

theorem folded_cons {l : Bytes} {labels ls : List Bytes} (h : folded ls = folded (l :: labels)) :
    ∃ l' ls', ls = l' :: ls' ∧ l'.map foldOctet = l.map foldOctet ∧ folded ls' = folded labels := by
  cases ls with
  | nil => cases h
  | cons l' ls' => exact ⟨l', ls', rfl, (List.cons.inj h).1, (List.cons.inj h).2⟩

theorem forall₂_mem {α β : Type} {R : α → β → Prop} {a : α} :
    ∀ {as : List α} {bs : List β}, List.Forall₂ R as bs → a ∈ as →
    ∃ b, R a b
  | _, _, .cons h hs, ha => by
    obtain rfl | ha := List.mem_cons.mp ha
    · exact ⟨_, h⟩
    · exact forall₂_mem hs ha

/-- Where names agree on the wire, the first stretch with a backslash agrees with its label. -/
theorem labels_agree {r : Text} {z y : Bytes} (hr : (utf8 r).length < 256) : ∀ {qs : List Text} {labels ls : List Bytes},
    (∀ q ∈ qs, '\\' ∉ q) → List.Forall₂ LabelDenotes (qs ++ p :: rest) labels → folded ls = folded labels →
    encodeLabels (qs.map toAsciiLowercase) ++ (Builder.label (toAsciiLowercase r) ++ z) = ls.flatMap counted ++ y →
    ∃ d, LabelDenotes p d ∧ (utf8 r).map foldOctet = d.map foldOctet := by
  have hfold : ((utf8 r).map foldOctet).map foldOctet = (utf8 r).map foldOctet := by
    rw [← utf8_toAsciiLowercase, ← utf8_toAsciiLowercase, toAsciiLowercase_idem]
  have hlabel : ∀ l : Text, Builder.label (toAsciiLowercase l) = counted ((utf8 l).map foldOctet) := by
    intro l
    rw [Builder.label, utf8_toAsciiLowercase]
    rfl
  intro qs
  induction qs with
  | nil =>
    intro labels ls _ hlabels hls h
    cases hlabels with
    | @cons _ d _ labels hp _ =>
      obtain ⟨l, ls, rfl, hl, -⟩ := folded_cons hls
      refine ⟨d, hp, ?_⟩
      have hlen : l.length = d.length := by simpa using congrArg List.length hl
      have h63 := hp.le_63
      rw [hlabel, List.map_nil, encodeLabels_nil, List.nil_append, List.flatMap_cons, List.append_assoc] at h
      obtain ⟨he, -⟩ := counted_cancel (by rw [List.length_map]; exact hr) (by omega) h
      rw [← hl, ← he, hfold]
  | cons q qs ih =>
    intro labels ls hqs hlabels hls h
    obtain ⟨hq, hqs⟩ := List.forall_mem_cons.mp hqs
    cases hlabels with
    | @cons _ d _ labels hd hlabels =>
      obtain ⟨l, ls, rfl, hl, hls⟩ := folded_cons hls
      have hlen : l.length = d.length := by simpa using congrArg List.length hl
      have hself := hd.denotes.eq_utf8 hq
      have h63 := hd.le_63
      rw [List.map_cons, encodeLabels_cons, hlabel, List.flatMap_cons, List.append_assoc, List.append_assoc] at h
      obtain ⟨-, h⟩ := counted_cancel (by rw [List.length_map, ← hself]; omega) (by omega) h
      exact ih hqs hlabels hls h

theorem octet_of_fold : ∀ n : Fin 256, (foldOctet (UInt8.ofNat n) = 46 → n.val = 46) ∧
    (foldOctet (UInt8.ofNat n) = 92 → n.val = 92) := by decide +kernel

theorem char_of_fold {x : UInt8} {c : Char} (hc : x ∈ String.utf8EncodeChar c) :
    (foldOctet x = 46 → c = '.') ∧ (foldOctet x = 92 → c = '\\') := by
  have hx := octet_of_fold ⟨x.toNat, x.toNat_lt⟩
  rw [UInt8.ofNat_toNat] at hx
  have hchar : ∀ n : Fin 128, x.toNat = n.val → c = Char.ofNat n.val := by
    intro n hn
    have hoctet : UInt8.ofNat n.val ∈ String.utf8EncodeChar c := by
      rw [← hn, UInt8.ofNat_toNat]
      exact hc
    rw [← char_of_octet n.isLt hoctet, Char.ofNat_toNat]
  exact ⟨fun h => hchar 46 (hx.1 h), fun h => hchar 92 (hx.2 h)⟩

/-- A field, or the same without the blank of an escape at its end. -/
def CutOf (t t' : Text) : Prop :=
  t' = t ∨ ∃ g w, isWhitespace w = true ∧ t = g ++ ['\\', w] ∧ t' = g ++ ['\\']

/-- What a text with an escaped blank at its end stands for ends in no backslash. -/
theorem denotes_blank {stop w : Char} {g : Text} (h : Denotes stop (g ++ ['\\', w]) d) (hw : isWhitespace w = true) :
    ∃ front y, d = front ++ [y] ∧ foldOctet y ≠ 92 := by
  have hlast : (g ++ ['\\', w]).getLast? = some w := by
    rw [List.append_cons, List.getLast?_concat]
  obtain ⟨front, rfl⟩ := h.last (isWhitespace_not_digit hw) hlast
  have hne : String.utf8EncodeChar w ≠ [] := List.ne_nil_of_length_pos (utf8EncodeChar_length_pos w)
  obtain ⟨ys, y, hy⟩ : ∃ ys y, String.utf8EncodeChar w = ys ++ [y] := ⟨_, _, (List.dropLast_append_getLast hne).symm⟩
  refine ⟨front ++ ys, y, by rw [hy, List.append_assoc], fun hfold => ?_⟩
  have hblank := (char_of_fold (c := w) (by rw [hy]; simp)).2 hfold
  rw [hblank] at hw
  exact absurd hw (by decide)

theorem utf8_slash (g : Text) : utf8 (g ++ ['\\']) = utf8 g ++ [92] := utf8_append g ['\\']

/-- A label with an escape is not its text, however the text is cut at dots and trimmed. -/
theorem label_differs {r : Text} (hp : LabelDenotes p d) (hs : '\\' ∈ p) (hr : '.' ∉ r) (hcut : '.' ∉ p → CutOf p r) :
    (utf8 r).map foldOctet ≠ d.map foldOctet := by
  by_cases hdot : '.' ∈ p
  · -- the label has a dot in it
    intro he
    have hmem : (46 : UInt8) ∈ d :=
      hp.denotes.mem_of_stop (by decide) (by decide) hdot 46 (by decide)
    have hfold : foldOctet 46 ∈ (utf8 r).map foldOctet := by
      rw [he]
      exact List.mem_map_of_mem hmem
    obtain ⟨x, hx, hfx⟩ := List.mem_map.mp hfold
    obtain ⟨c, hc, hxc⟩ := List.mem_flatMap.mp hx
    rw [(char_of_fold hxc).1 hfx] at hc
    exact hr hc
  · obtain rfl | ⟨g, w, hw, rfl, rfl⟩ := hcut hdot
    · intro he
      have hlen : (utf8 r).length = d.length := by simpa using congrArg List.length he
      have := hp.denotes.length_lt hs
      omega
    · obtain ⟨front, y, rfl, hy⟩ := denotes_blank hp.denotes hw
      intro he
      rw [utf8_slash, List.map_append, List.map_append] at he
      exact hy (List.cons.inj (List.append_inj' he rfl).2).1.symm

/-- The text that the loader encodes of a name with an escape, in front of the origin or not. -/
theorem fqdn_encoded (henc : NameEncoder encode stretches) (hs : '\\' ∈ t) (origin : Text) :
    ∃ z, encode (fqdn t origin) = encodeLabels ((stretches (trimEndMatches '.' t)).map toAsciiLowercase) ++ z := by
  have hmem : '\\' ∈ trimEndMatches '.' t := by
    obtain ⟨n, hn⟩ := trimEndMatches_spec (c := '.') t
    rw [hn] at hs
    obtain h | h := List.mem_append.mp hs
    · exact h
    · exact absurd (List.eq_of_mem_replicate h) (by decide)
  have hne : trimEndMatches '.' t ≠ [] := List.ne_nil_of_mem hmem
  have hat : trimEndMatches '.' t ≠ ['@'] := by
    intro he
    rw [he] at hmem
    exact absurd hmem (by decide)
  have hdot := trimEndMatches_getLast? (c := '.') t
  unfold fqdn
  dsimp only
  rw [if_neg hat]
  split
  · exact ⟨_, henc.alone hne hdot⟩
  · exact ⟨_, henc.behind hne hdot origin⟩

/-- Trimming leaves the first stretch of what follows labels. -/
theorem trim_leads {q : Text} (hs : '\\' ∈ s) (hdot : s.head? ≠ some '.') :
    Stretch (firstStretch s) ∧ ∃ tail, trimEndMatches '.' (q ++ s) = q ++ (firstStretch s ++ tail) ∧
      (tail = [] ∨ ∃ u, tail = '.' :: u) := by
  obtain ⟨n, hn⟩ := trimEndMatches_spec (c := '.') s
  have hne : trimEndMatches '.' s ≠ [] := by
    intro hnil
    rw [hn, hnil, List.nil_append] at hs
    exact absurd (List.eq_of_mem_replicate hs) (by decide)
  have hhead : (trimEndMatches '.' s).head? ≠ some '.' := by
    rw [hn, List.head?_append_of_ne_nil _ hne] at hdot
    exact hdot
  obtain ⟨hstretch, tail, htail, hdots⟩ := firstStretch_spec hne hhead
  rw [firstStretch_trim] at hstretch htail
  refine ⟨hstretch, tail, ?_, hdots⟩
  rw [← htail]
  exact rdropWhile_append_of_ne q hne

/-- A text that is cut at its end is cut at the end of its last piece. -/
theorem CutOf.behind {q : Text} (hs : '\\' ∈ p) (htail : tail = [] ∨ ∃ u, tail = '.' :: u)
    (h : CutOf (q ++ (p ++ tail)) t') :
    ∃ p' tail', t' = q ++ (p' ++ tail') ∧ CutOf p p' ∧ (tail' = [] ∨ ∃ u, tail' = '.' :: u) := by
  obtain rfl | ⟨g, w, hw, ht, rfl⟩ := h
  · exact ⟨p, tail, rfl, .inl rfl, htail⟩
  have hcut : (q ++ (p ++ tail)).dropLast = g ++ ['\\'] := by
    rw [ht, dropLast_blank]
  obtain rfl | ⟨u, rfl⟩ := htail
  · -- the blank is the label's
    have hne : p ≠ [] := List.ne_nil_of_mem hs
    obtain ⟨p', v, rfl⟩ : ∃ p' v, p = p' ++ [v] := ⟨_, _, (List.dropLast_append_getLast hne).symm⟩
    rw [List.append_nil, ← List.append_assoc, List.dropLast_concat] at hcut
    rw [List.append_nil, ← List.append_assoc, List.append_cons g] at ht
    obtain rfl : v = w := List.cons.inj (List.append_inj' ht rfl).2 |>.1
    have hs' : '\\' ∈ p' := by
      obtain h | h := List.mem_append.mp hs
      · exact h
      · rw [← List.mem_singleton.mp h] at hw
        exact absurd hw (by decide)
    have hne' : p' ≠ [] := List.ne_nil_of_mem hs'
    obtain ⟨g', c, rfl⟩ : ∃ g' c, p' = g' ++ [c] := ⟨_, _, (List.dropLast_append_getLast hne').symm⟩
    rw [← List.append_assoc] at hcut
    obtain rfl : c = '\\' := List.cons.inj (List.append_inj' hcut rfl).2 |>.1
    refine ⟨g' ++ ['\\'], [], ?_, .inr ⟨g', v, hw, by simp, rfl⟩, .inl rfl⟩
    rw [← hcut, List.append_nil, List.append_assoc]
  · -- the blank stands behind a dot
    have hne : u ≠ [] := by
      rintro rfl
      rw [← List.append_assoc, List.append_cons g] at ht
      obtain rfl : '.' = w := List.cons.inj (List.append_inj' ht rfl).2 |>.1
      exact absurd hw (by decide)
    refine ⟨p, '.' :: u.dropLast, ?_, .inl rfl, .inr ⟨_, rfl⟩⟩
    rw [← hcut, ← List.append_assoc, List.dropLast_append_of_ne_nil (List.cons_ne_nil _ _),
      List.dropLast_cons_of_ne_nil hne, List.append_assoc]

theorem CutOf.utf8_length_le (h : CutOf p t') : (utf8 t').length ≤ (utf8 p).length := by
  obtain rfl | ⟨g, w, -, rfl, rfl⟩ := h
  · exact Nat.le_refl _
  · have happ : g ++ ['\\', w] = g ++ ['\\'] ++ [w] := by simp
    rw [happ, utf8_append (g ++ ['\\']), List.length_append]
    exact Nat.le_add_right _ _

theorem CutOf.slash (hs : '\\' ∈ p) (h : CutOf p t') : '\\' ∈ t' := by
  obtain rfl | ⟨g, w, -, -, rfl⟩ := h
  · exact hs
  · simp

theorem CutOf.head (h : CutOf p t') (hs : '\\' ∈ p) : t'.head? = p.head? := by
  obtain rfl | ⟨g, w, -, rfl, rfl⟩ := h
  · rfl
  · cases g <;> rfl

/-- The labels of a name field, joined by dots, with a dot behind them or none. -/
theorem NameDenotes.pieces (h : NameDenotes t labels relative) (hs : '\\' ∈ t) :
    ∃ ps dot, t = ['.'].intercalate ps ++ dot ∧ (dot = [] ∨ dot = ['.']) ∧ List.Forall₂ LabelDenotes ps labels := by
  cases h with
  | apex => exact absurd hs (by decide)
  | root => exact absurd hs (by decide)
  | relative _ _ h => exact ⟨_, [], (List.append_nil _).symm, .inl rfl, h⟩
  | absolute _ h => exact ⟨_, ['.'], rfl, .inr rfl, h⟩

/-- **Escapes in names.** A name that is on the wire as its field says has no escape. -/
theorem name_no_slash (henc : NameEncoder encode stretches) {wire x y : Bytes} (hw : NameOf encode origin t wire)
    (hcut : CutOf t t') (h : encode (fqdn t' origin) ++ x = wire ++ y) : '\\' ∉ t := by
  intro hs
  obtain ⟨labels, relative, ls, hname, hls, rfl⟩ := hw
  obtain ⟨ps, dot, rfl, hdot, hlabels⟩ := hname.pieces hs
  have hslash : '\\' ∈ ['.'].intercalate ps := by
    obtain hm | hm := List.mem_append.mp hs
    · exact hm
    · obtain rfl | rfl := hdot
      · cases hm
      · exact absurd hm (by decide)
  obtain ⟨qs, p, rest, rfl, hqs, hp⟩ := first_slash (mem_intercalate_slash hslash)
  obtain ⟨tail, htail, hdots, -⟩ := intercalate_split p rest qs
  have hdots' : tail ++ dot = [] ∨ ∃ u, tail ++ dot = '.' :: u := by
    obtain rfl | ⟨u, rfl⟩ := hdots
    · obtain rfl | rfl := hdot
      · exact .inl rfl
      · exact .inr ⟨[], rfl⟩
    · exact .inr ⟨u ++ dot, rfl⟩
  rw [htail, List.append_assoc, List.append_assoc] at hcut
  obtain ⟨p', tail', rfl, hp', htail'⟩ := hcut.behind hp hdots'
  have hdenotes : ∀ q ∈ qs ++ p :: rest, ∃ d, LabelDenotes q d := fun q hq => forall₂_mem hlabels hq
  obtain ⟨d, hd⟩ := hdenotes p (by simp)
  -- what the loader encodes starts with the labels in front of this one and a stretch of it
  have hp'' : '\\' ∈ p' := hp'.slash hp
  have hhead : (p' ++ tail').head? ≠ some '.' := by
    rw [List.head?_append_of_ne_nil _ (List.ne_nil_of_mem hp''), hp'.head hp]
    exact hd.head.2
  obtain ⟨hstretch, rest', hrest', hdots''⟩ :=
    trim_leads (q := qs.flatMap (· ++ ['.'])) (List.mem_append_left tail' hp'') hhead
  rw [firstStretch_append p' htail'] at hstretch hrest'
  have hqs' : ∀ q ∈ qs, Stretch q := by
    intro q hq
    obtain ⟨d, hd⟩ := hdenotes q (List.mem_append_left _ hq)
    exact hd.stretch (hqs q hq)
  obtain ⟨more, hmore, -⟩ := henc.leads hqs' hstretch hdots''
  have hs' : '\\' ∈ qs.flatMap (· ++ ['.']) ++ (p' ++ tail') := List.mem_append_right _ (List.mem_append_left _ hp'')
  obtain ⟨z, hz⟩ := fqdn_encoded henc hs' origin
  rw [hrest', hmore, List.map_append, List.map_cons, encodeLabels_append, encodeLabels_cons] at hz
  rw [hz, List.append_assoc, List.append_assoc, List.append_assoc, List.append_assoc] at h
  have hshort : (utf8 (firstStretch p')).length < 256 := by
    have hle : (utf8 (firstStretch p')).length ≤ (utf8 p').length := by
      obtain ⟨u, hu⟩ := List.takeWhile_prefix (· ≠ '.') (l := p')
      conv_rhs => rw [← hu]
      rw [utf8_append, List.length_append]
      exact Nat.le_add_right _ _
    have hcut := hp'.utf8_length_le
    have hge := hd.denotes.length_ge
    have h63 := hd.le_63
    omega
  obtain ⟨d', hd', hagree⟩ := labels_agree hshort hqs hlabels hls h
  refine label_differs hd' hp hstretch.no_dot (fun hno => ?_) hagree
  rwa [firstStretch_eq]
  intro hm
  obtain rfl | ⟨g, w, -, rfl, rfl⟩ := hp'
  · exact hno hm
  · apply hno
    rw [List.append_cons]
    exact List.mem_append_left _ hm

theorem stretches_joined (henc : NameEncoder encode stretches) {ps : List Text} (hne : ps ≠ []) (h : ∀ p ∈ ps, Stretch p) :
    stretches (['.'].intercalate ps) = ps := by
  obtain ⟨qs, p, rfl⟩ : ∃ qs p, ps = qs ++ [p] := ⟨_, _, (List.dropLast_append_getLast hne).symm⟩
  obtain ⟨tail, htail, hdots, hnil⟩ := intercalate_split p [] qs
  obtain ⟨more, hmore, hnone⟩ := henc.leads (fun q hq => h q (List.mem_append_left _ hq)) (h p (by simp)) hdots
  rw [htail, hmore, hnone (hnil rfl)]

theorem encodeLabels_folded (ps : List Text) :
    encodeLabels (ps.map toAsciiLowercase) = (folded (ps.map utf8)).flatMap counted := by
  rw [encodeLabels, folded, List.flatMap_map, List.map_map, List.flatMap_map]
  congr 1
  funext p
  rw [Builder.label, utf8_toAsciiLowercase]
  rfl

/-- Labels without an escape are their texts. -/
theorem plain_labels {ps : List Text} (h : List.Forall₂ LabelDenotes ps labels) (hs : ∀ p ∈ ps, '\\' ∉ p) :
    labels = ps.map utf8 ∧ ∀ p ∈ ps, Stretch p := by
  induction h with
  | nil => exact ⟨rfl, fun p hp => absurd hp List.not_mem_nil⟩
  | cons h _ ih =>
    obtain ⟨hp, hps⟩ := List.forall_mem_cons.mp hs
    obtain ⟨rfl, hstretch⟩ := ih hps
    exact ⟨by rw [List.map_cons, h.denotes.eq_utf8 hp], List.forall_mem_cons.mpr ⟨h.stretch hp, hstretch⟩⟩

theorem slash_mem_intercalate {ps : List Text} (hp : p ∈ ps) (hs : '\\' ∈ p) : '\\' ∈ ['.'].intercalate ps := by
  obtain ⟨qs, rest, rfl⟩ := List.append_of_mem hp
  obtain ⟨tail, htail, -⟩ := intercalate_split p rest qs
  rw [htail]
  exact List.mem_append_right _ (List.mem_append_left _ hs)

/-- Labels without an escape, joined by dots. -/
theorem joined_plain {ps : List Text} (hne : ps ≠ []) (h : ∀ p ∈ ps, Stretch p) :
    ['.'].intercalate ps ≠ [] ∧ (['.'].intercalate ps).getLast? ≠ some '.' ∧
      (['.'].intercalate ps = ['@'] → ps = [['@']]) := by
  have hsplit := List.splitOn_intercalate '.' (fun p hp => (h p hp).no_dot) hne
  refine ⟨?_, ?_, ?_⟩
  · intro hnil
    rw [hnil] at hsplit
    have hempty : Stretch [] := h [] (by rw [← hsplit]; simp)
    exact hempty.ne_nil rfl
  · obtain ⟨qs, p, rfl⟩ : ∃ qs p, ps = qs ++ [p] := ⟨_, _, (List.dropLast_append_getLast hne).symm⟩
    obtain ⟨tail, htail, -, hnil⟩ := intercalate_split p [] qs
    have hp := h p (by simp)
    rw [htail, hnil rfl, List.append_nil, List.getLast?_append_of_ne_nil _ hp.ne_nil]
    exact fun he => hp.no_dot (List.mem_of_getLast? he)
  · intro he
    rw [he] at hsplit
    rw [← hsplit]
    rfl

theorem NameDenotes.plain_pieces {ps : List Text} (h : List.Forall₂ LabelDenotes ps labels)
    (hs : '\\' ∉ ['.'].intercalate ps) : labels = ps.map utf8 ∧ ∀ p ∈ ps, Stretch p :=
  plain_labels h fun _ hp hm => hs (slash_mem_intercalate hp hm)

/-- A name without an escape is completed and encoded as its field says. -/
theorem name_plain (henc : NameEncoder encode stretches) (h : NameDenotes t labels relative) (hs : '\\' ∉ t)
    (origin : Text) :
    encode (ownerName t origin) = (folded labels).flatMap counted ++ if relative then encode origin else [0] := by
  cases h with
  | apex => rw [ownerName, if_pos rfl]; rfl
  | root =>
    have hroot : ownerName ['.'] origin = [] := rfl
    rw [hroot, henc.empty]
    rfl
  | relative hne hat hlabels =>
    obtain ⟨rfl, hstretch⟩ := NameDenotes.plain_pieces hlabels hs
    obtain ⟨hne', hdot, hat'⟩ := joined_plain hne hstretch
    rw [ownerName, if_neg fun he => hat (hat' he), if_neg hdot, henc.behind hne' hdot,
      stretches_joined henc hne hstretch, encodeLabels_folded, if_pos rfl]
  | @absolute ps _ hne hlabels =>
    obtain ⟨rfl, hstretch⟩ := NameDenotes.plain_pieces hlabels fun hm => hs (List.mem_append_left _ hm)
    obtain ⟨hne', hdot, -⟩ := joined_plain hne hstretch
    have hat : ['.'].intercalate ps ++ ['.'] ≠ ['@'] := by
      intro he
      have hlast := congrArg List.getLast? he
      rw [List.getLast?_concat] at hlast
      exact absurd hlast (by decide)
    rw [ownerName, if_neg hat, if_pos List.getLast?_concat, trimEndMatches_concat_self, trimEndMatches_eq_self hdot,
      henc.alone hne' hdot, stretches_joined henc hne hstretch, encodeLabels_folded, if_neg Bool.false_ne_true]

/-- A name field is completed alike for the owner and for a name of the data, unless it is dots behind "@". -/
theorem ownerName_eq_fqdn (h : trimEndMatches '.' t = ['@'] → t = ['@']) (origin : Text) :
    ownerName t origin = fqdn t origin := by
  unfold ownerName fqdn
  dsimp only
  by_cases hat : t = ['@']
  · rw [if_pos hat, if_pos (by rw [hat]; rfl)]
  · rw [if_neg hat, if_neg fun he => hat (h he)]
    by_cases hdot : t.getLast? = some '.'
    · rw [if_pos hdot, if_pos hdot]
    · rw [if_neg hdot, if_neg hdot, trimEndMatches_eq_self hdot]

/-- Of the names without an escape, "@." is dots behind "@". -/
theorem NameDenotes.ownerName_eq (h : NameDenotes t labels relative) (hs : '\\' ∉ t) (hat : t ≠ ['@', '.'])
    (origin : Text) :
    ownerName t origin = fqdn t origin := by
  apply ownerName_eq_fqdn
  intro htrim
  cases h with
  | apex => rfl
  | root => cases htrim
  | relative hne hat' h =>
    obtain ⟨-, hdot, -⟩ := joined_plain hne (plain_pieces h hs).2
    rwa [trimEndMatches_eq_self hdot] at htrim
  | absolute hne h =>
    obtain ⟨-, hdot, -⟩ := joined_plain hne (plain_pieces h fun hm => hs (List.mem_append_left _ hm)).2
    rw [trimEndMatches_concat_self, trimEndMatches_eq_self hdot] at htrim
    rw [htrim] at hat
    exact absurd rfl hat

theorem slash_ownerName (hs : '\\' ∈ t) (origin : Text) : ownerName t origin = fqdn t origin := by
  apply ownerName_eq_fqdn
  intro hat
  obtain ⟨n, hn⟩ := trimEndMatches_spec (c := '.') t
  rw [hn, hat] at hs
  obtain hs | hs := List.mem_append.mp hs
  · exact absurd hs (by decide)
  · exact absurd (List.eq_of_mem_replicate hs) (by decide)

theorem folded_idem (ls : List Bytes) : folded (folded ls) = folded ls := by
  have hidem : ∀ b : UInt8, foldOctet (foldOctet b) = foldOctet b := by decide +kernel
  rw [folded, folded, List.map_map]
  apply List.map_congr_left
  intro l _
  rw [Function.comp_apply, List.map_map]
  exact List.map_congr_left fun b _ => hidem b

/-- Labels on the wire, without case. -/
theorem counted_folded (ls : List Bytes) :
    (ls.flatMap counted).map foldOctet = ((folded ls).flatMap counted).map foldOctet := by
  have hidem : ∀ b : UInt8, foldOctet (foldOctet b) = foldOctet b := by decide +kernel
  induction ls with
  | nil => rfl
  | cons l ls ih =>
    have hl : (counted l).map foldOctet = (counted (l.map foldOctet)).map foldOctet := by
      rw [counted, counted, List.map_cons, List.map_cons, List.length_map, List.map_map]
      congr 1
      exact List.map_congr_left fun b _ => (hidem b).symm
    rw [folded, List.map_cons, List.flatMap_cons, List.flatMap_cons, List.map_append, List.map_append, hl, ih]
    rfl

theorem CutOf.eq_self (h : CutOf t t') (hs : '\\' ∉ t) : t' = t := by
  obtain h | ⟨g, w, -, rfl, -⟩ := h
  · exact h
  · exact absurd (by simp) hs

/-- A name that is on the wire as its field says has no escape, and is the completed name there, in any case. -/
theorem name_right (henc : NameEncoder encode stretches) {wire x y : Bytes} (hw : NameOf encode origin t wire)
    (hcut : CutOf t t') (h : encode (fqdn t' origin) ++ x = wire ++ y) :
    '\\' ∉ t ∧ t' = t ∧ wire.map foldOctet = (encode (ownerName t origin)).map foldOctet := by
  have hs := name_no_slash henc hw hcut h
  obtain ⟨labels, relative, ls, hdenotes, hls, rfl⟩ := hw
  refine ⟨hs, hcut.eq_self hs, ?_⟩
  rw [name_plain henc hdenotes hs, List.map_append, List.map_append, counted_folded ls, hls]

/-- Names one behind the other that are on the wire as their fields say have no escape. -/
theorem names_no_slash (henc : NameEncoder encode stretches) :
    ∀ {names names' : List Text} {wires : List Bytes} {x y : Bytes},
    List.Forall₂ CutOf names names' → (∀ n ∈ names, n ≠ ['@', '.']) → List.Forall₂ (NameOf encode origin) names wires →
    names'.flatMap (fun n => encode (fqdn n origin)) ++ x = wires.flatten ++ y → ∀ n ∈ names, '\\' ∉ n
  | [], _, _, _, _, _, _, _, _ => fun n hn => absurd hn List.not_mem_nil
  | n :: names, n' :: names', wire :: wires, x, y, .cons hcut hcuts, hat, .cons hname hnames, h => by
    obtain ⟨hat, hats⟩ := List.forall_mem_cons.mp hat
    rw [List.flatMap_cons, List.flatten_cons, List.append_assoc, List.append_assoc] at h
    obtain ⟨hs, rfl, hsame⟩ := name_right henc hname hcut h
    obtain ⟨labels, relative, -, hdenotes, -⟩ := hname
    have hlen : wire.length = (encode (fqdn n' origin)).length := by
      rw [← hdenotes.ownerName_eq hs hat]
      simpa using congrArg List.length hsame
    have hrest := (List.append_inj h hlen.symm).2
    exact List.forall_mem_cons.mpr ⟨hs, names_no_slash henc hcuts hats hnames hrest⟩

/-- A name without an escape is encoded as its field says. -/
theorem NameOf.of_plain (henc : NameEncoder encode stretches) (h : NameDenotes t labels relative) (hs : '\\' ∉ t)
    (origin : Text) : NameOf encode origin t (encode (ownerName t origin)) :=
  ⟨labels, relative, folded labels, h, folded_idem labels, name_plain henc h hs origin⟩

theorem names_plain (henc : NameEncoder encode stretches) (origin : Text) : ∀ {names : List Text},
    (∀ n ∈ names, n ≠ ['@', '.'] ∧ ∃ labels relative, NameDenotes n labels relative) → (∀ n ∈ names, '\\' ∉ n) →
    ∃ wires, List.Forall₂ (NameOf encode origin) names wires ∧ wires.flatten = names.flatMap fun n =>
      encode (fqdn n origin)
  | [], _, _ => ⟨[], .nil, rfl⟩
  | n :: names, h, hs => by
    obtain ⟨⟨hat, labels, relative, hn⟩, h⟩ := List.forall_mem_cons.mp h
    obtain ⟨hplain, hs⟩ := List.forall_mem_cons.mp hs
    obtain ⟨wires, hwires, hflat⟩ := names_plain henc origin h hs
    have hname := NameOf.of_plain henc hn hplain origin
    rw [hn.ownerName_eq hplain hat] at hname
    exact ⟨encode (fqdn n origin) :: wires, .cons hname hwires, by rw [List.flatten_cons, hflat, List.flatMap_cons]⟩

/-! Strings. -/

theorem txtChunks_pieces : ∀ (fuel : Nat) (b : Bytes), b.length ≤ fuel →
    ∃ pieces : List Bytes, txtChunks fuel b = pieces.flatMap counted ∧ pieces.flatten = b ∧ (b ≠ [] → pieces ≠ []) ∧
      ∀ s ∈ pieces, s.length ≤ 255
  | 0, b, h => by
    obtain rfl := List.length_eq_zero_iff.mp (Nat.le_zero.mp h)
    exact ⟨[], rfl, rfl, fun hne => absurd rfl hne, fun s hs => absurd hs List.not_mem_nil⟩
  | fuel + 1, b, h => by
    by_cases hb : b = []
    · exact ⟨[], by rw [txtChunks, if_pos hb]; rfl, hb.symm, fun hne => absurd hb hne,
        fun s hs => absurd hs List.not_mem_nil⟩
    · have hpos := List.length_pos_of_ne_nil hb
      obtain ⟨pieces, hpieces, hflat, -, hle⟩ := txtChunks_pieces fuel (b.drop 255) (by rw [List.length_drop]; omega)
      refine ⟨b.take 255 :: pieces, ?_, ?_, fun _ => List.cons_ne_nil _ _, ?_⟩
      · rw [txtChunks, if_neg hb, hpieces]
        rfl
      · rw [List.flatten_cons, hflat, List.take_append_drop]
      · exact List.forall_mem_cons.mpr ⟨List.length_take_le 255 b, hle⟩

theorem txtField_pieces (t : Text) : ∃ pieces : List Bytes, txtField t = pieces.flatMap counted ∧
    pieces.flatten = utf8 (unquote t) ∧ pieces ≠ [] ∧ ∀ s ∈ pieces, s.length ≤ 255 := by
  by_cases hnil : utf8 (unquote t) = []
  · refine ⟨[[]], ?_, ?_, List.cons_ne_nil _ _, ?_⟩
    · rw [txtField, if_pos hnil]
      rfl
    · rw [hnil]
      rfl
    · intro s hs
      rw [List.mem_singleton.mp hs]
      exact Nat.zero_le _
  · obtain ⟨pieces, hpieces, hflat, hne, hle⟩ := txtChunks_pieces _ (utf8 (unquote t)) (Nat.le_refl _)
    refine ⟨pieces, ?_, hflat, hne hnil, hle⟩
    rw [txtField, if_neg hnil, hpieces]

theorem txtFields_pieces : ∀ fields : List Text, ∃ all : List Bytes, fields.flatMap txtField = all.flatMap counted ∧
    all.flatten = fields.flatMap (fun t => utf8 (unquote t)) ∧ ∀ s ∈ all, s.length ≤ 255
  | [] => ⟨[], rfl, rfl, fun s hs => absurd hs List.not_mem_nil⟩
  | t :: fields => by
    obtain ⟨pieces, hpieces, hflat, -, hle⟩ := txtField_pieces t
    obtain ⟨all, hall, hflat', hle'⟩ := txtFields_pieces fields
    refine ⟨pieces ++ all, ?_, ?_, ?_⟩
    · rw [List.flatMap_cons, hpieces, hall, List.flatMap_append]
    · rw [List.flatten_append, hflat, hflat', List.flatMap_cons]
    · intro s hs
      exact (List.mem_append.mp hs).elim (hle s) (hle' s)

theorem counted_injective : ∀ {as bs : List Bytes}, (∀ s ∈ as, s.length ≤ 255) → (∀ s ∈ bs, s.length ≤ 255) →
    as.flatMap counted = bs.flatMap counted → as = bs
  | [], [], _, _, _ => rfl
  | [], b :: bs, _, _, h => by cases h
  | a :: as, [], _, _, h => by cases h
  | a :: as, b :: bs, ha, hb, h => by
    obtain ⟨ha, has⟩ := List.forall_mem_cons.mp ha
    obtain ⟨hb, hbs⟩ := List.forall_mem_cons.mp hb
    obtain ⟨rfl, hrest⟩ := counted_cancel (Nat.lt_succ_of_le ha) (Nat.lt_succ_of_le hb) h
    rw [counted_injective has hbs hrest]

/-- The loader's text of a string field is the text between its quotes. -/
theorem StringDenotes.unquoted {b : Bytes} (h : StringDenotes t b) :
    Denotes '"' (unquote t) b ∧ ('\\' ∈ t → '\\' ∈ unquote t) ∧ ('\\' ∈ unquote t → '\\' ∈ t) := by
  cases h with
  | bare hne h =>
    have hself : unquote t = t := by
      unfold unquote
      split
      · next rest =>
        cases h with
        | plain hquote _ _ => exact absurd rfl hquote
      · rfl
    rw [hself]
    exact ⟨h, id, id⟩
  | @quoted body _ h =>
    have hbody : unquote ('"' :: (body ++ ['"'])) = body := by
      rw [unquote, List.getLast?_concat, if_pos rfl, List.dropLast_concat]
    rw [hbody]
    refine ⟨h, fun hm => ?_, fun hm => List.mem_cons_of_mem _ (List.mem_append_left _ hm)⟩
    have hm := (List.mem_cons.mp hm).resolve_left (by decide)
    exact (List.mem_append.mp hm).resolve_right (by decide)

theorem strings_length {fields : List Text} {strings : List (List Bytes)} (h : List.Forall₂ PiecesOf fields strings) :
    strings.flatten.flatten.length ≤ (fields.flatMap fun t => utf8 (unquote t)).length ∧
      ((∃ t ∈ fields, '\\' ∈ t) → strings.flatten.flatten.length < (fields.flatMap fun t => utf8 (unquote t)).length) := by
  induction h with
  | nil => exact ⟨Nat.le_refl _, fun h => by obtain ⟨t, ht, -⟩ := h; cases ht⟩
  | @cons t pieces fields strings h _ ih =>
    obtain ⟨hdenotes, hslash, -⟩ := h.denotes.unquoted
    have hle := hdenotes.length_le
    rw [List.flatten_cons, List.flatten_append, List.length_append, List.flatMap_cons, List.length_append]
    refine ⟨by omega, fun hm => ?_⟩
    obtain ⟨t', ht', hs⟩ := hm
    obtain rfl | ht' := List.mem_cons.mp ht'
    · have := hdenotes.length_lt (hslash hs)
      omega
    · have := ih.2 ⟨t', ht', hs⟩
      omega

/-- **Escapes in strings.** Strings that are stored as their fields say have no escape. -/
theorem strings_no_slash {init : List Text} {last last' : Text} (hcut : CutOf last last')
    (h : StringsOf (init ++ [last]) ((init ++ [last']).flatMap txtField)) : ∀ t ∈ init ++ [last], '\\' ∉ t := by
  obtain ⟨strings, hstrings, hrdata⟩ := h
  obtain ⟨all, hall, hflat, hle⟩ := txtFields_pieces (init ++ [last'])
  have hle' : ∀ s ∈ strings.flatten, s.length ≤ 255 := by
    intro s hs
    obtain ⟨pieces, hpieces, hs⟩ := List.mem_flatten.mp hs
    obtain ⟨t, ht⟩ := forall₂_mem hstrings.flip hpieces
    exact ht.le_255 s hs
  rw [hall] at hrdata
  obtain rfl := counted_injective hle hle' hrdata
  obtain rfl | ⟨g, w, hw, rfl, rfl⟩ := hcut
  · intro t ht hs
    have := (strings_length hstrings).2 ⟨t, ht, hs⟩
    rw [hflat] at this
    exact absurd this (Nat.lt_irrefl _)
  · -- the octets end in a backslash here and in the blank there
    exfalso
    obtain ⟨front, pieces, rfl, hlast⟩ : ∃ front pieces, strings = front ++ [pieces] ∧
        PiecesOf (g ++ ['\\', w]) pieces := by
      have hsplit := List.forall₂_reverse_iff.mpr hstrings
      rw [List.reverse_append, List.reverse_singleton, List.singleton_append] at hsplit
      cases hrev : strings.reverse with
      | nil => rw [hrev] at hsplit; cases hsplit
      | cons pieces front =>
        rw [hrev] at hsplit
        cases hsplit with
        | cons hlast _ =>
          refine ⟨front.reverse, pieces, ?_, hlast⟩
          rw [← List.reverse_reverse strings, hrev, List.reverse_cons]
    have hbare := hlast.denotes.unquoted.1
    rw [(slashed_blank hw).unquote] at hbare
    obtain ⟨ys, y, hy, hne⟩ := denotes_blank hbare hw
    rw [List.flatten_append, List.flatten_append, List.flatten_singleton, hy, List.flatMap_append, List.flatMap_cons,
      List.flatMap_nil, List.append_nil, (slashed_cut g).unquote, utf8_slash, ← List.append_assoc,
      ← List.append_assoc] at hflat
    obtain rfl : y = 92 := (List.cons.inj (List.append_inj' hflat rfl).2).1
    exact hne rfl

/-- Strings without an escape are stored as their fields say. -/
theorem strings_plain : ∀ {fields : List Text}, (∀ t ∈ fields, ∃ b, StringDenotes t b) → (∀ t ∈ fields, '\\' ∉ t) →
    StringsOf fields (fields.flatMap txtField)
  | [], _, _ => ⟨[], .nil, rfl⟩
  | t :: fields, h, hs => by
    obtain ⟨⟨b, hb⟩, h⟩ := List.forall_mem_cons.mp h
    obtain ⟨hplain, hs⟩ := List.forall_mem_cons.mp hs
    obtain ⟨strings, hstrings, hrdata⟩ := strings_plain h hs
    obtain ⟨pieces, hpieces, hflat, hne, hle⟩ := txtField_pieces t
    have hself : b = utf8 (unquote t) := hb.unquoted.1.eq_utf8 fun hm => hplain (hb.unquoted.2.2 hm)
    refine ⟨pieces :: strings, .cons ⟨?_, hne, hle⟩ hstrings, ?_⟩
    · rw [hflat, ← hself]
      exact hb
    · rw [List.flatMap_cons, hpieces, hrdata, List.flatten_cons, List.flatMap_append]

end

end Ironbind
