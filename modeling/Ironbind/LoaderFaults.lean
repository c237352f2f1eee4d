import Ironbind.Lib.Machine
import Ironbind.Lib.Slice
import Ironbind.ZoneFields

/- Where the loader of zone files panics. `Checked` is the loader with every step that
   may panic in the open: indices and slices of the fields, slices of text at octet
   offsets, and arithmetic on fixed-width integers. A step is checked against the plain
   one (`Agrees`): it gives a value exactly when nothing it checks goes wrong and the
   plain loader, which knows of no overflow, gives that value. What can go wrong is a
   TTL too large for its unit, an MX record without an exchange, a digest whose pairs
   cut a character, and more than 2^31 parentheses (`TextSafe`, `ParenthesesFit`), and
   a file loads exactly when none of its records do (`loadFile_safe_iff`). -/
namespace Ironbind
open Codec Machine

namespace Checked

/-- A panic: an operation out of the range of its integers, or one of the plain loader's. -/
inductive Crash where
  | overflow
  | panic (p : Panic)
  deriving DecidableEq, Repr

/-! Steps that may panic. -/

def FitsI32 (n : Int) : Prop := -2 ^ 31 ≤ n ∧ n < 2 ^ 31

instance (n : Int) : Decidable (FitsI32 n) := inferInstanceAs (Decidable (_ ∧ _))

def addI32 (a b : Int) : Except Crash Int := if FitsI32 (a + b) then .ok (a + b) else .error .overflow

def addU8 (a b : UInt8) : Except Crash UInt8 := if a.toNat + b.toNat < 2 ^ 8 then .ok (a + b) else .error .overflow

def subU8 (a b : UInt8) : Except Crash UInt8 := if b ≤ a then .ok (a - b) else .error .overflow

def mulU32 (a b : UInt32) : Except Crash UInt32 := if a.toNat * b.toNat < 2 ^ 32 then .ok (a * b) else .error .overflow

def index {α : Type} (xs : List α) (i : Nat) : Except Crash α :=
  match xs[i]? with
  | some x => .ok x
  | none => .error (.panic .indexOutOfBounds)

/-- `&xs[i..]`. -/
def sliceFrom {α : Type} (xs : List α) (i : Nat) : Except Crash (List α) :=
  if i ≤ xs.length then .ok (xs.drop i) else .error (.panic .indexOutOfBounds)

/-- `&s[i..j]`. -/
def slice (s : Text) (i j : Nat) : Except Crash Text :=
  match sliceOctets s i j with
  | some t => .ok t
  | none => .error (.panic .notCharBoundary)

/-! The scanners. -/

/-- Where the comment starts, in octets; the third argument is the offset of the text. -/
def commentIndex : Bool → Bool → Nat → Text → Option Nat
  | _, _, _, [] => none
  | quoted, true, i, c :: rest => commentIndex quoted false (i + c.utf8Size) rest
  | quoted, false, i, c :: rest =>
    if c = ';' ∧ !quoted then some i else commentIndex (toggles quoted c) (c = '\\') (i + c.utf8Size) rest

def stripZoneComment (line : Text) : Except Crash Text :=
  match commentIndex false false 0 line with
  | some i => slice line 0 i
  | none => .ok line

/-- What a character that is not escaped does to the balance. -/
def balanceStep (quoted : Bool) (balance : Int) (c : Char) : Except Crash Int :=
  if quoted then .ok balance
  else if c = '(' then addI32 balance 1
  else if c = ')' then addI32 balance (-1)
  else .ok balance

def balanceLoop : Bool → Bool → Int → Text → Except Crash Int
  | _, _, balance, [] => .ok balance
  | quoted, true, balance, _ :: rest => balanceLoop quoted false balance rest
  | quoted, false, balance, c :: rest => do
    let balance ← balanceStep quoted balance c
    balanceLoop (toggles quoted c) (c = '\\') balance rest

def parenthesisBalance (line : Text) : Except Crash Int := balanceLoop false false 0 line

/-! Fields. -/

def parseTtl (s : Text) : Except Crash UInt32 := do
  let (num, mult) ← match s.getLast?.bind ttlUnit with
    | some mult => (slice s 0 ((utf8 s).length - 1)).map fun num => (num, mult)
    | none => .ok (s, 1)
  mulU32 ((parseU32 num).getD 3600) mult

/-- The pairs of octets from the offsets on. -/
def hexLoop (s : Text) : List Nat → Except Crash (Option Bytes)
  | [] => .ok (some [])
  | i :: rest => do
    match ← slice s i (i + 2) with
    | [hi, lo] =>
      match hexPair hi lo with
      | none => .ok none
      | some b => (hexLoop s rest).map fun bs => bs.map (b :: ·)
    | _ => .ok none

def hexDecodeField (s : Text) : Except Crash (Option Bytes) :=
  let s := s.filter (· ≠ ' ')
  if (utf8 s).length % 2 ≠ 0 then .ok none
  else hexLoop s (List.range' 0 ((utf8 s).length / 2) 2)

def base64Value (b : UInt8) : Except Crash (Option UInt8) :=
  let c := Char.ofNat b.toNat
  if 'A' ≤ c ∧ c ≤ 'Z' then (subU8 b 65).map some
  else if 'a' ≤ c ∧ c ≤ 'z' then (subU8 b 97).bind fun v => (addU8 v 26).map some
  else if '0' ≤ c ∧ c ≤ '9' then (subU8 b 48).bind fun v => (addU8 v 52).map some
  else if c = '+' then .ok (some 62)
  else if c = '/' then .ok (some 63)
  else if c = '=' then .ok (some 0)
  else .ok none

/-- The octets of a chunk of four, or nothing when one of them has no value. -/
def base64Chunk (chunk : Bytes) : Except Crash (Option Bytes) := do
  let c0 ← index chunk 0
  match ← base64Value c0 with
  | none => .ok none
  | some a =>
    let c1 ← index chunk 1
    match ← base64Value c1 with
    | none => .ok none
    | some b =>
      let c2 ← index chunk 2
      match ← base64Value c2 with
      | none => .ok none
      | some c =>
        let c3 ← index chunk 3
        match ← base64Value c3 with
        | none => .ok none
        | some d =>
          let n := (a.toUInt32 <<< 18) ||| (b.toUInt32 <<< 12) ||| (c.toUInt32 <<< 6) ||| d.toUInt32
          .ok (some ((n >>> 16).toUInt8 :: (if c2 ≠ 61 then [(n >>> 8).toUInt8] else [])
            ++ (if c3 ≠ 61 then [n.toUInt8] else [])))

/-- `bytes.chunks(4)`: the last may be shorter. -/
def chunksOfFour : Bytes → List Bytes
  | [] => []
  | c0 :: c1 :: c2 :: c3 :: rest => [c0, c1, c2, c3] :: chunksOfFour rest
  | rest => [rest]

def base64Chunks : List Bytes → Except Crash (Option Bytes)
  | [] => .ok (some [])
  | chunk :: rest => do
    match ← base64Chunk chunk with
    | none => .ok none
    | some out => (base64Chunks rest).map fun outs => outs.map (out ++ ·)

def base64Decode (s : Text) : Except Crash (Option Bytes) :=
  let bytes := utf8 (s.filter fun c => !isWhitespace c)
  if bytes.length % 4 ≠ 0 then .ok none else base64Chunks (chunksOfFour bytes)

/-! RDATA. -/

def mxRdata (origin : Text) (tokens : List Text) : Except Crash (Option Bytes) := do
  let pref ← index tokens 0
  match parseU16 pref with
  | none => .ok none
  | some pref =>
    let exchange ← index tokens 1
    .ok (some (Builder.u16 pref ++ Builder.name (fqdn exchange origin)))

def soaRdata (origin : Text) (tokens : List Text) : Except Crash (Option Bytes) :=
  if tokens.length < 7 then .ok none
  else do
    let mname ← index tokens 0
    let rname ← index tokens 1
    let serial ← index tokens 2
    match parseU32 serial with
    | none => .ok none
    | some serial =>
      let refresh ← (index tokens 3).bind parseTtl
      let retry ← (index tokens 4).bind parseTtl
      let expire ← (index tokens 5).bind parseTtl
      let minimum ← (index tokens 6).bind parseTtl
      .ok (some (Builder.name (fqdn mname origin) ++ Builder.name (fqdn rname origin) ++ Builder.u32 serial
        ++ Builder.u32 refresh ++ Builder.u32 retry ++ Builder.u32 expire ++ Builder.u32 minimum))

def srvRdata (origin : Text) (tokens : List Text) : Except Crash (Option Bytes) :=
  if tokens.length < 4 then .ok none
  else do
    let priority ← index tokens 0
    match parseU16 priority with
    | none => .ok none
    | some priority =>
      let weight ← index tokens 1
      match parseU16 weight with
      | none => .ok none
      | some weight =>
        let port ← index tokens 2
        match parseU16 port with
        | none => .ok none
        | some port =>
          let target ← index tokens 3
          .ok (some (Builder.u16 priority ++ Builder.u16 weight ++ Builder.u16 port
            ++ Builder.name (fqdn target origin)))

/-- The three numbers in front of the digest of a DS record and of the key of a DNSKEY record. -/
def keyFields (tokens : List Text) : Except Crash (Option (UInt16 × UInt8 × UInt8)) := do
  let a ← index tokens 0
  match parseU16 a with
  | none => .ok none
  | some a =>
    let b ← index tokens 1
    match parseU8 b with
    | none => .ok none
    | some b =>
      let c ← index tokens 2
      match parseU8 c with
      | none => .ok none
      | some c => .ok (some (a, b, c))

def dsRdata (tokens : List Text) : Except Crash (Option Bytes) :=
  if tokens.length < 4 then .ok none
  else do
    match ← keyFields tokens with
    | none => .ok none
    | some (tag, algorithm, digestType) =>
      let digest ← (index tokens 3).bind hexDecodeField
      .ok (digest.map fun digest =>
        Builder.u16 tag ++ Builder.u8 algorithm ++ Builder.u8 digestType ++ Builder.raw digest)

def dnskeyRdata (tokens : List Text) : Except Crash (Option Bytes) :=
  if tokens.length < 4 then .ok none
  else do
    match ← keyFields tokens with
    | none => .ok none
    | some (flags, protocol, algorithm) =>
      let key ← (sliceFrom tokens 3).bind fun keys => base64Decode keys.flatten
      .ok (key.map fun key => Builder.u16 flags ++ Builder.u8 protocol ++ Builder.u8 algorithm ++ Builder.raw key)

def buildRdata (rtype : Text) (tokens : List Text) (origin : Text) : Except Crash (Option Bytes) :=
  match strToRtype rtype with
  | .A => (index tokens 0).map (parseWith readIpv4)
  | .AAAA => (index tokens 0).map (parseWith readIpv6)
  | .NS | .CNAME | .PTR => (index tokens 0).map fun target => some (encodeName (fqdn target origin))
  | .MX => mxRdata origin tokens
  | .SOA => soaRdata origin tokens
  | .TXT => .ok (some (tokens.flatMap txtField))
  | .SRV => srvRdata origin tokens
  | .DS => dsRdata tokens
  | .DNSKEY => dnskeyRdata tokens
  | _ => .ok none

/-! The loader. -/

/-- The TTL and the index behind it. -/
def ttlField (defaultTtl : UInt32) (tokens : List Text) (idx : Nat) : Except Crash (UInt32 × Nat) :=
  match tokens[idx]? with
  | none => .ok (defaultTtl, idx)
  | some t =>
    match parseU32 t with
    | some n => .ok (n, idx + 1)
    | none =>
      if (t.getLast?.bind ttlUnit).isSome then (parseTtl t).map fun ttl => (ttl, idx + 1) else .ok (defaultTtl, idx)

def classField (tokens : List Text) (idx : Nat) : Nat :=
  match tokens[idx]? with
  | some cls => if isClass cls then idx + 1 else idx
  | none => idx

/-- The record of a line from its type on, at the index. -/
def parseData (origin name : Text) (ttl : UInt32) (tokens : List Text) (idx : Nat) : Except Crash (Option Record) :=
  match tokens[idx]? with
  | none => .ok none
  | some rtypeToken => do
    let rtypeStr := toUppercase rtypeToken
    let rdataTokens ← sliceFrom tokens (idx + 1)
    if rdataTokens = [] then .ok none
    else
      (buildRdata rtypeStr rdataTokens origin).map fun rdata => rdata.map fun rdata =>
        { name := name, rtype := strToRtype rtypeStr, rclass := CLASS_IN, ttl := ttl, rdata := rdata }

def parseRecord (origin lastName : Text) (defaultTtl : UInt32) (ownerIsBlank : Bool) (tokens : List Text) :
    Except Crash (Text × Option Record) :=
  if tokens.length < 2 then .ok (lastName, none)
  else do
    let first ← index tokens 0
    let named := !ownerIsBlank && !isType first && !isClass first
    let name := if named then ownerName first origin else lastName
    let (ttl, idx) ← ttlField defaultTtl tokens (if named then 1 else 0)
    (parseData origin name ttl tokens (classField tokens idx)).map fun r => (name, r)

def loadText (s : LoadState) (recordText : Text) : Except Crash LoadState :=
  let ownerIsBlank := recordText.head?.any isWhitespace
  let line := trim recordText
  if line = [] then .ok s
  else if ['$', 'O', 'R', 'I', 'G', 'I', 'N'].isPrefixOf line then
    match (splitWhitespace line)[1]? with
    | some o =>
      let origin := toAsciiLowercase (trimEndMatches '.' o)
      .ok { s with origin := origin, zone := { s.zone with origin := origin } }
    | none => .ok s
  else if ['$', 'T', 'T', 'L'].isPrefixOf line then
    match (splitWhitespace line)[1]? with
    | some t => (parseTtl t).map fun ttl => { s with defaultTtl := ttl }
    | none => .ok s
  else if line.head? = some '$' then .ok s
  else do
    match ← parseRecord s.origin s.lastName s.defaultTtl ownerIsBlank (tokenizeZoneLine line) with
    | (lastName, none) => .ok { s with lastName := lastName }
    | (lastName, some r) => .ok { s with lastName := lastName, zone := s.zone.add r }

def loadLine (s : LoadState) (rawLine : Text) : Except Crash LoadState := do
  let withoutComment ← stripZoneComment rawLine
  if s.pending = [] ∧ trim withoutComment = [] then .ok s
  else do
    let pending := s.pending ++ withoutComment ++ [' ']
    let openParentheses ← (parenthesisBalance withoutComment).bind (addI32 s.openParentheses)
    if openParentheses > 0 then .ok { s with pending := pending, openParentheses := openParentheses }
    else loadText { s with pending := [], openParentheses := 0 } pending

def loadFile (z : Zone) (content : Text) : Except Crash Zone := do
  let s ← (lines content).foldlM loadLine
    { zone := z, defaultTtl := 3600, origin := z.origin, lastName := z.origin, pending := [], openParentheses := 0 }
  pure s.zone

end Checked

/-! The scanners are safe, but for the count of parentheses. -/

theorem commentIndex_cut : ∀ (rest : Text) (quoted escaped : Bool) (i : Nat),
    (Checked.commentIndex quoted escaped i rest = none ∧ stripCommentLoop quoted escaped rest = rest) ∨
      ∃ a b, rest = a ++ b ∧ Checked.commentIndex quoted escaped i rest = some (i + (utf8 a).length) ∧
        stripCommentLoop quoted escaped rest = a
  | [], quoted, escaped, i => .inl ⟨by cases escaped <;> rfl, by cases escaped <;> rfl⟩
  | c :: rest, quoted, escaped, i => by
    have hstep : ∀ quoted' escaped',
        Checked.commentIndex quoted escaped i (c :: rest) = Checked.commentIndex quoted' escaped' (i + c.utf8Size) rest →
        stripCommentLoop quoted escaped (c :: rest) = c :: stripCommentLoop quoted' escaped' rest →
        (Checked.commentIndex quoted escaped i (c :: rest) = none ∧
            stripCommentLoop quoted escaped (c :: rest) = c :: rest) ∨
          ∃ a b, c :: rest = a ++ b ∧ Checked.commentIndex quoted escaped i (c :: rest) = some (i + (utf8 a).length) ∧
            stripCommentLoop quoted escaped (c :: rest) = a := by
      intro quoted' escaped' hindex hstrip
      rw [hindex, hstrip]
      obtain ⟨hnone, hall⟩ | ⟨a, b, rfl, hsome, hcut⟩ := commentIndex_cut rest quoted' escaped' (i + c.utf8Size)
      · exact .inl ⟨hnone, by rw [hall]⟩
      · refine .inr ⟨c :: a, b, rfl, ?_, by rw [hcut]⟩
        rw [hsome, utf8_length_cons, Nat.add_assoc]
    cases escaped with
    | true => exact hstep quoted false rfl rfl
    | false =>
      by_cases hsemi : c = ';' ∧ (!quoted) = true
      · refine .inr ⟨[], c :: rest, rfl, ?_, ?_⟩
        · rw [Checked.commentIndex, if_pos hsemi]
          rfl
        · rw [stripCommentLoop, if_pos hsemi]
      · apply hstep (toggles quoted c) (c = '\\')
        · rw [Checked.commentIndex, if_neg hsemi]
        · rw [stripCommentLoop, if_neg hsemi]

/-- The comment is cut in front of its semicolon, which is between two characters. -/
theorem stripZoneComment_run (line : Text) : Checked.stripZoneComment line = .ok (stripZoneComment line) := by
  obtain ⟨hnone, hall⟩ | ⟨a, b, rfl, hsome, hcut⟩ := commentIndex_cut line false false 0
  · rw [Checked.stripZoneComment, hnone, stripZoneComment, hall]
  · have hslice : sliceOctets (a ++ b) 0 (utf8 a).length = some a := by
      rw [sliceOctets_zero, splitOctets_append]
      rfl
    rw [Checked.stripZoneComment, hsome, stripZoneComment, hcut, Nat.zero_add]
    simp only [Checked.slice, hslice]

/-- At no point of a line does its count of parentheses leave 32 bits. -/
def BalanceFits (line : Text) : Prop := ∀ part, part <+: line → Checked.FitsI32 (parenthesisBalance part)

theorem addI32_agrees (a b : Int) :
    Agrees (Checked.FitsI32 (a + b)) (Checked.addI32 a b) (.ok (a + b) : Except Panic Int) := by
  intro c
  unfold Checked.addI32
  split <;> simp_all

theorem forall_prefix_cons {c : Char} {rest : Text} {P : Text → Prop} :
    (∀ part, part <+: c :: rest → P part) ↔ P [] ∧ ∀ part, part <+: rest → P (c :: part) := by
  constructor
  · intro h
    exact ⟨h [] List.nil_prefix, fun part hp => h (c :: part) (List.cons_prefix_cons.mpr ⟨rfl, hp⟩)⟩
  · intro h part hp
    cases part with
    | nil => exact h.1
    | cons d part =>
      obtain ⟨rfl, hpart⟩ := List.cons_prefix_cons.mp hp
      exact h.2 part hpart

theorem balanceLoop_agrees : ∀ (rest : Text) (quoted escaped : Bool) (balance : Int), Checked.FitsI32 balance →
    Agrees (∀ part, part <+: rest → Checked.FitsI32 (balanceLoop quoted escaped balance part))
      (Checked.balanceLoop quoted escaped balance rest) (.ok (balanceLoop quoted escaped balance rest) : Except Panic Int)
  | [], quoted, escaped, balance, hfits => by
    have hnil : ∀ part, part <+: ([] : Text) → Checked.FitsI32 (balanceLoop quoted escaped balance part) := by
      intro part hp
      rw [List.prefix_nil.mp hp, balanceLoop]
      exact hfits
    cases escaped <;> exact (Agrees.ok balance).congr ⟨fun _ => hnil, fun _ => trivial⟩
  | c :: rest, quoted, true, balance, hfits => by
    refine (balanceLoop_agrees rest quoted false balance hfits).congr ?_
    rw [forall_prefix_cons, balanceLoop]
    exact ⟨fun h => ⟨hfits, h⟩, fun h => h.2⟩
  | c :: rest, quoted, false, balance, hfits => by
    let step : Int := if quoted then 0 else if c = '(' then 1 else if c = ')' then -1 else 0
    have hstep : Agrees (Checked.FitsI32 (balance + step)) (Checked.balanceStep quoted balance c)
        (.ok (balance + step) : Except Panic Int) := by
      simp only [step, Checked.balanceStep]
      split
      · rw [Int.add_zero]
        exact (Agrees.ok balance).congr ⟨fun _ => hfits, fun _ => trivial⟩
      split
      · exact addI32_agrees balance 1
      split
      · exact addI32_agrees balance (-1)
      · rw [Int.add_zero]
        exact (Agrees.ok balance).congr ⟨fun _ => hfits, fun _ => trivial⟩
    by_cases hnext : Checked.FitsI32 (balance + step)
    · have hrest := balanceLoop_agrees rest (toggles quoted c) (c = '\\') (balance + step) hnext
      refine (hstep.bind_ok (f := fun b => Checked.balanceLoop (toggles quoted c) (c = '\\') b rest) hrest).congr ?_
      rw [forall_prefix_cons, balanceLoop]
      exact ⟨fun h => ⟨hfits, h.2⟩, fun h => ⟨hnext, h.2⟩⟩
    · -- the count leaves its range at this character
      have hbad : ¬ ∀ part, part <+: c :: rest → Checked.FitsI32 (balanceLoop quoted false balance part) := by
        intro h
        have := h [c] (List.cons_prefix_cons.mpr ⟨rfl, List.nil_prefix⟩)
        rw [balanceLoop] at this
        exact hnext (by simpa only [balanceLoop] using this)
      intro a
      constructor
      · intro ha
        cases hs : Checked.balanceStep quoted balance c with
        | ok b => exact absurd ((hstep b).mp hs).1 hnext
        | error e =>
          rw [Checked.balanceLoop, hs] at ha
          cases ha
      · intro ha
        exact absurd ha.1 hbad

theorem parenthesisBalance_agrees (line : Text) :
    Agrees (BalanceFits line) (Checked.parenthesisBalance line) (.ok (parenthesisBalance line) : Except Panic Int) :=
  balanceLoop_agrees line false false 0 (by decide)

/-! TTLs. -/

/-- A TTL's seconds fit 32 bits. -/
def TtlFits (s : Text) : Prop :=
  ∀ mult, s.getLast?.bind ttlUnit = some mult → ((parseU32 s.dropLast).getD 3600).toNat * mult.toNat < 2 ^ 32

theorem mulU32_agrees (a b : UInt32) :
    Agrees (a.toNat * b.toNat < 2 ^ 32) (Checked.mulU32 a b) (.ok (a * b) : Except Panic UInt32) := by
  intro c
  unfold Checked.mulU32
  split <;> simp_all

theorem utf8Size_of_ttlUnit {c : Char} {mult : UInt32} (h : ttlUnit c = some mult) : c.utf8Size = 1 := by
  rw [← utf8_length_toLower]
  unfold ttlUnit at h
  split at h
  case h_6 => cases h
  all_goals next heq => rw [heq]; rfl

/-- A TTL is cut in front of its unit, an ASCII letter. -/
theorem parseTtl_agrees (s : Text) : Agrees (TtlFits s) (Checked.parseTtl s) (.ok (parseTtl s) : Except Panic UInt32) := by
  unfold Checked.parseTtl parseTtl TtlFits
  cases hunit : s.getLast?.bind ttlUnit with
  | none =>
    refine (mulU32_agrees ((parseU32 s).getD 3600) 1).congr ?_
    have := ((parseU32 s).getD 3600).toNat_lt
    constructor
    · intro _ mult h
      cases h
    · intro _
      show ((parseU32 s).getD 3600).toNat * 1 < 2 ^ 32
      rwa [Nat.mul_one]
  | some mult =>
    obtain ⟨c, hc, hmult⟩ := Option.bind_eq_some_iff.mp hunit
    have hs : s.dropLast ++ [c] = s := List.dropLast_append_getLast? c hc
    have hlen : (utf8 s).length - 1 = (utf8 s.dropLast).length := by
      rw [← hs, utf8_append, List.length_append, utf8_length_cons, utf8Size_of_ttlUnit hmult, List.dropLast_concat]
      rfl
    have hslice : Checked.slice s 0 ((utf8 s).length - 1) = .ok s.dropLast := by
      have : sliceOctets s 0 (utf8 s.dropLast).length = some s.dropLast := by
        rw [sliceOctets_zero, splitOctets_eq_some.mpr ⟨hs.symm, rfl⟩]
        rfl
      rw [hlen]
      simp only [Checked.slice, this]
    simp only [hslice]
    refine (mulU32_agrees ((parseU32 s.dropLast).getD 3600) mult).congr ?_
    exact ⟨fun h mult' heq => by rwa [← Option.some.inj heq], fun h => h mult rfl⟩

/-! Hexadecimal and base64. -/

theorem hexPairs_two {hi : Char} (h : hi.utf8Size = 2) (rest : Text) : hexPairs (hi :: rest) = .ok none := by
  unfold hexPairs
  rw [if_pos h]

theorem hexPairs_pair {hi lo : Char} (h : hi.utf8Size = 1) (h' : lo.utf8Size = 1) (rest : Text) :
    hexPairs (hi :: lo :: rest) =
      (hexPair hi lo).elim (.ok none) fun b => (hexPairs rest).map fun bs => bs.map (b :: ·) := by
  conv => lhs; unfold hexPairs
  simp only [h, h', ne_eq, not_true_eq_false, if_false, Nat.reduceEqDiff]
  cases hexPair hi lo <;> rfl

/-- The first two octets of a text end within a character. -/
def CutsCharacter (t : Text) : Prop :=
  (∃ c rest, t = c :: rest ∧ 2 < c.utf8Size) ∨ ∃ c d rest, t = c :: d :: rest ∧ c.utf8Size = 1 ∧ d.utf8Size ≠ 1

theorem hexPairs_cut {t : Text} (h : CutsCharacter t) : hexPairs t = .error .notCharBoundary := by
  obtain ⟨c, rest, rfl, hc⟩ | ⟨c, d, rest, rfl, hc, hd⟩ := h
  · unfold hexPairs
    rw [if_neg (by omega), if_pos (by omega)]
  · unfold hexPairs
    simp only [hc, ne_eq, not_true_eq_false, if_false, Nat.reduceEqDiff, hd, not_false_eq_true, if_true]

theorem splitOctets_cut {t : Text} (h : CutsCharacter t) : splitOctets 2 t = none := by
  obtain ⟨c, rest, rfl, hc⟩ | ⟨c, d, rest, rfl, hc, hd⟩ := h
  · rw [splitOctets, if_neg (by omega)]
  · have := d.utf8Size_pos
    rw [splitOctets, if_pos (by omega), hc, splitOctets, if_neg (by omega)]
    rfl

/-- Two octets of a text are a character, two of one octet each, or cut a character. -/
theorem two_octets {t : Text} (h : 2 ≤ (utf8 t).length) :
    (∃ c rest, t = c :: rest ∧ c.utf8Size = 2) ∨
      (∃ c d rest, t = c :: d :: rest ∧ c.utf8Size = 1 ∧ d.utf8Size = 1) ∨ CutsCharacter t := by
  cases t with
  | nil =>
    rw [utf8_nil, List.length_nil] at h
    omega
  | cons c rest =>
    have hpos := c.utf8Size_pos
    rw [utf8_length_cons] at h
    by_cases h2 : c.utf8Size = 2
    · exact .inl ⟨c, rest, rfl, h2⟩
    · by_cases h1 : c.utf8Size = 1
      · cases rest with
        | nil =>
          rw [utf8_nil, List.length_nil] at h
          omega
        | cons d rest =>
          by_cases hd : d.utf8Size = 1
          · exact .inr (.inl ⟨c, d, rest, rfl, h1, hd⟩)
          · exact .inr (.inr (.inr ⟨c, d, rest, rfl, h1, hd⟩))
      · exact .inr (.inr (.inl ⟨c, rest, rfl, by omega⟩))

theorem hexLoop_agrees : ∀ (n : Nat) (a b : Text), (utf8 b).length = 2 * n →
    Agrees True (Checked.hexLoop (a ++ b) (List.range' (utf8 a).length n 2)) (hexPairs b)
  | 0, a, b, hlen => by
    have hb : b = [] := utf8_eq_nil.mp (List.length_eq_zero_iff.mp (by omega))
    rw [hb, hexPairs]
    exact Agrees.ok _
  | n + 1, a, b, hlen => by
    have hslice : Checked.slice (a ++ b) (utf8 a).length ((utf8 a).length + 2) =
        ((splitOctets 2 b).map Prod.fst).elim (.error (.panic .notCharBoundary)) .ok := by
      rw [Checked.slice, sliceOctets_eq]
      cases splitOctets 2 b <;> rfl
    rw [List.range'_succ, Checked.hexLoop, hslice]
    obtain ⟨c, rest, rfl, hc⟩ | ⟨hi, lo, rest, rfl, hhi, hlo⟩ | hcuts := two_octets (show 2 ≤ (utf8 b).length by omega)
    · -- one character of two octets, which is no number
      have hcut : splitOctets 2 (c :: rest) = some ([c], rest) :=
        splitOctets_eq_some.mpr ⟨rfl, by rw [utf8_length_cons, hc]; rfl⟩
      rw [hcut, hexPairs_two hc]
      exact Agrees.ok none
    · have hcut : splitOctets 2 (hi :: lo :: rest) = some ([hi, lo], rest) :=
        splitOctets_eq_some.mpr ⟨rfl, by rw [utf8_length_cons, utf8_length_cons, hhi, hlo]; rfl⟩
      have hlength : (utf8 (a ++ [hi, lo])).length = (utf8 a).length + 2 := by
        rw [utf8_append, List.length_append, utf8_length_cons, utf8_length_cons, hhi, hlo]
        rfl
      rw [utf8_length_cons, utf8_length_cons] at hlen
      have ih := hexLoop_agrees n (a ++ [hi, lo]) rest (by omega)
      rw [hlength, List.append_assoc, List.cons_append, List.cons_append, List.nil_append] at ih
      rw [hcut, hexPairs_pair hhi hlo]
      cases hpair : hexPair hi lo with
      | none =>
        simp only [Option.map_some, Option.elim_some, Option.elim_none, bind, Except.bind, hpair]
        exact Agrees.ok none
      | some v =>
        simp only [Option.map_some, Option.elim_some, bind, Except.bind, hpair]
        exact ih.map' _
    · rw [splitOctets_cut hcuts, hexPairs_cut hcuts]
      exact Agrees.error

/-- The digits are cut pair by pair. -/
theorem hexDecodeField_agrees (s : Text) : Agrees True (Checked.hexDecodeField s) (hexDecodeField s) := by
  unfold Checked.hexDecodeField hexDecodeField
  dsimp only
  split
  · exact Agrees.ok none
  · exact hexLoop_agrees ((utf8 (s.filter (· ≠ ' '))).length / 2) [] (s.filter (· ≠ ' ')) (by omega)

/-- No digit's value leaves its octet. -/
theorem base64Value_run (b : UInt8) :
    ∃ v : Option UInt8, Checked.base64Value b = .ok v ∧ base64Value b = v.map UInt8.toUInt32 := by
  have hcase : ∀ n : Fin 256, (Checked.base64Value (UInt8.ofNat n.val)).map (fun v => v.map UInt8.toUInt32) =
      .ok (base64Value (UInt8.ofNat n.val)) := by decide +kernel
  have h := hcase ⟨b.toNat, b.toNat_lt⟩
  rw [UInt8.ofNat_toNat] at h
  cases hv : Checked.base64Value b with
  | error e =>
    rw [hv] at h
    cases h
  | ok v =>
    rw [hv] at h
    exact ⟨v, rfl, (Except.ok.inj h).symm⟩

theorem base64Chunks_run : ∀ bytes : Bytes, bytes.length % 4 = 0 →
    Checked.base64Chunks (Checked.chunksOfFour bytes) = .ok (base64Chunks bytes)
  | [], _ => rfl
  | [_], h => by simp at h
  | [_, _], h => by simp at h
  | [_, _, _], h => by simp at h
  | c0 :: c1 :: c2 :: c3 :: rest, h => by
    have ih := base64Chunks_run rest (by simp only [List.length_cons] at h; omega)
    obtain ⟨a, ha, ha'⟩ := base64Value_run c0
    obtain ⟨b, hb, hb'⟩ := base64Value_run c1
    obtain ⟨c, hc, hc'⟩ := base64Value_run c2
    obtain ⟨d, hd, hd'⟩ := base64Value_run c3
    rw [Checked.chunksOfFour, Checked.base64Chunks, base64Chunks, ih, ha', hb', hc', hd', Checked.base64Chunk]
    simp only [Checked.index, List.getElem?_cons_zero, List.getElem?_cons_succ, bind, Except.bind, ha]
    cases a with
    | none => rfl
    | some a =>
      simp only [hb]
      cases b with
      | none => rfl
      | some b =>
        simp only [hc]
        cases c with
        | none => rfl
        | some c =>
          simp only [hd]
          cases d with
          | none => rfl
          | some d => cases base64Chunks rest <;> simp [Except.map]

theorem base64Chunks_none : ∀ bytes : Bytes, bytes.length % 4 ≠ 0 → base64Chunks bytes = none
  | [], h => absurd rfl h
  | [_], _ => rfl
  | [_, _], _ => rfl
  | [_, _, _], _ => rfl
  | c0 :: c1 :: c2 :: c3 :: rest, h => by
    have ih := base64Chunks_none rest (by simp only [List.length_cons] at h; omega)
    rw [base64Chunks, ih]
    cases base64Value c0 <;> cases base64Value c1 <;> cases base64Value c2 <;> cases base64Value c3 <;> rfl

/-- A chunk has the four octets that are read of it. -/
theorem base64Decode_run (s : Text) : Checked.base64Decode s = .ok (base64Decode s) := by
  unfold Checked.base64Decode base64Decode
  dsimp only
  split
  · next h => rw [base64Chunks_none _ h]
  · next h => exact base64Chunks_run _ (not_not.mp h)

/-! RDATA. -/

/-- The times of an SOA record that is read so far fit 32 bits. -/
def SoaFits (tokens : List Text) : Prop :=
  7 ≤ tokens.length → (parseU32 (tokens.getD 2 [])).isSome → ∀ t ∈ (tokens.drop 3).take 4, TtlFits t

/-- Pairs of hexadecimal digits. -/
inductive HexPairs : Text → Prop where
  | nil : HexPairs []
  | pair {hi lo : Char} {rest : Text} (hhi : hi.utf8Size = 1) (hlo : lo.utf8Size = 1) (h : (hexPair hi lo).isSome)
      (hrest : HexPairs rest) : HexPairs (hi :: lo :: rest)

/-- Behind the pairs of digits a text starts with, the next two octets cut no character. -/
def HexWhole (s : Text) : Prop := ∀ digits rest, s = digits ++ rest → HexPairs digits → ¬ CutsCharacter rest

/-- The digest of a DS record, without its blanks, can be cut pair by pair as far as it is read. -/
def DigestWhole (tokens : List Text) : Prop :=
  ∀ tag algorithm digestType digest rest, tokens = tag :: algorithm :: digestType :: digest :: rest →
    (parseU16 tag).isSome → (parseU8 algorithm).isSome → (parseU8 digestType).isSome →
    (utf8 (digest.filter (· ≠ ' '))).length % 2 = 0 → HexWhole (digest.filter (· ≠ ' '))

/-- Nothing goes wrong while the data of a type is built. -/
structure RdataSafe (rtype : Text) (tokens : List Text) : Prop where
  soa : strToRtype rtype = .SOA → SoaFits tokens
  mx : strToRtype rtype = .MX → (parseU16 (tokens.headD [])).isSome → 2 ≤ tokens.length
  ds : strToRtype rtype = .DS → DigestWhole tokens

theorem four_tokens {tokens : List Text} (h : ¬ tokens.length < 4) :
    ∃ a b c d rest, tokens = a :: b :: c :: d :: rest := by
  rcases tokens with _ | ⟨a, _ | ⟨b, _ | ⟨c, _ | ⟨d, rest⟩⟩⟩⟩
  all_goals first | exact ⟨_, _, _, _, _, rfl⟩ | exact absurd (by simp) h

theorem hexPairs_ok_iff (s : Text) : (∃ o, hexPairs s = .ok o) ↔ HexWhole s := by
  constructor
  · intro h digits rest hs hdigits
    induction hdigits generalizing s with
    | nil =>
      intro hcut
      obtain ⟨o, ho⟩ := h
      rw [hs, List.nil_append, hexPairs_cut hcut] at ho
      cases ho
    | @pair hi lo digits hhi hlo hpair _ ih =>
      obtain ⟨o, ho⟩ := h
      obtain ⟨v, hv⟩ := Option.isSome_iff_exists.mp hpair
      rw [hs, List.cons_append, List.cons_append, hexPairs_pair hhi hlo, hv, Option.elim_some] at ho
      apply ih (digits ++ rest) ?_ rfl
      cases hrest : hexPairs (digits ++ rest) with
      | error e => rw [hrest] at ho; cases ho
      | ok o => exact ⟨o, rfl⟩
  · intro h
    induction hn : s.length using Nat.strong_induction_on generalizing s with
    | _ n ih =>
      by_cases hlen : 2 ≤ (utf8 s).length
      · obtain ⟨c, rest, rfl, hc⟩ | ⟨hi, lo, rest, rfl, hhi, hlo⟩ | hcut := two_octets hlen
        · exact ⟨none, hexPairs_two hc rest⟩
        · rw [hexPairs_pair hhi hlo]
          cases hpair : hexPair hi lo with
          | none => exact ⟨none, rfl⟩
          | some v =>
            have hrest : HexWhole rest := by
              intro digits rest' hs hdigits
              have hpair' : (hexPair hi lo).isSome := by rw [hpair]; rfl
              exact h (hi :: lo :: digits) rest' (by rw [hs]; rfl) (.pair hhi hlo hpair' hdigits)
            obtain ⟨o, ho⟩ := ih rest.length (by rw [← hn, List.length_cons, List.length_cons]; omega) rest hrest rfl
            exact ⟨_, by rw [Option.elim_some, ho]; rfl⟩
        · exact absurd hcut (h [] s rfl .nil)
      · -- nothing, or one character of one octet, which is no pair
        cases s with
        | nil => exact ⟨_, rfl⟩
        | cons c rest =>
          rw [utf8_length_cons] at hlen
          have hpos := c.utf8Size_pos
          have hrest : rest = [] := utf8_eq_nil.mp (List.length_eq_zero_iff.mp (by omega))
          have hc : c.utf8Size = 1 := by omega
          refine ⟨none, ?_⟩
          rw [hrest]
          unfold hexPairs
          rw [if_neg (by omega), if_neg (by omega)]

theorem hexDecodeField_ok_iff (s : Text) : (∃ o, hexDecodeField s = .ok o) ↔
    ((utf8 (s.filter (· ≠ ' '))).length % 2 = 0 → HexWhole (s.filter (· ≠ ' '))) := by
  unfold hexDecodeField
  dsimp only
  by_cases hodd : (utf8 (s.filter (· ≠ ' '))).length % 2 = 0
  · rw [if_neg (not_not_intro hodd), hexPairs_ok_iff]
    exact ⟨fun h _ => h, fun h => h hodd⟩
  · rw [if_pos hodd]
    exact ⟨fun _ h => absurd h hodd, fun _ => ⟨none, rfl⟩⟩

theorem dsRdata_ok_iff (tokens : List Text) : (∃ o, dsRdata tokens = .ok o) ↔ DigestWhole tokens := by
  by_cases hlen : tokens.length < 4
  · constructor
    · intro _ a b c d rest heq
      rw [heq] at hlen
      simp only [List.length_cons] at hlen
      omega
    · intro _
      refine ⟨none, ?_⟩
      unfold dsRdata
      split
      · simp only [List.length_cons] at hlen
        omega
      · rfl
  · obtain ⟨tag, algorithm, digestType, digest, rest, rfl⟩ := four_tokens hlen
    have hwhole : DigestWhole (tag :: algorithm :: digestType :: digest :: rest) ↔
        ((parseU16 tag).isSome → (parseU8 algorithm).isSome → (parseU8 digestType).isSome →
          ∃ o, hexDecodeField digest = .ok o) := by
      rw [hexDecodeField_ok_iff]
      constructor
      · intro h
        exact h tag algorithm digestType digest rest rfl
      · intro h a b c d rest' heq
        cases heq
        exact h
    rw [hwhole, dsRdata]
    cases parseU16 tag with
    | none => exact ⟨fun _ h => absurd h (by simp), fun _ => ⟨none, rfl⟩⟩
    | some t =>
      cases parseU8 algorithm with
      | none => exact ⟨fun _ _ h => absurd h (by simp), fun _ => ⟨none, rfl⟩⟩
      | some a =>
        cases parseU8 digestType with
        | none => exact ⟨fun _ _ _ h => absurd h (by simp), fun _ => ⟨none, rfl⟩⟩
        | some d =>
          dsimp only
          cases hexDecodeField digest with
          | error e =>
            constructor
            · intro h
              obtain ⟨o, ho⟩ := h
              cases ho
            · intro h
              obtain ⟨o, ho⟩ := h rfl rfl rfl
              cases ho
          | ok o => exact ⟨fun _ _ _ _ => ⟨o, rfl⟩, fun _ => ⟨_, rfl⟩⟩

theorem mxRdata_ok_iff (origin first : Text) (rest : List Text) : (∃ o, mxRdata origin (first :: rest) = .ok o) ↔
    ((parseU16 first).isSome → 2 ≤ (first :: rest).length) := by
  unfold mxRdata
  rw [List.headD_cons]
  cases parseU16 first with
  | none => exact ⟨fun _ h => absurd h (by simp), fun _ => ⟨none, rfl⟩⟩
  | some pref =>
    cases rest with
    | nil =>
      constructor
      · intro h
        obtain ⟨o, ho⟩ := h
        cases ho
      · intro h
        exact absurd (h rfl) (by simp)
    | cons exchange rest => exact ⟨fun _ _ => by simp, fun _ => ⟨_, rfl⟩⟩

theorem mxRdata_agrees (origin first : Text) (rest : List Text) :
    Agrees True (Checked.mxRdata origin (first :: rest)) (mxRdata origin (first :: rest)) := by
  unfold Checked.mxRdata mxRdata
  simp only [Checked.index, List.getElem?_cons_zero, List.headD_cons, bind, Except.bind]
  cases parseU16 first with
  | none => exact Agrees.ok none
  | some pref =>
    cases rest with
    | nil => exact Agrees.error
    | cons exchange rest => exact Agrees.ok _

theorem Checked.ok_bind {α β : Type} (a : α) (f : α → Except Checked.Crash β) : (Except.ok a >>= f) = f a := rfl

theorem soaRdata_agrees (origin : Text) (tokens : List Text) :
    Agrees (SoaFits tokens) (Checked.soaRdata origin tokens)
      (.ok (soaRdata origin tokens) : Except Panic (Option Bytes)) := by
  by_cases hlen : tokens.length < 7
  · have hnone : soaRdata origin tokens = none := by
      unfold soaRdata
      split
      · simp only [List.length_cons] at hlen
        omega
      · rfl
    rw [Checked.soaRdata, if_pos hlen, hnone]
    exact (Agrees.ok none).congr ⟨fun _ h => absurd hlen (Nat.not_lt.mpr h), fun _ => trivial⟩
  · obtain ⟨mname, rname, serial, refresh, retry, expire, minimum, rest, rfl⟩ : ∃ a b c d e f g rest,
        tokens = a :: b :: c :: d :: e :: f :: g :: rest := by
      rcases tokens with _ | ⟨a, _ | ⟨b, _ | ⟨c, _ | ⟨d, _ | ⟨e, _ | ⟨f, _ | ⟨g, rest⟩⟩⟩⟩⟩⟩⟩
      all_goals first | exact ⟨_, _, _, _, _, _, _, _, rfl⟩ | exact absurd (by simp) hlen
    rw [Checked.soaRdata, if_neg hlen, soaRdata]
    simp only [Checked.index, List.getElem?_cons_zero, List.getElem?_cons_succ, Checked.ok_bind]
    cases hserial : parseU32 serial with
    | none =>
      refine (Agrees.ok none).congr ⟨fun _ _ h => ?_, fun _ => trivial⟩
      have h : (parseU32 serial).isSome := h
      rw [hserial] at h
      cases h
    | some n =>
      refine Agrees.congr ((parseTtl_agrees refresh).bind_ok <| (parseTtl_agrees retry).bind_ok <|
        (parseTtl_agrees expire).bind_ok <| (parseTtl_agrees minimum).bind_ok <| Agrees.ok _) ?_
      constructor
      · intro h _ _
        exact List.forall_mem_cons.mpr ⟨h.1, List.forall_mem_cons.mpr ⟨h.2.1, List.forall_mem_cons.mpr ⟨h.2.2.1,
          List.forall_mem_cons.mpr ⟨h.2.2.2.1, fun _ ht => absurd ht List.not_mem_nil⟩⟩⟩⟩
      · intro h
        have hserial' : (parseU32
            ((mname :: rname :: serial :: refresh :: retry :: expire :: minimum :: rest).getD 2 [])).isSome := by
          show (parseU32 serial).isSome
          rw [hserial]
          rfl
        have h := h (Nat.not_lt.mp hlen) hserial'
        exact ⟨h refresh (by simp), h retry (by simp), h expire (by simp), h minimum (by simp), trivial⟩

theorem srvRdata_agrees (origin : Text) (tokens : List Text) :
    Agrees True (Checked.srvRdata origin tokens) (.ok (srvRdata origin tokens) : Except Panic (Option Bytes)) := by
  by_cases hlen : tokens.length < 4
  · have hnone : srvRdata origin tokens = none := by
      unfold srvRdata
      split
      · simp only [List.length_cons] at hlen
        omega
      · rfl
    rw [Checked.srvRdata, if_pos hlen, hnone]
    exact Agrees.ok none
  · obtain ⟨priority, weight, port, target, rest, rfl⟩ := four_tokens hlen
    rw [Checked.srvRdata, if_neg hlen, srvRdata]
    simp only [Checked.index, List.getElem?_cons_zero, List.getElem?_cons_succ, Checked.ok_bind]
    cases parseU16 priority with
    | none => exact Agrees.ok none
    | some p =>
      cases parseU16 weight with
      | none => exact Agrees.ok none
      | some w =>
        cases parseU16 port with
        | none => exact Agrees.ok none
        | some q => exact Agrees.ok _

/-- The three numbers are read one after the other. -/
theorem keyFields_run (a b c : Text) (rest : List Text) : Checked.keyFields (a :: b :: c :: rest) =
    .ok ((parseU16 a).bind fun a => (parseU8 b).bind fun b => (parseU8 c).map fun c => (a, b, c)) := by
  unfold Checked.keyFields
  simp only [Checked.index, List.getElem?_cons_zero, List.getElem?_cons_succ, Checked.ok_bind]
  cases parseU16 a with
  | none => rfl
  | some a =>
    cases parseU8 b with
    | none => rfl
    | some b => cases parseU8 c <;> rfl

theorem dsRdata_agrees (tokens : List Text) : Agrees True (Checked.dsRdata tokens) (dsRdata tokens) := by
  by_cases hlen : tokens.length < 4
  · have hnone : dsRdata tokens = .ok none := by
      unfold dsRdata
      split
      · simp only [List.length_cons] at hlen
        omega
      · rfl
    rw [Checked.dsRdata, if_pos hlen, hnone]
    exact Agrees.ok none
  · obtain ⟨tag, algorithm, digestType, digest, rest, rfl⟩ := four_tokens hlen
    rw [Checked.dsRdata, if_neg hlen, dsRdata, keyFields_run]
    simp only [Checked.ok_bind]
    cases parseU16 tag with
    | none => exact Agrees.ok none
    | some t =>
      cases parseU8 algorithm with
      | none => exact Agrees.ok none
      | some a =>
        cases parseU8 digestType with
        | none => exact Agrees.ok none
        | some d =>
          have hindex : Checked.index (tag :: algorithm :: digestType :: digest :: rest) 3 = .ok digest := rfl
          simp only [Option.bind_some, Option.map_some, hindex]
          exact (hexDecodeField_agrees digest).map' _

theorem dnskeyRdata_agrees (tokens : List Text) :
    Agrees True (Checked.dnskeyRdata tokens) (.ok (dnskeyRdata tokens) : Except Panic (Option Bytes)) := by
  by_cases hlen : tokens.length < 4
  · have hnone : dnskeyRdata tokens = none := by
      unfold dnskeyRdata
      split
      · simp only [List.length_cons] at hlen
        omega
      · rfl
    rw [Checked.dnskeyRdata, if_pos hlen, hnone]
    exact Agrees.ok none
  · obtain ⟨flags, protocol, algorithm, key0, keys, rfl⟩ := four_tokens hlen
    rw [Checked.dnskeyRdata, if_neg hlen, dnskeyRdata, keyFields_run]
    simp only [Checked.ok_bind]
    cases parseU16 flags with
    | none => exact Agrees.ok none
    | some f =>
      cases parseU8 protocol with
      | none => exact Agrees.ok none
      | some p =>
        cases parseU8 algorithm with
        | none => exact Agrees.ok none
        | some a =>
          have hslice : Checked.sliceFrom (flags :: protocol :: algorithm :: key0 :: keys) 3 = .ok (key0 :: keys) :=
            if_pos (by simp)
          simp only [Option.bind_some, Option.map_some, hslice, Except.bind, base64Decode_run]
          cases base64Decode (key0 :: keys).flatten with
          | none => exact Agrees.ok none
          | some key => exact Agrees.ok _

/-- The data is built as the plain loader builds it, where it is safe. -/
theorem buildRdata_agrees (rtype origin first : Text) (rest : List Text) :
    Agrees (RdataSafe rtype (first :: rest)) (Checked.buildRdata rtype (first :: rest) origin)
      (buildRdata rtype (first :: rest) origin) := by
  have hindex : Checked.index (first :: rest) 0 = .ok first := rfl
  unfold Checked.buildRdata buildRdata
  simp only [hindex]
  -- a type other than the three is safe whatever the fields
  have hother : strToRtype rtype ≠ .SOA → strToRtype rtype ≠ .MX → strToRtype rtype ≠ .DS →
      RdataSafe rtype (first :: rest) := fun h1 h2 h3 => ⟨fun h => absurd h h1, fun h => absurd h h2, fun h => absurd h h3⟩
  cases hr : strToRtype rtype
  case SOA =>
    refine (soaRdata_agrees origin (first :: rest)).congr ⟨fun h => ⟨fun _ => h, ?_, ?_⟩, fun h => h.soa hr⟩ <;>
      (intro he; rw [hr] at he; cases he)
  case MX =>
    refine (mxRdata_agrees origin first rest).congr_ok fun o ho => ⟨fun _ => ⟨?_, ?_, ?_⟩, fun _ => trivial⟩
    · intro he; rw [hr] at he; cases he
    · intro _
      exact (mxRdata_ok_iff origin first rest).mp ⟨o, ho⟩
    · intro he; rw [hr] at he; cases he
  case DS =>
    refine (dsRdata_agrees (first :: rest)).congr_ok fun o ho => ⟨fun _ => ⟨?_, ?_, ?_⟩, fun _ => trivial⟩
    · intro he; rw [hr] at he; cases he
    · intro he; rw [hr] at he; cases he
    · intro _
      exact (dsRdata_ok_iff (first :: rest)).mp ⟨o, ho⟩
  all_goals
    refine Agrees.congr (P := True) ?_ ⟨fun _ => hother (by rw [hr]; simp) (by rw [hr]; simp) (by rw [hr]; simp),
      fun _ => trivial⟩
  case SRV => exact srvRdata_agrees origin (first :: rest)
  case DNSKEY => exact dnskeyRdata_agrees (first :: rest)
  all_goals exact Agrees.ok _

/-- Where it is safe the plain loader builds it without a panic. -/
theorem RdataSafe.ok {rtype first : Text} {rest : List Text} (h : RdataSafe rtype (first :: rest)) (origin : Text) :
    ∃ o, buildRdata rtype (first :: rest) origin = .ok o := by
  unfold buildRdata
  cases hr : strToRtype rtype
  case MX => exact (mxRdata_ok_iff origin first rest).mpr (h.mx hr)
  case DS => exact (dsRdata_ok_iff (first :: rest)).mpr (h.ds hr)
  all_goals exact ⟨_, rfl⟩

/-! Record lines. -/

/-- The fields of a record line behind its owner. -/
def fieldsBehindOwner (ownerIsBlank : Bool) (tokens : List Text) : List Text :=
  if tokens.length < 2 then []
  else if !ownerIsBlank && !isType (tokens.headD []) && !isClass (tokens.headD []) then tokens.tail else tokens

/-- Of the fields behind the owner, those from the type on. -/
def fieldsFromType (fields : List Text) : List Text := classField (ttlField 0 fields).2

def TtlFieldFits (fields : List Text) : Prop := ∀ t ∈ fields.head?, parseU32 t = none → TtlFits t

/-- Nothing goes wrong while a record line is read. -/
structure RecordSafe (ownerIsBlank : Bool) (tokens : List Text) : Prop where
  ttl : TtlFieldFits (fieldsBehindOwner ownerIsBlank tokens)
  data : ∀ rtype first rest, fieldsFromType (fieldsBehindOwner ownerIsBlank tokens) = rtype :: first :: rest →
    RdataSafe (toUppercase rtype) (first :: rest)

theorem ttlField_snd (d d' : UInt32) (fields : List Text) : (ttlField d fields).2 = (ttlField d' fields).2 := by
  cases fields with
  | nil => rfl
  | cons t rest =>
    rw [ttlField, ttlField]
    cases hn : parseU32 t with
    | some n => simp
    | none =>
      dsimp only
      by_cases hunit : (t.getLast?.bind ttlUnit).isSome
      · rw [if_pos hunit, if_pos hunit]
      · rw [if_neg hunit, if_neg hunit]

/-- The TTL field read by its index. -/
theorem ttlField_agrees (d : UInt32) (tokens : List Text) (idx : Nat) :
    ∃ idx', (ttlField d (tokens.drop idx)).2 = tokens.drop idx' ∧
      Agrees (TtlFieldFits (tokens.drop idx)) (Checked.ttlField d tokens idx)
        (.ok ((ttlField d (tokens.drop idx)).1, idx') : Except Panic (UInt32 × Nat)) := by
  unfold Checked.ttlField TtlFieldFits
  rw [List.head?_drop]
  cases ht : tokens[idx]? with
  | none =>
    have hnil : tokens.drop idx = [] := List.drop_eq_nil_iff.mpr (List.getElem?_eq_none_iff.mp ht)
    refine ⟨idx, by rw [hnil]; rfl, ?_⟩
    rw [hnil]
    refine (Agrees.ok (d, idx)).congr ⟨fun _ t h => ?_, fun _ => trivial⟩
    cases h
  | some t =>
    have hcons : tokens.drop idx = t :: tokens.drop (idx + 1) := by
      obtain ⟨h, rfl⟩ := List.getElem?_eq_some_iff.mp ht
      exact List.drop_eq_getElem_cons h
    rw [hcons]
    simp only [ttlField, Option.mem_some_iff, forall_eq']
    cases hn : parseU32 t with
    | some n =>
      refine ⟨idx + 1, rfl, (Agrees.ok (n, idx + 1)).congr ⟨fun _ h => ?_, fun _ => trivial⟩⟩
      cases h
    | none =>
      dsimp only
      by_cases hunit : (t.getLast?.bind ttlUnit).isSome
      · rw [if_pos hunit, if_pos hunit]
        refine ⟨idx + 1, rfl, Agrees.congr ((parseTtl_agrees t).map' fun ttl => (ttl, idx + 1)) ?_⟩
        exact ⟨fun h _ => h, fun h => h rfl⟩
      · rw [if_neg hunit, if_neg hunit]
        refine ⟨idx, hcons.symm, (Agrees.ok (d, idx)).congr ⟨fun _ _ mult hm => ?_, fun _ => trivial⟩⟩
        rw [hm] at hunit
        exact absurd rfl hunit

theorem classField_drop (tokens : List Text) (idx : Nat) :
    classField (tokens.drop idx) = tokens.drop (Checked.classField tokens idx) := by
  unfold Checked.classField
  cases ht : tokens[idx]? with
  | none =>
    rw [List.drop_eq_nil_iff.mpr (List.getElem?_eq_none_iff.mp ht)]
    rfl
  | some cls =>
    have hcons : tokens.drop idx = cls :: tokens.drop (idx + 1) := by
      obtain ⟨h, rfl⟩ := List.getElem?_eq_some_iff.mp ht
      exact List.drop_eq_getElem_cons h
    rw [hcons, classField]
    by_cases hc : isClass cls
    · simp only [hc, if_true]
    · simp only [hc, if_false, Bool.false_eq_true, hcons]

/-- The record of a line from the fields behind its class on. -/
def recordOfFields (origin name : Text) (ttl : UInt32) : List Text → Except Panic (Option Record)
  | [] | [_] => .ok none
  | rtypeToken :: rdataTokens => (buildRdata (toUppercase rtypeToken) rdataTokens origin).map fun rdata =>
      rdata.map fun rdata => ⟨name, strToRtype (toUppercase rtypeToken), CLASS_IN, ttl, rdata⟩

theorem parseRecord_fields (origin lastName : Text) (d : UInt32) (blank : Bool) (first second : Text) (rest : List Text) :
    parseRecord origin lastName d blank (first :: second :: rest) =
      let fields := fieldsBehindOwner blank (first :: second :: rest)
      let name := if !blank && !isType first && !isClass first then ownerName first origin else lastName
      (recordOfFields origin name (ttlField d fields).1 (fieldsFromType fields)).map fun r => (name, r) := by
  have hlen : ¬ (first :: second :: rest).length < 2 := by simp
  have hfields : fieldsBehindOwner blank (first :: second :: rest) =
      if !blank && !isType first && !isClass first then second :: rest else first :: second :: rest := if_neg hlen
  dsimp only
  rw [hfields, fieldsFromType, ttlField_snd 0 d, parseRecord]
  dsimp only
  cases classField (ttlField d (if !blank && !isType first && !isClass first then second :: rest
      else first :: second :: rest)).2 with
  | nil => rfl
  | cons rtype data =>
    cases data with
    | nil => rfl
    | cons first rest =>
      rw [recordOfFields]
      · dsimp only
        cases buildRdata (toUppercase rtype) (first :: rest) origin with
        | error e => rfl
        | ok rdata => cases rdata <;> rfl
      · intro h
        cases h

theorem parseData_agrees (origin name : Text) (ttl : UInt32) (tokens : List Text) (idx : Nat) :
    Agrees (∀ rtype first rest, tokens.drop idx = rtype :: first :: rest → RdataSafe (toUppercase rtype) (first :: rest))
      (Checked.parseData origin name ttl tokens idx) (recordOfFields origin name ttl (tokens.drop idx)) := by
  unfold Checked.parseData
  cases ht : tokens[idx]? with
  | none =>
    rw [List.drop_eq_nil_iff.mpr (List.getElem?_eq_none_iff.mp ht)]
    exact (Agrees.ok none).congr ⟨fun _ _ _ _ h => (List.cons_ne_nil _ _ h.symm).elim, fun _ => trivial⟩
  | some rtype =>
    obtain ⟨hlt, hget⟩ := List.getElem?_eq_some_iff.mp ht
    have hcons : tokens.drop idx = rtype :: tokens.drop (idx + 1) := by rw [List.drop_eq_getElem_cons hlt, hget]
    have hslice : Checked.sliceFrom tokens (idx + 1) = .ok (tokens.drop (idx + 1)) := if_pos hlt
    rw [hcons]
    simp only [hslice, Checked.ok_bind]
    cases hdata : tokens.drop (idx + 1) with
    | nil =>
      rw [if_pos rfl]
      exact (Agrees.ok none).congr ⟨fun _ _ _ _ h => by simp at h, fun _ => trivial⟩
    | cons first rest =>
      rw [if_neg (List.cons_ne_nil first rest), recordOfFields]
      · refine Agrees.congr ((buildRdata_agrees (toUppercase rtype) origin first rest).map' _) ?_
        constructor
        · intro h rtype' first' rest' heq
          cases heq
          exact h
        · intro h
          exact h rtype first rest rfl
      · intro h
        cases h

/-- A record line read by indices into its fields. -/
theorem parseRecord_agrees (origin lastName : Text) (d : UInt32) (blank : Bool) (tokens : List Text) :
    Agrees (RecordSafe blank tokens) (Checked.parseRecord origin lastName d blank tokens)
      (parseRecord origin lastName d blank tokens) := by
  by_cases hlen : tokens.length < 2
  · have hplain : parseRecord origin lastName d blank tokens = .ok (lastName, none) := by
      unfold parseRecord
      split
      · rfl
      · rfl
      · simp only [List.length_cons] at hlen
        omega
    have hfields : fieldsBehindOwner blank tokens = [] := if_pos hlen
    rw [Checked.parseRecord, if_pos hlen, hplain]
    refine (Agrees.ok _).congr ⟨fun _ => ⟨?_, ?_⟩, fun _ => trivial⟩
    · intro t ht
      rw [hfields] at ht
      cases ht
    · intro rtype first rest h
      rw [hfields] at h
      cases h
  · obtain ⟨first, second, rest, rfl⟩ : ∃ a b rest, tokens = a :: b :: rest := by
      rcases tokens with _ | ⟨a, _ | ⟨b, rest⟩⟩
      all_goals first | exact ⟨_, _, _, rfl⟩ | exact absurd (by simp) hlen
    have hindex : Checked.index (first :: second :: rest) 0 = .ok first := rfl
    have hfields : fieldsBehindOwner blank (first :: second :: rest) =
        (first :: second :: rest).drop (if !blank && !isType first && !isClass first then 1 else 0) := by
      rw [fieldsBehindOwner, if_neg hlen, List.headD_cons]
      split <;> rfl
    obtain ⟨idx, hidx, httl⟩ := ttlField_agrees d (first :: second :: rest)
      (if !blank && !isType first && !isClass first then 1 else 0)
    have htype : fieldsFromType (fieldsBehindOwner blank (first :: second :: rest)) =
        (first :: second :: rest).drop (Checked.classField (first :: second :: rest) idx) := by
      rw [fieldsFromType, ttlField_snd 0 d, hfields, hidx, classField_drop]
    rw [Checked.parseRecord, if_neg hlen, hindex, Checked.ok_bind, parseRecord_fields]
    dsimp only
    rw [htype, hfields]
    refine Agrees.congr (httl.bind_ok ((parseData_agrees origin _ _ (first :: second :: rest) _).map' _)) ?_
    rw [← htype, ← hfields]
    exact ⟨fun h => ⟨h.1, h.2⟩, fun h => ⟨h.ttl, h.data⟩⟩

/-! Texts and lines. -/

/-- Nothing goes wrong while a text is read, a directive or a record line. -/
def TextSafe (text : Text) : Prop :=
  let line := trim text
  if line = [] then True
  else if ['$', 'O', 'R', 'I', 'G', 'I', 'N'].isPrefixOf line then True
  else if ['$', 'T', 'T', 'L'].isPrefixOf line then ∀ t ∈ (splitWhitespace line)[1]?, TtlFits t
  else if line.head? = some '$' then True
  else RecordSafe (text.head?.any isWhitespace) (tokenizeZoneLine line)

/-- What a line leaves of the state: the owner it ends with, and its record entered, if there is one. -/
def LoadState.entered (s : LoadState) (out : Text × Option Record) : LoadState :=
  { s with lastName := out.1, zone := out.2.elim s.zone s.zone.add }

/-- A step that cannot fail is a map. -/
theorem Checked.bind_eq_map {α β : Type} {x : Except Checked.Crash α} {f : α → Except Checked.Crash β} (g : α → β)
    (hf : ∀ a, f a = .ok (g a)) : (x >>= f) = x.map g := by
  cases x with
  | error e => rfl
  | ok a => exact hf a

theorem loadText_agrees (s : LoadState) (text : Text) :
    Agrees (TextSafe text) (Checked.loadText s text) (loadText s text) := by
  unfold Checked.loadText loadText TextSafe
  dsimp only
  split
  · exact Agrees.ok s
  split
  · cases (splitWhitespace (trim text))[1]? <;> exact Agrees.ok _
  split
  · cases (splitWhitespace (trim text))[1]? with
    | none => exact (Agrees.ok s).congr ⟨fun _ _ h => (by cases h), fun _ => trivial⟩
    | some t =>
      refine Agrees.congr ((parseTtl_agrees t).map' fun ttl => { s with defaultTtl := ttl }) ?_
      simp only [Option.mem_some_iff, forall_eq']
  split
  · exact Agrees.ok s
  · -- the record, if there is one, is entered on both sides
    have h := (parseRecord_agrees s.origin s.lastName s.defaultTtl (text.head?.any isWhitespace)
      (tokenizeZoneLine (trim text))).map' s.entered
    rw [Checked.bind_eq_map s.entered fun out => by
      obtain ⟨lastName, r⟩ := out
      cases r <;> rfl]
    cases hrecord : parseRecord s.origin s.lastName s.defaultTtl (text.head?.any isWhitespace)
        (tokenizeZoneLine (trim text)) with
    | error e =>
      rw [hrecord] at h
      exact h
    | ok out =>
      obtain ⟨lastName, r⟩ := out
      rw [hrecord] at h
      cases r <;> exact h

/-- Nothing goes wrong at a line, behind what is pending. -/
def LineSafe (pending : Text) (opened : Int) (rawLine : Text) : Prop :=
  let line := stripZoneComment rawLine
  if pending = [] ∧ trim line = [] then True
  else BalanceFits line ∧ Checked.FitsI32 (opened + parenthesisBalance line) ∧
    (¬ opened + parenthesisBalance line > 0 → TextSafe (pending ++ line ++ [' ']))

theorem loadLine_agrees (s : LoadState) (rawLine : Text) :
    Agrees (LineSafe s.pending s.openParentheses rawLine) (Checked.loadLine s rawLine) (loadLine s rawLine) := by
  unfold Checked.loadLine loadLine LineSafe
  rw [stripZoneComment_run, Checked.ok_bind]
  dsimp only
  split
  · exact Agrees.ok s
  · have hcount : Agrees (BalanceFits (stripZoneComment rawLine) ∧
        Checked.FitsI32 (s.openParentheses + parenthesisBalance (stripZoneComment rawLine)))
        ((Checked.parenthesisBalance (stripZoneComment rawLine)).bind (Checked.addI32 s.openParentheses))
        (.ok (s.openParentheses + parenthesisBalance (stripZoneComment rawLine)) : Except Panic Int) :=
      (parenthesisBalance_agrees _).bind_ok (addI32_agrees _ _)
    split
    · next hopen =>
      refine Agrees.congr (hcount.bind_ok (Q := True) ?_) ?_
      · rw [if_pos hopen]
        exact Agrees.ok _
      · exact ⟨fun h => ⟨h.1.1, h.1.2, fun hn => absurd hopen hn⟩, fun h => ⟨⟨h.1, h.2.1⟩, trivial⟩⟩
    · next hclosed =>
      refine Agrees.congr (hcount.bind_ok (Q := TextSafe (s.pending ++ stripZoneComment rawLine ++ [' '])) ?_) ?_
      · rw [if_neg hclosed]
        exact loadText_agrees _ _
      · exact ⟨fun h => ⟨h.1.1, h.1.2, fun _ => h.2⟩, fun h => ⟨⟨h.1, h.2.1⟩, h.2.2 hclosed⟩⟩

/-- Nothing goes wrong at the lines, behind what is pending. -/
def LinesSafe : Text → Int → List Text → Prop
  | _, _, [] => True
  | pending, opened, rawLine :: rest =>
    LineSafe pending opened rawLine ∧
      let line := stripZoneComment rawLine
      if pending = [] ∧ trim line = [] then LinesSafe pending opened rest
      else if opened + parenthesisBalance line > 0 then
        LinesSafe (pending ++ line ++ [' ']) (opened + parenthesisBalance line) rest
      else LinesSafe [] 0 rest

theorem loadText_pending {s s' : LoadState} {text : Text} (h : loadText s text = .ok s') :
    s'.pending = s.pending ∧ s'.openParentheses = s.openParentheses := by
  unfold loadText at h
  dsimp only at h
  split at h
  · cases h; exact ⟨rfl, rfl⟩
  split at h
  · split at h <;> cases h <;> exact ⟨rfl, rfl⟩
  split at h
  · split at h <;> cases h <;> exact ⟨rfl, rfl⟩
  split at h
  · cases h; exact ⟨rfl, rfl⟩
  split at h <;> cases h <;> exact ⟨rfl, rfl⟩

theorem foldlM_loadLine_agrees : ∀ (ls : List Text) (s : LoadState),
    Agrees (LinesSafe s.pending s.openParentheses ls) (ls.foldlM Checked.loadLine s) (ls.foldlM loadLine s)
  | [], s => Agrees.ok s
  | rawLine :: rest, s => by
    rw [List.foldlM_cons, List.foldlM_cons]
    refine ((loadLine_agrees s rawLine).bind' fun s' _ => foldlM_loadLine_agrees rest s').congr_ok ?_
    intro out hout
    rw [LinesSafe]
    refine and_congr_right fun _ => ?_
    -- the line succeeds, so it is skipped, joined or read
    cases hline : loadLine s rawLine with
    | error e =>
      rw [hline] at hout
      cases hout
    | ok s' =>
      have hall : (∀ a, (Except.ok s' : Except Panic LoadState) = .ok a → LinesSafe a.pending a.openParentheses rest) ↔
          LinesSafe s'.pending s'.openParentheses rest := by
        constructor
        · intro h
          exact h s' rfl
        · intro h a ha
          cases ha
          exact h
      rw [hall]
      unfold loadLine at hline
      dsimp only at hline ⊢
      split at hline
      · next hblank => cases hline; rw [if_pos hblank]
      · next hblank =>
        rw [if_neg hblank]
        split at hline
        · next hopen => cases hline; rw [if_pos hopen]
        · next hclosed =>
          obtain ⟨hp, ho⟩ := loadText_pending hline
          rw [if_neg hclosed, hp, ho]

/-- The checked loader goes through exactly when nothing goes wrong at a line and the plain one does. -/
theorem loadFile_agrees (z : Zone) (content : Text) :
    Agrees (LinesSafe [] 0 (lines content)) (Checked.loadFile z content) (z.loadFile content) :=
  (foldlM_loadLine_agrees (lines content) ⟨z, 3600, z.origin, z.origin, [], 0⟩).map' LoadState.zone

/-! Safe files. -/

/-- The parentheses open at a line, and those that were open before it, are counted in 32 bits. -/
def ParenthesesFit : Int → List Text → Prop
  | _, [] => True
  | opened, rawLine :: rest =>
    let line := stripZoneComment rawLine
    BalanceFits line ∧ Checked.FitsI32 (opened + parenthesisBalance line) ∧
      ParenthesesFit (max 0 (opened + parenthesisBalance line)) rest

theorem linesSafe_iff : ∀ (ls : List Text) (pending : Text) (opened : Int), (pending = [] → opened = 0) → 0 ≤ opened →
    (LinesSafe pending opened ls ↔ (∀ text ∈ joinLines pending opened ls, TextSafe text) ∧ ParenthesesFit opened ls)
  | [], pending, opened, _, _ => by simp [LinesSafe, joinLines, ParenthesesFit]
  | rawLine :: rest, pending, opened, hempty, hpos => by
    rw [LinesSafe, joinLines, ParenthesesFit, LineSafe]
    dsimp only
    by_cases hblank : pending = [] ∧ trim (stripZoneComment rawLine) = []
    · -- a blank line counts nothing
      have hline := allBlank_of_trim hblank.2
      have hfits : BalanceFits (stripZoneComment rawLine) := by
        intro part hp
        rw [balance_of_blank fun c hc => hline c (hp.subset hc)]
        decide
      rw [if_pos hblank, if_pos hblank, if_pos hblank, balance_of_blank hline, hempty hblank.1, Int.add_zero,
        Int.max_self, linesSafe_iff rest pending 0 (fun _ => rfl) (Int.le_refl 0)]
      exact ⟨fun h => ⟨h.2.1, hfits, by decide, h.2.2⟩, fun h => ⟨trivial, h.1, h.2.2.2⟩⟩
    · rw [if_neg hblank, if_neg hblank, if_neg hblank]
      by_cases hopen : opened + parenthesisBalance (stripZoneComment rawLine) > 0
      · rw [if_pos hopen, if_pos hopen, Int.max_eq_right (Int.le_of_lt hopen),
          linesSafe_iff rest (pending ++ stripZoneComment rawLine ++ [' ']) _ (fun h => absurd h (by simp))
            (Int.le_of_lt hopen)]
        constructor
        · intro h
          exact ⟨h.2.1, h.1.1, h.1.2.1, h.2.2⟩
        · intro h
          exact ⟨⟨h.2.1, h.2.2.1, fun hn => absurd hopen hn⟩, h.1, h.2.2.2⟩
      · rw [if_neg hopen, if_neg hopen, Int.max_eq_left (Int.not_lt.mp hopen), List.forall_mem_cons,
          linesSafe_iff rest [] 0 (fun _ => rfl) (Int.le_refl 0)]
        constructor
        · intro h
          exact ⟨⟨h.1.2.2 hopen, h.2.1⟩, h.1.1, h.1.2.1, h.2.2⟩
        · intro h
          exact ⟨⟨h.2.1, h.2.2.1, fun _ => h.1.1⟩, h.1.2, h.2.2.2⟩

theorem RecordSafe.ok {blank : Bool} {tokens : List Text} (h : RecordSafe blank tokens) (origin lastName : Text)
    (d : UInt32) : ∃ out, parseRecord origin lastName d blank tokens = .ok out := by
  by_cases hlen : tokens.length < 2
  · refine ⟨(lastName, none), ?_⟩
    unfold parseRecord
    split
    · rfl
    · rfl
    · simp only [List.length_cons] at hlen
      omega
  · obtain ⟨first, second, rest, rfl⟩ : ∃ a b rest, tokens = a :: b :: rest := by
      rcases tokens with _ | ⟨a, _ | ⟨b, rest⟩⟩
      all_goals first | exact ⟨_, _, _, rfl⟩ | exact absurd (by simp) hlen
    rw [parseRecord_fields]
    dsimp only
    cases hfields : fieldsFromType (fieldsBehindOwner blank (first :: second :: rest)) with
    | nil => exact ⟨_, rfl⟩
    | cons rtype data =>
      cases data with
      | nil => exact ⟨_, rfl⟩
      | cons first' rest' =>
        obtain ⟨o, ho⟩ := (h.data rtype first' rest' hfields).ok origin
        rw [recordOfFields, ho]
        · exact ⟨_, rfl⟩
        · intro hnil
          cases hnil

theorem TextSafe.ok {text : Text} (h : TextSafe text) (ctx : LineContext) : ∃ out, readText ctx text = .ok out := by
  unfold TextSafe at h
  unfold readText
  dsimp only at h ⊢
  split
  · exact ⟨_, rfl⟩
  split
  · exact ⟨_, rfl⟩
  split
  · exact ⟨_, rfl⟩
  split
  · exact ⟨_, rfl⟩
  · next h1 h2 h3 h4 =>
    rw [if_neg h1, if_neg h2, if_neg h3, if_neg h4] at h
    obtain ⟨out, hout⟩ := RecordSafe.ok h ctx.origin ctx.lastName ctx.defaultTtl
    rw [hout]
    exact ⟨_, rfl⟩

theorem readTexts_of_safe : ∀ {texts : List Text}, (∀ text ∈ texts, TextSafe text) → ∀ ctx : LineContext,
    ∃ out, readTexts ctx texts = .ok out
  | [], _, ctx => ⟨_, rfl⟩
  | text :: texts, h, ctx => by
    obtain ⟨hhead, htail⟩ := List.forall_mem_cons.mp h
    obtain ⟨out, hout⟩ := hhead.ok ctx
    obtain ⟨rest, hrest⟩ := readTexts_of_safe htail out.1
    exact ⟨_, by rw [readTexts, hout]; simp only [bind, Except.bind, hrest]; rfl⟩

/-- The file loads without a panic, and the zone gets the records of its texts in turn: a text
    without a record that can be used adds none. -/
def LoadsSafely (z : Zone) (content : Text) : Prop :=
  ∃ ctx rs, readTexts (.start z.origin) (recordTexts content) = .ok (ctx, rs) ∧
    Checked.loadFile z content = .ok { rs.foldl Zone.add z with origin := ctx.origin }

/-- **Where loading a zone file does not panic.** A file loads safely exactly when nothing goes wrong
    in any of its directives and record lines and its parentheses can be counted. -/
theorem loadFile_safe_iff (z : Zone) (content : Text) :
    LoadsSafely z content ↔
      (∀ text ∈ recordTexts content, TextSafe text) ∧ ParenthesesFit 0 (lines content) := by
  have hlines := linesSafe_iff (lines content) [] 0 (fun _ => rfl) (Int.le_refl 0)
  constructor
  · intro h
    obtain ⟨ctx, rs, -, hload⟩ := h
    exact hlines.mp ((loadFile_agrees z content _).mp hload).1
  · intro h
    obtain ⟨⟨ctx, rs⟩, hread⟩ := readTexts_of_safe h.1 (.start z.origin)
    refine ⟨ctx, rs, hread, (loadFile_agrees z content _).mpr ⟨hlines.mpr h, ?_⟩⟩
    rw [Zone.loadFile_eq, hread]
    rfl

/-- An MX record without its exchange, a week too far, and a digest with a letter of two octets. -/
theorem loadFile_panics :
    ¬ LoadsSafely (Zone.new ['x']) "m MX 10\n".toList ∧ ¬ LoadsSafely (Zone.new ['x']) "m 9999w A 192.0.2.1\n".toList ∧
      ¬ LoadsSafely (Zone.new ['x']) "m 3600 DS 1 8 2 aé0\n".toList := by
  have hpanics : ∀ content, (Checked.loadFile (Zone.new ['x']) content).toOption = none →
      ¬ LoadsSafely (Zone.new ['x']) content := by
    intro content hnone h
    obtain ⟨ctx, rs, -, hload⟩ := h
    rw [hload] at hnone
    cases hnone
  exact ⟨hpanics _ (by decide), hpanics _ (by decide), hpanics _ (by decide)⟩

end Ironbind
