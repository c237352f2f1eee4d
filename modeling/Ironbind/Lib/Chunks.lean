import Mathlib.Data.List.Basic

/- Reading from a stream into a buffer of limited length. What a stream holds comes in
   chunks, and a read takes as much of the next chunk as there is room for. `gather` reads
   until the buffer holds what is looked for, is full, or nothing more comes. How it ends
   depends on what the stream holds, not on how that is cut into chunks, as long as what
   is found in a buffer is found in every longer one (`gather_ends`, `Ends.of_some`, `Ends.of_none`). -/
namespace Chunks
variable {α β : Type}

/-- How reading ends: with what was looked for and the chunks that are left, with the buffer full, or with the stream. -/
inductive Gathered (α β : Type) where
  | found (b : β) (buf : List α) (rest : List (List α))
  | full (buf : List α)
  | ended (buf : List α)

def gather (find : List α → Option β) (limit : Nat) : List α → List (List α) → Gathered α β
  | buf, [] =>
    match find buf with
    | some b => .found b buf []
    | none => if limit ≤ buf.length then .full buf else .ended buf
  | buf, chunk :: chunks =>
    match find buf with
    | some b => .found b buf (chunk :: chunks)
    | none =>
      if limit ≤ buf.length then .full buf
      else if chunk.length ≤ limit - buf.length then gather find limit (buf ++ chunk) chunks
      else
        -- a chunk that does not fit fills the buffer
        let filled := buf ++ chunk.take (limit - buf.length)
        match find filled with
        | some b => .found b filled (chunk.drop (limit - buf.length) :: chunks)
        | none => .full filled

/-- How the reading of a buffer and a stream that are `whole` together may end. -/
inductive Ends (find : List α → Option β) (limit : Nat) (whole : List α) : Gathered α β → Prop
  | found {b : β} {buf : List α} {rest : List (List α)} (seen : buf ++ rest.flatten = whole)
      (found : find buf = some b) (room : buf.length ≤ limit) : Ends find limit whole (.found b buf rest)
  | full (long : limit ≤ whole.length) (missing : find (whole.take limit) = none) :
      Ends find limit whole (.full (whole.take limit))
  | ended (short : whole.length < limit) (missing : find whole = none) : Ends find limit whole (.ended whole)

/-- **Every reading ends in one of the three ways**, however the stream is cut. -/
theorem gather_ends (find : List α → Option β) (limit : Nat) (chunks : List (List α)) (buf : List α)
    (hbuf : buf.length ≤ limit) : Ends find limit (buf ++ chunks.flatten) (gather find limit buf chunks) := by
  have hfull : ∀ {whole filled : List α}, filled.length = limit → (∃ more, whole = filled ++ more) →
      find filled = none → Ends find limit whole (.full filled) := by
    intro whole filled hlen hmore hmissing
    obtain ⟨more, rfl⟩ := hmore
    have htake : (filled ++ more).take limit = filled := List.take_left' hlen
    have hends : Ends find limit (filled ++ more) (.full ((filled ++ more).take limit)) :=
      .full (by rw [List.length_append]; omega) (by rw [htake, hmissing])
    rwa [htake] at hends
  induction chunks generalizing buf with
  | nil =>
    rw [gather, List.flatten_nil, List.append_nil]
    cases hfind : find buf with
    | some b => exact .found (List.append_nil buf) hfind hbuf
    | none =>
      dsimp only
      split
      · exact hfull (by omega) ⟨[], (List.append_nil buf).symm⟩ hfind
      · exact .ended (by omega) hfind
  | cons chunk chunks ih =>
    rw [gather, List.flatten_cons]
    cases hfind : find buf with
    | some b => exact .found rfl hfind hbuf
    | none =>
      dsimp only
      split
      · exact hfull (by omega) ⟨_, rfl⟩ hfind
      · split
        · rw [← List.append_assoc]
          exact ih _ (by rw [List.length_append]; omega)
        · next hroom hfits =>
          -- the chunk does not fit, so that the buffer is full with the part of it that is read
          have hlen : (buf ++ chunk.take (limit - buf.length)).length = limit := by
            rw [List.length_append, List.length_take]
            omega
          have hsplit : buf ++ (chunk ++ chunks.flatten) = buf ++ chunk.take (limit - buf.length) ++
              (chunk.drop (limit - buf.length) ++ chunks.flatten) := by
            rw [List.append_assoc, ← List.append_assoc (chunk.take _), List.take_append_drop]
          rw [hsplit]
          split
          · next b hfilled => exact .found rfl hfilled (Nat.le_of_eq hlen)
          · next hfilled => exact hfull hlen ⟨_, rfl⟩ hfilled

/-- Nothing is read into a buffer that is full already. -/
theorem gather_of_long {find : List α → Option β} {limit : Nat} {buf : List α} (hlong : limit ≤ buf.length)
    (hmissing : find buf = none) (chunks : List (List α)) : gather find limit buf chunks = .full buf := by
  cases chunks <;> rw [gather, hmissing] <;> exact if_pos hlong

/-- What is found once stays found. -/
def Stable (find : List α → Option β) : Prop := ∀ buf more b, find buf = some b → find (buf ++ more) = some b

section
variable {find : List α → Option β} {limit : Nat} {whole buf : List α} {b : β} {rest : List (List α)}
  {gathered : Gathered α β} (hstable : Stable find)
include hstable

/-- What is found is found in as much of the whole as there is room for. -/
theorem Ends.find_take (hends : Ends find limit whole (.found b buf rest)) : find (whole.take limit) = some b := by
  cases hends with
  | found hseen hfound hroom =>
    rw [← hseen, List.take_append, List.take_of_length_le hroom]
    exact hstable _ _ _ hfound

theorem Ends.of_some (hends : Ends find limit whole gathered) (hfind : find (whole.take limit) = some b) :
    ∃ buf rest, gathered = .found b buf rest ∧ buf ++ rest.flatten = whole ∧ find buf = some b := by
  cases hends with
  | found hseen hfound hroom =>
    have hsame := Ends.find_take hstable (.found hseen hfound hroom)
    obtain rfl := Option.some.inj (hfind.symm.trans hsame)
    exact ⟨_, _, rfl, hseen, hfound⟩
  | full hlong hmissing =>
    rw [hmissing] at hfind
    cases hfind
  | ended hshort hmissing =>
    rw [List.take_of_length_le (Nat.le_of_lt hshort), hmissing] at hfind
    cases hfind

theorem Ends.of_none (hends : Ends find limit whole gathered) (hfind : find (whole.take limit) = none) :
    gathered = if limit ≤ whole.length then .full (whole.take limit) else .ended whole := by
  cases hends with
  | found hseen hfound hroom =>
    have hsame := Ends.find_take hstable (.found hseen hfound hroom)
    rw [hfind] at hsame
    cases hsame
  | full hlong hmissing => rw [if_pos hlong]
  | ended hshort hmissing => rw [if_neg (by omega)]

end

/-- Where nothing is looked for the buffer is filled, or all of the stream is read. -/
theorem gather_nothing (limit : Nat) (buf : List α) (chunks : List (List α)) :
    (limit ≤ (buf ++ chunks.flatten).length ∧ ∃ filled,
      gather (fun _ => (none : Option Empty)) limit buf chunks = .full filled ∧
        filled.take limit = (buf ++ chunks.flatten).take limit) ∨
    ((buf ++ chunks.flatten).length < limit ∧
      gather (fun _ => (none : Option Empty)) limit buf chunks = .ended (buf ++ chunks.flatten)) := by
  by_cases hlong : limit ≤ buf.length
  · refine .inl ⟨by rw [List.length_append]; omega, buf, gather_of_long hlong rfl chunks, ?_⟩
    rw [List.take_append_of_le_length hlong]
  · have hends := gather_ends (fun _ => (none : Option Empty)) limit chunks buf (by omega)
    have hresult := hends.of_none (fun buf more b hfind => by cases hfind) rfl
    by_cases hle : limit ≤ (buf ++ chunks.flatten).length
    · rw [if_pos hle] at hresult
      exact .inl ⟨hle, _, hresult, by rw [List.take_take, Nat.min_self]⟩
    · rw [if_neg hle] at hresult
      exact .inr ⟨by omega, hresult⟩

end Chunks
