import CommittedChoice.Parser.Basic

/-!
# Chains of successes

A chain runs a parser again and again, each time on the text that the first
candidate of the last run left, until it fails. It says what a repetition stands
for without a loop, a budget or an accumulator: `many p` has the outcome of the
chain that starts at the text, if that chain is no longer than the text
(`Parser.many_eq_some_iff`). A chain is determined by where it starts
(`Parser.Chain.unique`), and if every success leaves less text, no chain is too
long (`Parser.Chain.length_add_length_le`).
-/

namespace CommittedChoice

namespace Parser

variable {α : Type} {p : Parser α}

/-- **A maximal chain of successes** of a parser, with the values of its first
  candidates and the text on which it fails at last. -/
inductive Chain (p : Parser α) : Text → List α → Text → Prop where
  /-- The parser fails at once. -/
  | nil {s : Text} (h : p s = some []) : Chain p s [] s
  /-- The parser succeeds, and the chain goes on from what the first candidate
    leaves. -/
  | cons {s r t : Text} {a : α} {others : List (Candidate α)} {as : List α}
    (h : p s = some ((a, r) :: others)) (rest : Chain p r as t) :
    Chain p s (a :: as) t

/-- **Leaving less text**: the first candidate, when there is one, leaves a
  shorter text than it was found on. -/
def Shrinks (p : Parser α) : Prop :=
  ∀ ⦃s : Text⦄ ⦃a : α⦄ ⦃r : Text⦄ ⦃others : List (Candidate α)⦄,
    p s = some ((a, r) :: others) → r.length < s.length

namespace Chain

/-- **A chain is determined by where it starts.** -/
theorem unique {s t t' : Text} {as as' : List α} (h : Chain p s as t)
    (h' : Chain p s as' t') : as = as' ∧ t = t' := by
  induction h generalizing as' with
  | nil h =>
    cases h' with
    | nil => exact ⟨rfl, rfl⟩
    | cons h₂ => simp [h] at h₂
  | cons h _ ih =>
    cases h' with
    | nil h₂ => simp [h] at h₂
    | cons h₂ rest =>
      obtain ⟨⟨rfl, rfl⟩, -⟩ : _ ∧ _ := by simpa [h] using h₂
      obtain ⟨rfl, rfl⟩ := ih rest
      exact ⟨rfl, rfl⟩

/-- Every step of a chain takes at least one character, if every success leaves
  less text. -/
theorem length_add_length_le (hp : Shrinks p) {s t : Text} {as : List α}
    (h : Chain p s as t) : as.length + t.length ≤ s.length := by
  induction h with
  | nil => simp
  | cons h _ ih =>
    have := hp h
    simp only [List.length_cons]
    omega

end Chain

/-! ## Repetition is the chain -/

/-- The loop follows the chain, as far as its budget goes. -/
theorem manyLoop_eq_some_iff {budget : Text} {found : List α} {s : Text}
    {cs : List (Candidate (List α))} :
    manyLoop p budget found s = some cs
      ↔ ∃ as t, Chain p s as t ∧ as.length ≤ budget.length
          ∧ cs = [(found.reverse ++ as, t)] := by
  induction budget generalizing found s with
  | nil =>
    constructor
    · intro h
      match hs : p s with
      | none => simp [manyLoop, hs] at h
      | some [] =>
        exact ⟨[], s, .nil hs, by simp, by simpa [manyLoop, hs] using h.symm⟩
      | some (c :: cs) => simp [manyLoop, hs] at h
    · rintro ⟨as, t, h, hlen, rfl⟩
      obtain rfl : as = [] := by simpa using hlen
      cases h with
      | nil h => simp [manyLoop, h]
  | cons _ budget ih =>
    constructor
    · intro h
      match hs : p s with
      | none => simp [manyLoop, hs] at h
      | some [] =>
        exact ⟨[], s, .nil hs, by simp, by simpa [manyLoop, hs] using h.symm⟩
      | some ((a, r) :: cs) =>
        obtain ⟨as, t, hc, hlen, rfl⟩ := ih.1 (by simpa [manyLoop, hs] using h)
        exact ⟨a :: as, t, .cons hs hc, by simpa using hlen, by simp⟩
    · rintro ⟨as, t, h, hlen, rfl⟩
      cases h with
      | nil h => simp [manyLoop, h]
      | cons h rest =>
        simp only [manyLoop, h]
        exact ih.2 ⟨_, t, rest, by simpa using hlen, by simp⟩

/-- **A repetition has the outcome of its chain**, if the chain is no longer
  than the text; otherwise it never ends. -/
theorem many_eq_some_iff {s : Text} {cs : List (Candidate (List α))} :
    many p s = some cs
      ↔ ∃ as t, Chain p s as t ∧ as.length ≤ s.length ∧ cs = [(as, t)] := by
  unfold many
  simpa using @manyLoop_eq_some_iff α p s [] s cs

/-- If every success leaves less text, any chain is the outcome of the
  repetition. -/
theorem many_eq_of_chain (hp : Shrinks p) {s t : Text} {as : List α}
    (h : Chain p s as t) : many p s = some [(as, t)] :=
  many_eq_some_iff.2
    ⟨as, t, h, by have := h.length_add_length_le hp; omega, rfl⟩

end Parser

end CommittedChoice
