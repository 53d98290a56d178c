import CommittedChoice.Outcome

/-!
# Whole texts

A parser reads the front of a text and says nothing about the rest. To read a
*whole* text is to insist that nothing is left. Only the first candidate counts:
a later one that leaves nothing does not help.
-/

namespace CommittedChoice

/-- **Why a text is not read as a whole.** -/
inductive ParseError where
  /-- There is no candidate at all. -/
  | noMatch
  /-- The first candidate leaves some text. -/
  | unusedInput (remainder : Text)
deriving DecidableEq, Repr

namespace ParseError

/-- The text that was left, if the parser got that far. -/
def remainder : ParseError → Option Text
  | noMatch => none
  | unusedInput r => some r

/-- **The wording of the error.** -/
def message : ParseError → Text
  | noMatch => "Invalid input".toList
  | unusedInput r => "Unused input: ".toList ++ r

end ParseError

namespace Parser

variable {α : Type}

/-- **Reading a whole text**: the value of the first candidate if nothing is
  left after it. There is no answer if the run never ends. -/
def complete (p : Parser α) (s : Text) : Option (Except ParseError α) :=
  match p s with
  | none => none
  | some [] => some (.error .noMatch)
  | some ((a, []) :: _) => some (.ok a)
  | some ((_, c :: r) :: _) => some (.error (.unusedInput (c :: r)))

/-! ## When each answer arises -/

variable {p : Parser α} {s : Text}

/-- The value is that of a first candidate that leaves nothing. -/
theorem complete_eq_ok_iff {a : α} :
    p.complete s = some (.ok a) ↔ ∃ others, p s = some ((a, []) :: others) := by
  unfold complete
  split <;> simp_all

/-- There is no match exactly when there is no candidate. -/
theorem complete_eq_noMatch_iff :
    p.complete s = some (.error .noMatch) ↔ p s = some [] := by
  unfold complete
  split <;> simp_all

/-- Input is unused exactly when the first candidate leaves some. -/
theorem complete_eq_unusedInput_iff {r : Text} :
    p.complete s = some (.error (.unusedInput r))
      ↔ r ≠ [] ∧ ∃ a others, p s = some ((a, r) :: others) := by
  unfold complete
  split <;> simp_all
  rintro rfl
  simp

/-- There is no answer exactly when the run never ends. -/
theorem complete_eq_none_iff : p.complete s = none ↔ p s = none := by
  unfold complete
  split <;> simp_all

end Parser

end CommittedChoice
