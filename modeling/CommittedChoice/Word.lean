/-!
# Words

Numbers are words: integers from -2^63 to 2^63 - 1. A result outside that range
is no word, and it is never wrapped into one. Every word is therefore made from
an integer by `Word.ofInt?`, and each operation is the operation on integers
followed by that check (`Word.add?_eq_some_iff` and its two neighbours).
-/

namespace CommittedChoice

/-- **A word**: a signed integer of 64 bits. -/
abbrev Word := Int64

namespace Word

/-- The least value of a word, -2^63. -/
def least : Int := -9223372036854775808

/-- The greatest value of a word, 2^63 - 1. -/
def greatest : Int := 9223372036854775807

/-- **The word of an integer**, if it is in range. -/
def ofInt? (z : Int) : Option Word :=
  if least ≤ z ∧ z ≤ greatest then some (Int64.ofInt z) else none

/-- **Checked addition.** -/
def add? (a b : Word) : Option Word := ofInt? (a.toInt + b.toInt)

/-- **Checked subtraction.** -/
def sub? (a b : Word) : Option Word := ofInt? (a.toInt - b.toInt)

/-- **Checked multiplication.** -/
def mul? (a b : Word) : Option Word := ofInt? (a.toInt * b.toInt)

/-! ## The check -/

/-- The values of words are in range. -/
theorem toInt_mem_range (w : Word) : least ≤ w.toInt ∧ w.toInt ≤ greatest :=
  ⟨w.le_toInt, Int.le_of_lt_add_one w.toInt_lt⟩

/-- **The word of an integer has that integer as its value**, so that nothing is
  ever wrapped, … -/
theorem ofInt?_eq_some_iff {z : Int} {w : Word} :
    ofInt? z = some w ↔ w.toInt = z := by
  unfold ofInt?
  constructor
  · intro h
    split at h
    · next hz =>
      rw [← Option.some.inj h]
      exact Int64.toInt_ofInt_of_le hz.1 (Int.lt_add_one_of_le hz.2)
    · simp at h
  · rintro rfl
    rw [if_pos w.toInt_mem_range, Int64.ofInt_toInt]

/-- … and there is one unless the integer is out of range. -/
theorem ofInt?_eq_none_iff {z : Int} :
    ofInt? z = none ↔ z < least ∨ greatest < z := by
  unfold ofInt?
  split
  · next h => exact ⟨by simp, fun h' => by omega⟩
  · next h => exact ⟨fun _ => by omega, fun _ => rfl⟩

@[simp] theorem ofInt?_toInt (w : Word) : ofInt? w.toInt = some w :=
  ofInt?_eq_some_iff.2 rfl

/-- A checked sum is the exact sum. -/
theorem add?_eq_some_iff {a b w : Word} :
    add? a b = some w ↔ w.toInt = a.toInt + b.toInt := ofInt?_eq_some_iff

/-- A checked difference is the exact difference. -/
theorem sub?_eq_some_iff {a b w : Word} :
    sub? a b = some w ↔ w.toInt = a.toInt - b.toInt := ofInt?_eq_some_iff

/-- A checked product is the exact product. -/
theorem mul?_eq_some_iff {a b w : Word} :
    mul? a b = some w ↔ w.toInt = a.toInt * b.toInt := ofInt?_eq_some_iff

end Word

end CommittedChoice
