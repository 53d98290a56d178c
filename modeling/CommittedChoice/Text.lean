import CommittedChoice.Outcome

/-!
# White space and numerals

Two things are asked of the characters of a text: whether they are white space,
and which number a run of digits stands for.

The white space of Unicode is the property `White_Space`, which twenty-five
characters have. It is not the class of ASCII blanks, and not the class of some
pattern languages either: the next line character U+0085 has the property, the
byte order mark U+FEFF does not.

A run of decimal digits has a value, whatever its length and however many zeros
it starts with. Written out, a number is the shortest numeral of its value, with
a minus sign in front if it is negative. Reading the digits of a written number
gives the number back (`Decimal.value_ofNat`).
-/

namespace CommittedChoice

/-! ## White space -/

/-- **The ranges of white space**, in rising order, both ends included. -/
def blankRanges : List (Nat × Nat) :=
  [(0x09, 0x0D), (0x20, 0x20), (0x85, 0x85), (0xA0, 0xA0), (0x1680, 0x1680),
   (0x2000, 0x200A), (0x2028, 0x2029), (0x202F, 0x202F), (0x205F, 0x205F),
   (0x3000, 0x3000)]

/-- **White space**: the character lies in one of the ranges. -/
def isBlank (c : Char) : Bool :=
  blankRanges.any fun range => range.1 ≤ c.toNat && c.toNat ≤ range.2

/-- A blank is a character of one of the ten ranges. -/
theorem isBlank_iff (c : Char) :
    isBlank c = true
      ↔ ∃ range ∈ blankRanges, range.1 ≤ c.toNat ∧ c.toNat ≤ range.2 := by
  simp [isBlank]

/-! ## Decimal numerals -/

namespace Decimal

/-- The value of a single digit. -/
def digitValue (c : Char) : Nat := c.toNat - '0'.toNat

/-- **The value of a run of digits**, most significant digit first. -/
def value (digits : Text) : Nat :=
  digits.foldl (fun n c => 10 * n + digitValue c) 0

/-- The digit of a value below ten. -/
def digit (d : Nat) : Char := Char.ofNat ('0'.toNat + d)

/-- **The numeral of a natural number**, with no leading zero. -/
def ofNat (n : Nat) : Text :=
  if n < 10 then [digit n] else ofNat (n / 10) ++ [digit (n % 10)]

/-- **The numeral of an integer.** A minus sign stands in front of the numeral
  of a negative number's absolute value. -/
def ofInt : Int → Text
  | .ofNat n => ofNat n
  | .negSucc n => '-' :: ofNat (n + 1)

/-! ### Reading what was written -/

@[simp] theorem value_nil : value [] = 0 := rfl

/-- One more digit multiplies by ten. -/
@[simp] theorem value_append_singleton (ds : Text) (c : Char) :
    value (ds ++ [c]) = 10 * value ds + digitValue c := by
  simp [value]

/-- A digit has its value, … -/
theorem digitValue_digit {d : Nat} (h : d < 10) : digitValue (digit d) = d := by
  have : d = 0 ∨ d = 1 ∨ d = 2 ∨ d = 3 ∨ d = 4 ∨ d = 5 ∨ d = 6 ∨ d = 7 ∨ d = 8
      ∨ d = 9 := by
    omega
  rcases this with
    rfl | rfl | rfl | rfl | rfl | rfl | rfl | rfl | rfl | rfl <;> rfl

/-- … and is one of the ten. -/
theorem isDigit_digit {d : Nat} (h : d < 10) : (digit d).isDigit = true := by
  have : d = 0 ∨ d = 1 ∨ d = 2 ∨ d = 3 ∨ d = 4 ∨ d = 5 ∨ d = 6 ∨ d = 7 ∨ d = 8
      ∨ d = 9 := by
    omega
  rcases this with
    rfl | rfl | rfl | rfl | rfl | rfl | rfl | rfl | rfl | rfl <;> rfl

/-- **Reading undoes writing.** -/
@[simp] theorem value_ofNat (n : Nat) : value (ofNat n) = n := by
  induction n using Nat.strongRecOn with
  | _ n ih =>
    rw [ofNat]
    split
    · next h => simpa using value_append_singleton [] (digit n) |>.trans (by
        simp [digitValue_digit h])
    · next h =>
      rw [value_append_singleton, ih (n / 10) (by omega),
        digitValue_digit (Nat.mod_lt n (by omega))]
      omega

/-- A numeral has at least one digit, … -/
theorem ofNat_ne_nil (n : Nat) : ofNat n ≠ [] := by
  rw [ofNat]
  split <;> simp

/-- … and nothing but digits. -/
theorem isDigit_of_mem_ofNat {n : Nat} {c : Char} (h : c ∈ ofNat n) :
    c.isDigit = true := by
  induction n using Nat.strongRecOn with
  | _ n ih =>
    rw [ofNat] at h
    split at h
    · next hn => exact List.mem_singleton.1 h ▸ isDigit_digit hn
    · next hn =>
      rcases List.mem_append.1 h with h | h
      · exact ih (n / 10) (by omega) h
      · exact List.mem_singleton.1 h ▸ isDigit_digit (Nat.mod_lt n (by omega))

end Decimal

end CommittedChoice
