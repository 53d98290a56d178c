import Mathlib.Algebra.Group.Nat.Defs
import CommittedChoice.Proofs.Lexer.Span

/-!
# Numbers at the limits of words

A number is the whole run of digits at the front of a text, and what decides
about it is the exact value of the run. If that is a word, the number is this
word and the text behind the run is left; if it is not, there is no number, and
in particular not the one of a shorter run (`Lexer.numbers_exact`). A minus sign
in front changes the limit by one, because the run is read together with
its sign.

The value does not depend on zeros in front, however many there are, and the
number of a written word is that word.
-/

namespace CommittedChoice

namespace Decimal

/-- Zeros in front do not count. -/
theorem value_zeros_append (k : Nat) (ds : Text) :
    value (List.replicate k '0' ++ ds) = value ds := by
  induction k with
  | zero => rfl
  | succ k ih => exact ih

end Decimal

namespace Lexer

open CommittedChoice.Parser

variable {s t : Text} (read : Nat → Int)

/-! ## The run of digits and its exact value -/

/-- A run that stands for a word is read as that word, … -/
theorem digits_of_toInt_eq {w : Word} (hne : s.takeWhile Char.isDigit ≠ [])
    (hw : w.toInt = read (Decimal.value (s.takeWhile Char.isDigit))) :
    digits read s = some [(w, s.dropWhile Char.isDigit)] := by
  rw [digits_apply, if_neg hne, Word.ofInt?_eq_some_iff.2 hw]

/-- … one that stands for a greater or a smaller integer is not read, … -/
theorem digits_eq_nil_of_range
    (h : read (Decimal.value (s.takeWhile Char.isDigit)) < Word.least
      ∨ Word.greatest < read (Decimal.value (s.takeWhile Char.isDigit))) :
    digits read s = some [] := by
  rw [digits_apply, Word.ofInt?_eq_none_iff.2 h]
  exact ite_self _

/-- … and without a digit there is nothing to read. -/
theorem digits_eq_nil_of_takeWhile (h : s.takeWhile Char.isDigit = []) :
    digits read s = some [] := by
  rw [digits_apply, if_pos h]

/-- **A run of digits is read exactly.** -/
theorem digits_exact (s : Text) :
    if s.takeWhile Char.isDigit ≠ []
        ∧ Word.least ≤ read (Decimal.value (s.takeWhile Char.isDigit))
        ∧ read (Decimal.value (s.takeWhile Char.isDigit)) ≤ Word.greatest
    then ∃ w : Word, w.toInt = read (Decimal.value (s.takeWhile Char.isDigit))
      ∧ digits read s = some [(w, s.dropWhile Char.isDigit)]
    else digits read s = some [] := by
  split
  · next h =>
    obtain ⟨hne, hrange⟩ := h
    match hw :
        Word.ofInt? (read (Decimal.value (s.takeWhile Char.isDigit))) with
    | none => exact absurd (Word.ofInt?_eq_none_iff.1 hw) (by omega)
    | some w =>
      have hw := Word.ofInt?_eq_some_iff.1 hw
      exact ⟨w, hw, digits_of_toInt_eq read hne hw⟩
  · next h =>
    by_cases hne : s.takeWhile Char.isDigit = []
    · exact digits_eq_nil_of_takeWhile read hne
    · have hrange :
          ¬ (Word.least ≤ read (Decimal.value (s.takeWhile Char.isDigit))
            ∧ read (Decimal.value (s.takeWhile Char.isDigit))
              ≤ Word.greatest) :=
        fun hrange => h ⟨hne, hrange⟩
      exact digits_eq_nil_of_range read (by omega)

/-- Zeros in front of a digit change nothing. -/
theorem digits_zeros_append (k : Nat) {c : Char} (hc : c.isDigit = true)
    (s : Text) :
    digits read (List.replicate k '0' ++ c :: s) = digits read (c :: s) := by
  have hzeros : ∀ z ∈ List.replicate k '0', z.isDigit = true := fun z hz =>
    (List.eq_of_mem_replicate hz).symm ▸ rfl
  rw [digits_apply, digits_apply, List.takeWhile_append_of_pos hzeros,
    List.dropWhile_append_of_pos hzeros, Decimal.value_zeros_append,
    List.takeWhile_cons_of_pos hc]
  simp

/-- The numeral of a natural number is read in front of anything but a digit. -/
theorem digits_ofNat_append {n : Nat} {w : Word} (hw : w.toInt = read n)
    (ht : ∀ c ∈ t.head?, c.isDigit = false) :
    digits read (Decimal.ofNat n ++ t) = some [(w, t)] := by
  have hrun : ∀ c ∈ Decimal.ofNat n, c.isDigit = true := fun _ =>
    Decimal.isDigit_of_mem_ofNat
  have htake := takeWhile_append_of_head hrun ht
  have hread := digits_of_toInt_eq (s := Decimal.ofNat n ++ t) (w := w) read
    (by rw [htake]; exact Decimal.ofNat_ne_nil n)
    (by rw [htake, Decimal.value_ofNat, hw])
  rwa [dropWhile_append_of_head hrun ht] at hread

/-! ## The minus sign -/

/-- Behind a minus sign the digits are read with it, and nothing else is tried
  with success. -/
theorem int_minus (s : Text) : int ('-' :: s) = digits (fun n => -n) s := by
  have hnat : nat ('-' :: s) = some [] := digits_eq_nil_of_takeWhile _ rfl
  unfold int
  rw [orElse_apply, bind_apply, char_cons, if_pos rfl,
    Outcome.commit_cons, hnat]
  match digits (fun n => -n) s with
  | none => rfl
  | some [] => rfl
  | some (_ :: _) => rfl

/-- Without one, an integer is a natural number. -/
theorem int_of_head?_ne (h : s.head? ≠ some '-') : int s = nat s := by
  unfold int
  rw [orElse_apply, bind_apply, char_of_head?_ne h, Outcome.commit_nil,
    Outcome.orElse_nil]

/-- No numeral of a natural number starts with a minus sign. -/
theorem head?_ofNat_append_ne (n : Nat) (t : Text) :
    (Decimal.ofNat n ++ t).head? ≠ some '-' := by
  match hn : Decimal.ofNat n with
  | [] => exact absurd hn (Decimal.ofNat_ne_nil n)
  | c :: ds =>
    have hc : c.isDigit = true :=
      Decimal.isDigit_of_mem_ofNat (hn ▸ List.mem_cons_self)
    rintro ⟨⟩
    exact absurd hc (by decide)

/-- **Reading undoes writing**, for all words. -/
theorem int_ofInt_append (v : Word) (ht : ∀ c ∈ t.head?, c.isDigit = false) :
    int (Decimal.ofInt v.toInt ++ t) = some [(v, t)] := by
  match hv : v.toInt with
  | .ofNat n =>
    show int (Decimal.ofNat n ++ t) = _
    rw [int_of_head?_ne (head?_ofNat_append_ne n t)]
    exact digits_ofNat_append (fun n => n) hv ht
  | .negSucc n =>
    show int ('-' :: (Decimal.ofNat (n + 1) ++ t)) = _
    rw [int_minus]
    exact digits_ofNat_append (fun n => -n) hv ht

/-- The words that are not negative are read as natural numbers, too. -/
theorem nat_ofInt_append {v : Word} (hv : 0 ≤ v.toInt)
    (ht : ∀ c ∈ t.head?, c.isDigit = false) :
    nat (Decimal.ofInt v.toInt ++ t) = some [(v, t)] := by
  obtain ⟨n, hn⟩ := Int.eq_ofNat_of_zero_le hv
  rw [hn]
  exact digits_ofNat_append (fun n => n) hn ht

/-! ## The limits -/

/-- **Natural numbers and integers are read exactly.** Where the longest run of
  digits has a digit and a value of at most 2^63 - 1, a natural number is that
  value and leaves what is behind the run; otherwise there is none. Behind a
  minus sign the limit is 2^63 and the value is negative, and without the sign
  an integer is a natural number. Zeros in front of a digit change nothing, and
  every word is read back from its numeral in front of anything but a digit. -/
theorem numbers_exact (s : Text) :
    (if s.takeWhile Char.isDigit ≠ []
        ∧ Decimal.value (s.takeWhile Char.isDigit) ≤ 2 ^ 63 - 1
      then ∃ w : Word, w.toInt = Decimal.value (s.takeWhile Char.isDigit)
        ∧ nat s = some [(w, s.dropWhile Char.isDigit)]
      else nat s = some [])
    ∧ (if s.takeWhile Char.isDigit ≠ []
        ∧ Decimal.value (s.takeWhile Char.isDigit) ≤ 2 ^ 63
      then ∃ w : Word, w.toInt = -Decimal.value (s.takeWhile Char.isDigit)
        ∧ int ('-' :: s) = some [(w, s.dropWhile Char.isDigit)]
      else int ('-' :: s) = some [])
    ∧ (s.head? ≠ some '-' → int s = nat s)
    ∧ (∀ (k : Nat) (c : Char), c.isDigit = true →
        nat (List.replicate k '0' ++ c :: s) = nat (c :: s)
          ∧ int ('-' :: (List.replicate k '0' ++ c :: s)) = int ('-' :: c :: s))
    ∧ ∀ v : Word, (∀ c ∈ s.head?, c.isDigit = false) →
        int (Decimal.ofInt v.toInt ++ s) = some [(v, s)]
          ∧ (0 ≤ v.toInt →
              nat (Decimal.ofInt v.toInt ++ s) = some [(v, s)]) := by
  refine ⟨?_, ?_, int_of_head?_ne,
    fun k c hc => ⟨digits_zeros_append _ k hc s, ?_⟩,
    fun v hs => ⟨int_ofInt_append v hs, fun hv => nat_ofInt_append hv hs⟩⟩
  · have hlimit (n : Nat) :
        n ≤ 2 ^ 63 - 1 ↔ Word.least ≤ n ∧ n ≤ Word.greatest := by
      unfold Word.least Word.greatest
      omega
    simp only [hlimit]
    exact digits_exact (fun n => n) s
  · have hlimit (n : Nat) :
        n ≤ 2 ^ 63 ↔ Word.least ≤ -n ∧ -n ≤ Word.greatest := by
      unfold Word.least Word.greatest
      omega
    simp only [hlimit, int_minus]
    exact digits_exact (fun n => -n) s
  · rw [int_minus, int_minus, digits_zeros_append _ k hc]

/-- The least word has a numeral, though no word is its absolute value. -/
theorem numbers_exact_least :
    (∀ c ∈ [')'].head?, c.isDigit = false)
      ∧ Decimal.ofInt Int64.minValue.toInt = "-9223372036854775808".toList
      ∧ int (Decimal.ofInt Int64.minValue.toInt ++ [')'])
          = some [(Int64.minValue, [')'])] := by
  have hclose : ∀ c ∈ [')'].head?, c.isDigit = false := by simp
  obtain ⟨-, -, -, -, hread⟩ := numbers_exact [')']
  exact ⟨hclose, by decide +kernel, (hread Int64.minValue hclose).1⟩

end Lexer

end CommittedChoice
