import CommittedChoice.Lexer

/-!
# What the lexers take

A repetition of a character class takes the longest run of characters of that
class (`Parser.many_sat`), and all lexers are built on such runs. A token is
therefore the parser behind it, run on what is left when the white space in
front is gone (`Lexer.token_apply`); a literal is a test for a prefix; and a
number takes the whole run of digits or nothing (`Lexer.digits_apply`).

Nothing here refers to a loop or to its budget any more, and no later module
needs to.
-/

namespace CommittedChoice

namespace Parser

variable {q : Char → Bool} {s : Text}

/-! ## Runs of a character class -/

/-- The chain of a class is the longest run of it. -/
theorem chain_sat (q : Char → Bool) (s : Text) :
    Chain (sat q) s (s.takeWhile q) (s.dropWhile q) := by
  induction s with
  | nil => exact .nil rfl
  | cons c s ih =>
    by_cases h : q c = true
    · rw [List.takeWhile_cons_of_pos h, List.dropWhile_cons_of_pos h]
      exact .cons (by rw [sat_cons, if_pos h]) ih
    · rw [List.takeWhile_cons_of_neg h, List.dropWhile_cons_of_neg h]
      exact .nil (by rw [sat_cons, if_neg h])

/-- A character is less text. -/
theorem shrinks_sat (q : Char → Bool) : Shrinks (sat q) := by
  intro s a r others h
  cases s with
  | nil => simp at h
  | cons c s =>
    rw [sat_cons] at h
    split at h
    · obtain ⟨⟨-, rfl⟩, -⟩ : _ ∧ _ := by simpa using h
      exact Nat.lt_succ_self _
    · simp at h

/-- Where no character of a class comes next, the class fails. -/
theorem sat_of_head (h : ∀ c ∈ s.head?, q c = false) : sat q s = some [] := by
  cases s with
  | nil => rfl
  | cons c s => rw [sat_cons, if_neg (by simp [h c rfl])]

/-- The text behind the longest run does not go on with it. -/
theorem head_dropWhile (q : Char → Bool) (s : Text) :
    ∀ c ∈ (s.dropWhile q).head?, q c = false := by
  intro c hc
  have h := List.head?_dropWhile_not q s
  rwa [Option.mem_def.1 hc] at h

/-- A run of a class is the longest one if the text behind it does not go on
  with it. -/
theorem takeWhile_append_of_head {run t : Text} (hrun : ∀ c ∈ run, q c = true)
    (ht : ∀ c ∈ t.head?, q c = false) : (run ++ t).takeWhile q = run := by
  rw [List.takeWhile_append_of_pos hrun]
  cases t with
  | nil => rw [List.takeWhile_nil, List.append_nil]
  | cons c t =>
    rw [List.takeWhile_cons_of_neg (by simp [ht c rfl]), List.append_nil]

/-- And the text behind it is what is left. -/
theorem dropWhile_append_of_head {run t : Text} (hrun : ∀ c ∈ run, q c = true)
    (ht : ∀ c ∈ t.head?, q c = false) : (run ++ t).dropWhile q = t := by
  rw [List.dropWhile_append_of_pos hrun]
  cases t with
  | nil => rfl
  | cons c t => exact List.dropWhile_cons_of_neg (by simp [ht c rfl])

/-- **A repeated class takes the longest run of it.** -/
theorem many_sat (q : Char → Bool) (s : Text) :
    many (sat q) s = some [(s.takeWhile q, s.dropWhile q)] :=
  many_eq_of_chain (shrinks_sat q) (chain_sat q s)

/-- One character or more: the longest run again, which must not be empty. -/
theorem many1_sat (q : Char → Bool) (s : Text) :
    many1 (sat q) s
      = if s.takeWhile q = [] then some []
        else some [(s.takeWhile q, s.dropWhile q)] := by
  unfold many1
  cases s with
  | nil => rfl
  | cons c s =>
    by_cases h : q c = true
    · rw [List.takeWhile_cons_of_pos h, List.dropWhile_cons_of_pos h]
      simp [h, many_sat]
    · rw [List.takeWhile_cons_of_neg h]
      simp [h]

end Parser

/-! ## White space in front -/

/-- **A text without the white space in front of it.** -/
def skipBlanks (s : Text) : Text := s.dropWhile isBlank

@[simp] theorem skipBlanks_nil : skipBlanks [] = [] := rfl

/-- All of a run of white space is skipped, … -/
theorem skipBlanks_append {w : Text} (hw : ∀ c ∈ w, isBlank c = true)
    (s : Text) :
    skipBlanks (w ++ s) = skipBlanks s :=
  List.dropWhile_append_of_pos hw

/-- … and nothing else. -/
theorem skipBlanks_cons {c : Char} (hc : isBlank c = false) (s : Text) :
    skipBlanks (c :: s) = c :: s :=
  List.dropWhile_cons_of_neg (by simp [hc])

theorem skipBlanks_suffix (s : Text) : skipBlanks s <:+ s :=
  List.dropWhile_suffix _

/-- What is skipped is white space. -/
theorem exists_blanks_append_skipBlanks (s : Text) :
    ∃ w, (∀ c ∈ w, isBlank c = true) ∧ s = w ++ skipBlanks s :=
  ⟨s.takeWhile isBlank, List.all_eq_true.1 List.all_takeWhile,
    List.takeWhile_append_dropWhile.symm⟩

/-- A digit is no white space. -/
theorem isBlank_eq_false_of_isDigit {c : Char} (h : c.isDigit = true) :
    isBlank c = false := by
  rw [← Bool.not_eq_true, isBlank_iff]
  rintro ⟨range, hrange, hc⟩
  have h₁ : 48 ≤ c.toNat ∧ c.toNat ≤ 57 := Char.isDigit_iff_toNat.1 h
  simp only [blankRanges, List.mem_cons, List.not_mem_nil, or_false] at hrange
  rcases hrange with
    rfl | rfl | rfl | rfl | rfl | rfl | rfl | rfl | rfl | rfl <;>
    (dsimp only at hc; omega)

theorem isDigit_eq_false_of_isBlank {c : Char} (h : isBlank c = true) :
    c.isDigit = false := by
  cases hc : c.isDigit with
  | false => rfl
  | true => exact absurd h (by simp [isBlank_eq_false_of_isDigit hc])

namespace Lexer

open CommittedChoice.Parser

variable {α : Type}

@[simp] theorem space_apply (s : Text) :
    space s = some [((), skipBlanks s)] := by
  unfold space
  rw [bind_apply, many_sat]
  rfl

/-- **A token** is what it stands in front of, run behind the white space. -/
theorem token_apply (p : Parser α) (s : Text) :
    token p s = p (skipBlanks s) := by
  unfold token
  rw [bind_apply, space_apply]
  rfl

/-! ## Literals -/

theorem char_cons (c d : Char) (s : Text) :
    char c (d :: s) = if d = c then some [(d, s)] else some [] := by
  unfold char
  simp only [sat_cons, beq_iff_eq]

/-- A character fails where another one comes next, or none. -/
theorem char_of_head?_ne {c : Char} {s : Text} (h : s.head? ≠ some c) :
    char c s = some [] :=
  sat_of_head fun _ hd => beq_false_of_ne fun hdc => h (hdc ▸ hd)

/-- **A literal takes itself** off the front of a text, … -/
theorem literal_append (l r : Text) : literal l (l ++ r) = some [(l, r)] := by
  induction l with
  | nil => rfl
  | cons c l ih =>
    show Outcome.commit (char c (c :: (l ++ r))) _ = _
    rw [char_cons, if_pos rfl, Outcome.commit_cons, bind_apply, ih]
    rfl

/-- … and fails if it is not there. -/
theorem literal_of_not_isPrefix {l s : Text} (h : ¬ l <+: s) :
    literal l s = some [] := by
  induction l generalizing s with
  | nil => exact absurd List.nil_prefix h
  | cons c l ih =>
    cases s with
    | nil => rfl
    | cons d s =>
      show Outcome.commit (char c (d :: s)) _ = _
      rw [char_cons]
      split
      · next hd =>
        subst hd
        have hl : ¬ l <+: s := fun hl => h (List.cons_prefix_cons.2 ⟨rfl, hl⟩)
        rw [Outcome.commit_cons, bind_apply, ih hl]
        rfl
      · rfl

/-- **A symbol of one character** that comes next is taken, … -/
theorem symbol_of_skipBlanks {c : Char} {s t : Text}
    (h : skipBlanks s = c :: t) :
    symbol [c] s = some [([c], t)] := by
  unfold symbol
  rw [token_apply, h]
  exact literal_append [c] t

/-- … and any other one fails. -/
theorem symbol_of_head?_ne {c : Char} {s : Text}
    (h : (skipBlanks s).head? ≠ some c) :
    symbol [c] s = some [] := by
  unfold symbol
  rw [token_apply]
  refine literal_of_not_isPrefix fun hp => h ?_
  obtain ⟨t, ht⟩ := hp
  rw [← ht]
  rfl

/-! ## Numbers -/

/-- **A number is the whole run of digits**, or it is none. -/
theorem digits_apply (read : Nat → Int) (s : Text) :
    digits read s
      = if s.takeWhile Char.isDigit = [] then some []
        else match
            Word.ofInt? (read (Decimal.value (s.takeWhile Char.isDigit))) with
          | none => some []
          | some w => some [(w, s.dropWhile Char.isDigit)] := by
  unfold digits digit
  rw [bind_apply, many1_sat]
  split
  · rfl
  · rw [Outcome.commit_cons]
    split
    · next h => rw [h]; rfl
    · next h => rw [h]; rfl

end Lexer

end CommittedChoice
