import CommittedChoice.Arithmetic
import CommittedChoice.Proofs.Lexer.Span
import CommittedChoice.Proofs.Parser.Ending

/-!
# Nested brackets

A rule that refers to itself between an opening and a closing bracket, or reads
nothing, counts how deep the brackets are nested. Its choice is made anew at
every depth, on the text of that depth. So a bracket that is never closed could
be thought to cost one level only, with the levels inside of it counted.

It costs all of them. Where the closing brackets run out, the level in question
has read nothing, and its text still begins with an opening bracket. The level
around it therefore finds no closing bracket, reads nothing either, and so on
out to the first one (`Grammar.brackets_all_or_nothing`).

The induction is on the number of opening brackets. It has two cases for the
level inside, all closed or nothing read, and in the second one it is the
opening bracket in front of what is left that makes the next level fail. All of
this follows from the equation of the rule, so the rule is the only parser that
solves the equation (`Parser.Nests.unique`).
-/

namespace CommittedChoice

open CommittedChoice.Parser Lexer

namespace Parser

/-- **The equation of nested brackets**: a bracket, the same again, and a
  closing bracket for one level more, or nothing. -/
def Nests (p : Parser Nat) : Prop :=
  p = ((do
    let _ ← char '('
    let depth ← lazy fun _ => p
    let _ ← char ')'
    pure (depth + 1)) <|> pure 0)

namespace Nests

variable {p q : Parser Nat} {s t r : Text} {k d : Nat}
    {others : List (Candidate Nat)}

/-! ## One level -/

/-- What a solution does on a text. -/
theorem apply (hp : Nests p) (s : Text) :
    p s = ((char '(' s).commit fun _ => p >>= fun depth => char ')' >>= fun _ =>
      pure (depth + 1)).orElse fun _ => some [(0, s)] :=
  congrFun hp s

/-- Without an opening bracket, nothing is read. -/
theorem of_head?_ne (hp : Nests p) (hs : s.head? ≠ some '(') :
    p s = some [(0, s)] := by
  rw [hp.apply, char_of_head?_ne hs, Outcome.commit_nil, Outcome.orElse_nil]

/-- **A closing bracket behind what was read** makes one level more, … -/
theorem of_closed (hp : Nests p) (hs : p s = some ((d, ')' :: r) :: others)) :
    p ('(' :: s) = some [(d + 1, r)] := by
  rw [hp.apply, char_cons, if_pos rfl, Outcome.commit_cons, bind_apply, hs,
    Outcome.commit_cons, bind_apply, char_cons, if_pos rfl]
  rfl

/-- … **and without one, nothing is read**, not even the levels inside. -/
theorem of_unclosed (hp : Nests p) (hs : p s = some ((d, r) :: others))
    (hr : r.head? ≠ some ')') : p ('(' :: s) = some [(0, '(' :: s)] := by
  rw [hp.apply, char_cons, if_pos rfl, Outcome.commit_cons, bind_apply, hs,
    Outcome.commit_cons, bind_apply, char_of_head?_ne hr, Outcome.commit_nil,
    Outcome.orElse_nil]

/-! ## All levels -/

/-- **All brackets are closed, or nothing is read.** -/
theorem closed_or_unclosed (hp : Nests p) (k : Nat) (ht : t.head? ≠ some '(') :
    (∃ r, t = List.replicate k ')' ++ r ∧ p (List.replicate k '(' ++ t)
      = some [(k, r)])
      ∨ (¬ List.replicate k ')' <+: t
          ∧ p (List.replicate k '(' ++ t)
              = some [(0, List.replicate k '(' ++ t)]) := by
  induction k with
  | zero => exact .inl ⟨t, rfl, hp.of_head?_ne ht⟩
  | succ k ih =>
    have hopening : List.replicate (k + 1) '(' ++ t
        = '(' :: (List.replicate k '(' ++ t) := rfl
    have hclosing :
        List.replicate (k + 1) ')' = List.replicate k ')' ++ [')'] :=
      List.replicate_succ'
    rw [hopening, hclosing]
    obtain ⟨r, rfl, hinner⟩ | ⟨hshort, hinner⟩ := ih
    · -- the levels inside are closed, and the next character decides on
      -- this one
      by_cases hr : r.head? = some ')'
      · obtain ⟨r, rfl⟩ := List.head?_eq_some_iff.1 hr
        exact .inl ⟨r, by simp, hp.of_closed hinner⟩
      · refine .inr ⟨fun hprefix => hr ?_, hp.of_unclosed hinner hr⟩
        obtain ⟨u, hu⟩ := (List.prefix_append_right_inj _).1 hprefix
        rw [← hu]
        rfl
    · -- the levels inside have read nothing, so what comes next is an opening
      -- bracket
      refine .inr ⟨fun hprefix => hshort ?_, hp.of_unclosed hinner ?_⟩
      · exact (List.prefix_append _ _).trans hprefix
      · cases k with
        | zero => exact absurd List.nil_prefix hshort
        | succ k => simp [List.replicate_succ]

/-- Every text is opening brackets, maybe none, and a text that begins with
  something else. -/
theorem exists_eq_replicate_append (s : Text) :
    ∃ k t, s = List.replicate k '(' ++ t ∧ t.head? ≠ some '(' := by
  induction s with
  | nil => exact ⟨0, [], rfl, by simp⟩
  | cons c s ih =>
    by_cases hc : c = '('
    · obtain ⟨k, t, hs, ht⟩ := ih
      exact ⟨k + 1, t,
        by rw [hc, hs, List.replicate_succ, List.cons_append], ht⟩
    · exact ⟨0, c :: s, rfl, by simpa using hc⟩

/-- The number of opening brackets, and what is behind them, decide what
  is read. -/
theorem apply_brackets (hp : Nests p) (k : Nat) (ht : t.head? ≠ some '(') :
    p (List.replicate k '(' ++ t)
      = if List.replicate k ')' <+: t then some [(k, t.drop k)]
        else some [(0, List.replicate k '(' ++ t)] := by
  obtain ⟨r, rfl, hs⟩ | ⟨hshort, hs⟩ := hp.closed_or_unclosed k ht
  · rw [if_pos (List.prefix_append _ r), hs,
      List.drop_left' List.length_replicate]
  · rw [if_neg hshort, hs]

/-- **The equation has one solution at most**, as it says what is read on
  every text. -/
theorem unique (hp : Nests p) (hq : Nests q) : p = q := by
  ext1 s
  obtain ⟨k, t, rfl, ht⟩ := exists_eq_replicate_append s
  rw [hp.apply_brackets k ht, hq.apply_brackets k ht]

/-- **A whole text** is some opening brackets and as many closing ones. -/
theorem complete_eq_ok_iff (hp : Nests p) :
    p.complete s = some (.ok k)
      ↔ s = List.replicate k '(' ++ List.replicate k ')' := by
  rw [Parser.complete_eq_ok_iff]
  constructor
  · rintro ⟨others, h⟩
    obtain ⟨n, t, rfl, ht⟩ := exists_eq_replicate_append s
    obtain ⟨r, rfl, hs⟩ | ⟨hshort, hs⟩ := hp.closed_or_unclosed n ht
    · obtain ⟨⟨rfl, rfl⟩, -⟩ : (n = k ∧ r = []) ∧ [] = others := by
        simpa [hs] using h
      rw [List.append_nil]
    · -- nothing is left of the text, so there were no brackets, and none were
      -- missing
      obtain ⟨⟨-, hn, -⟩, -⟩ : (0 = k ∧ n = 0 ∧ t = []) ∧ [] = others := by
        simpa [hs] using h
      exact absurd (hn ▸ List.nil_prefix) hshort
  · rintro rfl
    have hhead : (List.replicate k ')').head? ≠ some '(' := by
      cases k <;> simp [List.replicate_succ]
    refine ⟨[], ?_⟩
    rw [hp.apply_brackets k hhead, if_pos (List.prefix_refl _),
      List.drop_eq_nil_of_le (by simp)]

end Nests

end Parser

/-! ## The rule -/

namespace Grammar

/-- **The rule of nested brackets**, which refers to itself. -/
def brackets : Grammar fun _ : Unit => Nat :=
  ofBody ((do
    let _ ← .base (char '(')
    let depth ← .lazy fun _ => Expression.rule ()
    let _ ← .base (char ')')
    pure (depth + 1)) <|> pure 0)

/-- The rule solves the equation. -/
theorem nests_brackets : Nests (brackets.parser (.rule ())) := by
  have hfront : ∀ r, (brackets.body r).ReadsFront := fun _ =>
    ⟨⟨leavesSuffix_char '(', fun _ => ⟨trivial, fun _ => ⟨leavesSuffix_char ')',
      fun _ => trivial⟩⟩⟩, trivial⟩
  exact parser_rule hfront ()

/-- **Nested brackets are read as a whole or not at all.** Every text is a
  number of opening brackets and a text that begins with something else. If that
  begins with as many closing brackets or more, the rule has the number for its
  only value and leaves what is behind that many closing brackets. Otherwise its
  only value is zero, and it leaves the whole text. So the rule ends on every
  text, and it reads a whole text exactly if that is some opening brackets and
  as many closing ones. No other parser solves the equation of the rule. -/
theorem brackets_all_or_nothing :
    (∀ (s : Text) (k : Nat) (t : Text), s = List.replicate k '(' ++ t →
      t.head? ≠ some '(' →
        (List.replicate k ')' <+: t →
          brackets.parser (.rule ()) s = some [(k, t.drop k)])
          ∧ (¬ List.replicate k ')' <+: t →
              brackets.parser (.rule ()) s = some [(0, s)]))
      ∧ (∀ s : Text, ∃ k t, s = List.replicate k '(' ++ t ∧ t.head? ≠ some '(')
      ∧ (∀ s, EndsOn (brackets.parser (.rule ())) s)
      ∧ (∀ s k, (brackets.parser (.rule ())).complete s = some (.ok k)
          ↔ s = List.replicate k '(' ++ List.replicate k ')')
      ∧ ∀ p, Nests p → p = brackets.parser (.rule ()) := by
  have hrule := nests_brackets
  refine ⟨fun s k t hs ht => ?_, Nests.exists_eq_replicate_append, fun s => ?_,
    fun s k => hrule.complete_eq_ok_iff, fun p hp => hp.unique hrule⟩
  · rw [hs, hrule.apply_brackets k ht]
    exact ⟨fun h => if_pos h, fun h => if_neg h⟩
  · obtain ⟨k, t, rfl, ht⟩ := Nests.exists_eq_replicate_append s
    obtain ⟨r, -, hs⟩ | ⟨-, hs⟩ := hrule.closed_or_unclosed k ht
    · exact ⟨_, hs⟩
    · exact ⟨_, hs⟩

/-- A closing bracket is missing, and one is left over. -/
theorem brackets_all_or_nothing_uneven :
    (")x".toList.head? ≠ some '(' ∧ ¬ List.replicate 2 ')' <+: ")x".toList
        ∧ brackets.parser (.rule ()) "(()x".toList = some [(0, "(()x".toList)])
      ∧ ("))x".toList.head? ≠ some '(' ∧ List.replicate 1 ')' <+: "))x".toList
        ∧ brackets.parser (.rule ()) "())x".toList
            = some [(1, ")x".toList)]) := by
  have hread := brackets_all_or_nothing.1
  have hshort : ¬ List.replicate 2 ')' <+: ")x".toList := by decide +kernel
  have hlong : List.replicate 1 ')' <+: "))x".toList := by decide +kernel
  have hhead : ")x".toList.head? ≠ some '(' := by decide +kernel
  have hhead' : "))x".toList.head? ≠ some '(' := by decide +kernel
  exact ⟨⟨hhead, hshort, (hread _ 2 _ rfl hhead).2 hshort⟩,
    hhead', hlong, (hread _ 1 _ rfl hhead').1 hlong⟩

end Grammar

end CommittedChoice
