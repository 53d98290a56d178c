import CommittedChoice.Proofs.Arithmetic.Language
import CommittedChoice.Proofs.Arithmetic.Progress

/-!
# What a rule takes is a text of its own

A rule stops where it can go no further: at the end of the text, at an operator
that would lead out of range or has no operand behind it, at a parenthesis that
is never closed. What it took up to there does not depend on the reason. Read
alone, without the text behind it, the rule takes all of it and finds the same
value (`Arithmetic.rules_take_excerpts`).

This is not so for parsers in general. With more text behind it, a first
alternative may fail that would have succeeded, and the second one may take
less. Here it holds because a candidate stands for a phrase, and because the end
of a text may follow every phrase: in front of it the rule takes the phrase
again.
-/

namespace CommittedChoice

namespace Arithmetic

variable {r : Rule} {s t : Text} {v : Word}

/-! ## The last character of a phrase -/

/-- A numeral ends with a digit, … -/
theorem Numeral.exists_eq_append (d : Numeral) :
    ∃ front c, d.text = front ++ [c] ∧ isBlank c = false := by
  have hlast : d.text.getLast d.ne_nil ∈ d.text := List.getLast_mem d.ne_nil
  exact ⟨d.text.dropLast, d.text.getLast d.ne_nil,
    (List.dropLast_concat_getLast d.ne_nil).symm,
    isBlank_eq_false_of_isDigit (d.isDigit_of_mem _ hlast)⟩

/-- … so a phrase ends with a digit or with a parenthesis, and not with white
  space. -/
theorem Phrase.exists_eq_append (e : Phrase r) :
    ∃ front c, e.text = front ++ [c] ∧ isBlank c = false := by
  induction e with
  | term a ih => exact ih
  | sum a w b _ ih =>
    obtain ⟨front, c, hb, hc⟩ := ih
    exact ⟨a.text ++ (w.text ++ '+' :: front), c, by simp [text, hb], hc⟩
  | difference a w b _ ih =>
    obtain ⟨front, c, hb, hc⟩ := ih
    exact ⟨a.text ++ (w.text ++ '-' :: front), c, by simp [text, hb], hc⟩
  | factor a ih => exact ih
  | product a w b _ ih =>
    obtain ⟨front, c, hb, hc⟩ := ih
    exact ⟨a.text ++ (w.text ++ '*' :: front), c, by simp [text, hb], hc⟩
  | parentheses w a w' _ =>
    exact ⟨w.text ++ '(' :: (a.text ++ w'.text), ')', by simp [text], by decide⟩
  | number w d =>
    obtain ⟨front, c, hd, hc⟩ := d.exists_eq_append
    exact ⟨w.text ++ front, c, by simp [text, hd], hc⟩

/-! ## Reading it again -/

/-- **An excerpt of a text** up to what is left of it: it is not empty, does not
  end with white space, and the rule takes all of it with the given value. -/
structure Excerpt (r : Rule) (s : Text) (v : Word) (t : Text) (front : Text) :
    Prop where
  /-- It is the front of the text. -/
  eq_append : s = front ++ t
  /-- There is some of it. -/
  ne_nil : front ≠ []
  /-- White space behind it is not part of it. -/
  last : ∀ c ∈ front.getLast?, isBlank c = false
  /-- The rule takes it as a whole. -/
  parser_eq : r.parser front = some [(v, [])]

/-- **What a candidate took is an excerpt.** -/
theorem exists_excerpt (h : r.parser s = some [(v, t)]) :
    ∃ front, Excerpt r s v t front := by
  obtain ⟨e, hfit, hval, hs⟩ := stands_of_offers ⟨_, h, List.mem_cons_self⟩
  obtain ⟨front, c, htext, hc⟩ := e.exists_eq_append
  -- the end of the text may follow the phrase, so the rule takes it there, too
  obtain ⟨v', hval', htaken⟩ := e.taken hfit r.ends_nil
  obtain rfl : v' = v := Int64.toInt_inj.1 (hval'.trans hval)
  rw [List.append_nil] at htaken
  refine ⟨e.text, hs, by rw [htext]; simp, fun d hd => ?_, htaken⟩
  obtain rfl : c = d := by simpa [htext] using hd
  exact hc

/-- An excerpt of an expression is evaluated to its value. -/
theorem Excerpt.evaluate_eq {front : Text} (h : Excerpt .expr s v t front) :
    evaluate front = some (.ok v) :=
  Parser.complete_eq_ok_iff.2 ⟨[], h.parser_eq⟩

/-- **A rule takes excerpts.** On every text, a rule fails or takes a front of
  the text that it also takes alone, with the same value. So an expression is
  evaluated to the value it was found to have in front of the text it left, and
  a text with unused input has a front with a value. -/
theorem rules_take_excerpts (s : Text) :
    (∀ r : Rule, r.parser s = some []
        ∨ ∃ v t front, r.parser s = some [(v, t)] ∧ Excerpt r s v t front)
      ∧ (∀ v t, expr s = some [(v, t)] →
          ∃ front, s = front ++ t ∧ evaluate front = some (.ok v))
      ∧ ∀ t, evaluate s = some (.error (.unusedInput t)) →
          t ≠ [] ∧ ∃ front v, s = front ++ t ∧ front ≠ [] ∧ evaluate front
            = some (.ok v) := by
  have hrule (r : Rule) : r.parser s = some []
      ∨ ∃ v t front, r.parser s = some [(v, t)] ∧ Excerpt r s v t front := by
    obtain hnil | ⟨v, t, h, -⟩ := settles_rule r s
    · exact .inl hnil
    · obtain ⟨front, hfront⟩ := exists_excerpt h
      exact .inr ⟨v, t, front, h, hfront⟩
  refine ⟨hrule, fun v t h => ?_, fun t h => ?_⟩
  · obtain ⟨front, hfront⟩ := exists_excerpt (r := .expr) h
    exact ⟨front, hfront.eq_append, hfront.evaluate_eq⟩
  · obtain ⟨ht, v, others, hs⟩ := Parser.complete_eq_unusedInput_iff.1 h
    -- there are no other candidates
    obtain hnil | ⟨v', t', front, h', hfront⟩ := hrule .expr
    · exact absurd (hs.symm.trans hnil) (by simp)
    · obtain ⟨⟨rfl, rfl⟩, -⟩ : (v = v' ∧ t = t') ∧ others = [] := by
        simpa using Option.some.inj (hs.symm.trans h')
      exact ⟨ht, front, v, hfront.eq_append, hfront.ne_nil, hfront.evaluate_eq⟩

/-- A parenthesis that is never closed, an overflow and an operator without an
  operand. -/
theorem rules_take_excerpts_unclosed :
    expr "2 * 3 * (4 * 9223372036854775807 * 2 -".toList
        = some [(6, " * (4 * 9223372036854775807 * 2 -".toList)]
      ∧ ∃ front, "2 * 3 * (4 * 9223372036854775807 * 2 -".toList
            = front ++ " * (4 * 9223372036854775807 * 2 -".toList
          ∧ evaluate front = some (.ok 6) := by
  have h : expr "2 * 3 * (4 * 9223372036854775807 * 2 -".toList
      = some [(6, " * (4 * 9223372036854775807 * 2 -".toList)] := by
    decide +kernel
  obtain ⟨-, hexpr, -⟩ :=
    rules_take_excerpts "2 * 3 * (4 * 9223372036854775807 * 2 -".toList
  exact ⟨h, hexpr _ _ h⟩

end Arithmetic

end CommittedChoice
