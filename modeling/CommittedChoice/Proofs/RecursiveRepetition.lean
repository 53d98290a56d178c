import CommittedChoice.Grammar.Basic
import CommittedChoice.Proofs.Parser.Repetition

/-!
# Repetition as a recursive grammar

The plain way to say what a repetition is takes two rules that refer to each
other:

* zero or more times is one or more times, or nothing;
* one or more times is once, and then zero or more times.

The parsers do not work like this. Zero or more times is a loop that collects
its values, and one or more times is built on that loop. Both readings agree on
every text, candidates and all, if every success leaves less text
(`Grammar.repetition_eq_recursion`). The parser may have several candidates: the
recursion goes on from the first one, because a sequence does, and the loop
because it looks at no other.

Nothing depends on how the recursion is run. The loop and what is built on it
solve the two rules, read as equations, and no other parsers do. The reason is
the same for the equations and for entries up to a depth: behind a success only
shorter texts matter (`Parser.Shrinks.bind_congr`).
-/

namespace CommittedChoice

namespace Parser

variable {α β : Type} {p : Parser α} {s : Text}

/-! ## Behind a success -/

/-- **What follows a success matters on shorter texts only.** -/
theorem Shrinks.bind_congr (hp : Shrinks p) {k l : α → Parser β}
    (h : ∀ a (r : Text), r.length < s.length → k a r = l a r) :
    (p >>= k) s = (p >>= l) s := by
  rw [bind_apply, bind_apply]
  exact Outcome.commit_congr fun a r others hs => h a r (hp hs)

/-- So two ways to go on after one time are the same if they are on shorter
  texts. -/
theorem Shrinks.cons_congr (hp : Shrinks p) {m m' : Parser (List α)}
    (h : ∀ r : Text, r.length < s.length → m r = m' r) :
    (pure List.cons <*> p <*> m) s = (pure List.cons <*> p <*> m') s := by
  refine (hp.map List.cons).bind_congr (k := (· <$> m)) (l := (· <$> m'))
    fun f r hr => ?_
  rw [map_apply, map_apply, h r hr]

/-! ## The equations -/

/-- **The equations of a repetition**, for a parser of zero or more times and
  one of one or more times. -/
structure Repeats (p : Parser α) (zeroOrMore oneOrMore : Parser (List α)) :
    Prop where
  /-- Zero or more times is one or more times, or nothing. -/
  zeroOrMore_eq : zeroOrMore = (oneOrMore <|> pure [])
  /-- One or more times is once, and then zero or more times. -/
  oneOrMore_eq : oneOrMore = (pure List.cons <*> p <*> lazy fun _ => zeroOrMore)

/-- The loop, and what is built on it, solve the equations. -/
theorem repeats_many (hp : Shrinks p) : Repeats p (many p) (many1 p) :=
  ⟨many_eq_orElse hp, rfl⟩

/-- **There is no other solution.** The induction is on the length of the text,
  as one or more times goes on with zero or more times on less of it. -/
theorem Repeats.eq_many (hp : Shrinks p) {m m₁ : Parser (List α)}
    (h : Repeats p m m₁) : m = many p ∧ m₁ = many1 p := by
  have hone (s : Text) (ih : ∀ r : Text, r.length < s.length → m r = many p r) :
      m₁ s = many1 p s := by
    rw [h.oneOrMore_eq]
    exact hp.cons_congr ih
  have hzero (s : Text) : m s = many p s := by
    induction hn : s.length using Nat.strongRecOn generalizing s with
    | ind n ih =>
      subst hn
      rw [h.zeroOrMore_eq, many_eq_orElse hp, orElse_apply, orElse_apply,
        hone s fun r hr => ih _ hr r rfl]
  exact ⟨ext hzero, ext fun s => hone s fun r _ => hzero r⟩

end Parser

open CommittedChoice.Parser

variable {α : Type} {p : Parser α}

/-! ## The grammar -/

/-- The rules of a repetition. -/
inductive Repeated where
  /-- Zero or more times. -/
  | zeroOrMore
  /-- One or more times. -/
  | oneOrMore
deriving DecidableEq, Repr

namespace Grammar

/-- **The grammar of a repetition.** The reference back to the first rule is
  deferred, and one or more times goes on with it only behind a success. -/
def repetition (p : Parser α) : Grammar fun _ : Repeated => List α where
  body
    | .zeroOrMore => .choice (.rule .oneOrMore) (.pure [])
    | .oneOrMore =>
      .seq (.seq (.pure List.cons) (.base p)) (.lazy fun _ => .rule .zeroOrMore)
  rules := [.zeroOrMore, .oneOrMore]
  mem_rules r := by cases r <;> simp

/-- **Two entries for each character are deep enough**, and one more for the
  last time that the parser fails. -/
theorem repetition_atDepth (hp : Shrinks p) (n : Nat) (s : Text) :
    (2 * s.length + 1 ≤ n → (repetition p).atDepth n .oneOrMore s = many1 p s)
      ∧ (2 * s.length + 2 ≤ n →
          (repetition p).atDepth n .zeroOrMore s = many p s) := by
  induction n generalizing s with
  | zero => exact ⟨fun h => by omega, fun h => by omega⟩
  | succ n ih =>
    constructor
    · intro hn
      show (pure List.cons <*> p <*> (repetition p).atDepth n .zeroOrMore) s
          = many1 p s
      exact hp.cons_congr fun r hr => (ih r).2 (by omega)
    · intro hn
      show ((repetition p).atDepth n .oneOrMore <|> pure []) s = many p s
      rw [many_eq_orElse hp, orElse_apply, orElse_apply, (ih s).1 (by omega)]

/-- **The loop is the recursion.** If every success of a parser leaves less
  text, then on every text zero or more times has the candidates of the first
  rule of the recursive grammar, and one or more times those of the second. Zero
  or more times is one or more times or nothing, and the two rules, read as
  equations, have no other solution. If the runs of the parser end, so do
  these. -/
theorem repetition_eq_recursion (hp : Shrinks p) :
    (∀ s, many p s = (repetition p).parser (.rule .zeroOrMore) s)
      ∧ (∀ s, many1 p s = (repetition p).parser (.rule .oneOrMore) s)
      ∧ (∀ s, many p s = (many1 p <|> pure []) s)
      ∧ Repeats p (many p) (many1 p)
      ∧ (∀ m m₁, Repeats p m m₁ → m = many p ∧ m₁ = many1 p)
      ∧ ((∀ t, EndsOn p t) → ∀ s, EndsOn (many p) s ∧ EndsOn (many1 p) s) := by
  have hparser (s : Text) (r : Repeated) : (repetition p).parser (.rule r) s
      = (repetition p).atDepth (2 * (s.length + 1)) r s := by
    rw [parser_apply, unroll_eq_atDepth]
    rfl
  refine ⟨fun s => ?_, fun s => ?_, fun s => congrFun (many_eq_orElse hp) s,
    repeats_many hp, fun _ _ h => h.eq_many hp,
    fun hends s => ⟨.many hp (hends s) fun t _ => hends t, .many1 hp hends s⟩⟩
  · rw [hparser, (repetition_atDepth hp _ s).2 (by omega)]
  · rw [hparser, (repetition_atDepth hp _ s).1 (by omega)]

/-- A parser of two candidates, in both readings. -/
theorem repetition_eq_recursion_letters :
    Shrinks letterOrStay
      ∧ (repetition letterOrStay).parser (.rule .zeroOrMore) "ab1".toList
          = some [(['a', 'b'], ['1'])]
      ∧ many letterOrStay "ab1".toList = some [(['a', 'b'], ['1'])] := by
  have h : (repetition letterOrStay).parser (.rule .zeroOrMore) "ab1".toList
      = some [(['a', 'b'], ['1'])] := by rfl
  obtain ⟨hany, -⟩ := repetition_eq_recursion shrinks_letterOrStay
  exact ⟨shrinks_letterOrStay, h, (hany _).trans h⟩

end Grammar

end CommittedChoice
