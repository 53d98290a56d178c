import CommittedChoice.Proofs.Parser.Repetition

/-!
# The laws of committed choice

A choice is one side or the other, as a whole: the first one unless it fails. So
choices may be grouped as one likes, failure is neutral on both sides, and a
side that never fails hides the other one. A side that fails late leaves no
trace of what it had read.

A choice does not look at what comes behind it. Where the sides begin with the
same parser, that parser may be put in front of the choice, as it has the same
first candidate in both. A parser behind a choice may not be put into the sides:
if the first side matches and what comes behind it fails, the choice has been
made, while in the other order it is still open. This is the only difference
(`Parser.orElse_bind_eq_iff`), and so the law holds on a text exactly if this
does not happen there, or the other side is no better
(`Parser.committed_choice_laws`).
-/

namespace CommittedChoice

namespace Outcome

variable {α β : Type} {o : Outcome α}

/-- **A choice is its first side** unless that is a failed match. -/
theorem orElse_of_ne_nil (h : o ≠ some []) (other : Unit → Outcome α) :
    o.orElse other = o := by
  match o with
  | none => rfl
  | some [] => exact absurd rfl h
  | some (c :: cs) => rfl

theorem orElse_assoc (o : Outcome α) (o' o'' : Unit → Outcome α) :
    (o.orElse o').orElse o'' = o.orElse fun _ => (o' ()).orElse o'' := by
  match o with
  | none => rfl
  | some [] => rfl
  | some (c :: cs) => rfl

theorem map_orElse (f : α → β) (o : Outcome α) (other : Unit → Outcome α) :
    (o.orElse other).map f = (o.map f).orElse fun _ => (other ()).map f := by
  match o with
  | none => rfl
  | some [] => rfl
  | some (c :: cs) => rfl

/-- What is the same in front of both sides is put in front of the choice. -/
theorem commit_orElse_commit (o : Outcome α) (k l : α → Parser β) :
    ((o.commit k).orElse fun _ => o.commit l)
      = o.commit fun a => k a <|> l a := by
  match o with
  | none => rfl
  | some [] => rfl
  | some (c :: cs) => rfl

end Outcome

namespace Parser

variable {α β : Type} {p q : Parser α} {f : α → Parser β} {s : Text}

/-! ## One side or the other -/

theorem orElse_of_nil (h : p s = some []) (q : Parser α) :
    (p <|> q) s = q s := by
  rw [orElse_apply, h, Outcome.orElse_nil]

theorem orElse_of_ne_nil (h : p s ≠ some []) (q : Parser α) :
    (p <|> q) s = p s :=
  Outcome.orElse_of_ne_nil h _

/-- **Choices may be grouped as one likes.** -/
theorem orElse_assoc (p q r : Parser α) :
    ((p <|> q) <|> r) = (p <|> (q <|> r)) :=
  ext fun s => (p s).orElse_assoc (fun _ => q s) fun _ => r s

/-- Failure is neutral on the left … -/
theorem failure_orElse (p : Parser α) : (failure <|> p) = p := rfl

/-- … and on the right. -/
theorem orElse_failure (p : Parser α) : (p <|> failure) = p := by
  ext1 s
  by_cases h : p s = some []
  · exact (orElse_of_nil h failure).trans h.symm
  · exact orElse_of_ne_nil h failure

/-- Which side it is does not depend on the values. -/
theorem map_orElse (f : α → β) (p q : Parser α) :
    f <$> (p <|> q) = (f <$> p <|> f <$> q) :=
  ext fun s => (p s).map_orElse f fun _ => q s

/-- **A side that fails late leaves no trace** of what it read before. -/
theorem bind_failure_orElse (h : EndsOn p s) (q : Parser β) :
    ((p >>= fun _ => failure) <|> q : Parser β) s = q s := by
  refine orElse_of_nil ?_ q
  match h with
  | ⟨[], hs⟩ => rw [bind_apply, hs, Outcome.commit_nil]
  | ⟨(a, r) :: others, hs⟩ =>
    rw [bind_apply, hs, Outcome.commit_cons, failure_apply]

/-- **A repetition hides what comes after it** in a choice. -/
theorem many_orElse (p : Parser α) (q : Parser (List α)) :
    (many p <|> q) = many p :=
  ext fun _ => orElse_of_ne_nil many_ne_nil q

/-! ## In front of a choice, and behind it -/

/-- **A common first part** is put in front of the choice. -/
theorem bind_orElse_bind (p : Parser α) (f g : α → Parser β) :
    (p >>= f <|> p >>= g) = p >>= fun a => f a <|> g a :=
  ext fun s => (p s).commit_orElse_commit f g

theorem orElse_bind_of_nil (h : p s = some []) (q : Parser α)
    (f : α → Parser β) :
    ((p <|> q) >>= f) s = (q >>= f) s := by
  rw [bind_apply, orElse_of_nil h, bind_apply]

/-- **What comes behind a choice** comes behind the side that was taken. -/
theorem orElse_bind_of_ne_nil (h : p s ≠ some []) (q : Parser α)
    (f : α → Parser β) :
    ((p <|> q) >>= f) s = (p >>= f) s := by
  rw [bind_apply, orElse_of_ne_nil h, bind_apply]

/-- **When a last part may be put into the sides**: if the first side does not
  match, if the last part does not fail behind it, or if the second side does
  not help. -/
theorem orElse_bind_eq_iff :
    ((p <|> q) >>= f) s = (p >>= f <|> q >>= f) s
      ↔ p s = some [] ∨ (p >>= f) s ≠ some [] ∨ (q >>= f) s = some [] := by
  by_cases hp : p s = some []
  · have hfail : (p >>= f) s = some [] := by
      rw [bind_apply, hp, Outcome.commit_nil]
    rw [orElse_bind_of_nil hp, orElse_of_nil hfail]
    exact iff_of_true rfl (.inl hp)
  · rw [orElse_bind_of_ne_nil hp]
    by_cases hfail : (p >>= f) s = some []
    · rw [orElse_of_nil hfail, hfail]
      exact ⟨fun h => .inr (.inr h.symm),
        fun h => ((h.resolve_left hp).resolve_left (absurd rfl)).symm⟩
    · rw [orElse_of_ne_nil hfail]
      exact iff_of_true rfl (.inr (.inl hfail))

/-- **A match** on a text: the run ends, and there is a candidate. -/
def MatchesOn (p : Parser α) (s : Text) : Prop := ∃ c cs, p s = some (c :: cs)

/-- A run that ends without failing is a match. -/
theorem EndsOn.ne_nil_iff (h : EndsOn p s) : p s ≠ some [] ↔ MatchesOn p s := by
  match h with
  | ⟨[], hs⟩ => simp [MatchesOn, hs]
  | ⟨c :: cs, hs⟩ => simp [MatchesOn, hs]

/-- A sequence matches if its last part does behind the first candidate. -/
theorem matchesOn_bind_iff :
    MatchesOn (p >>= f) s
      ↔ ∃ a r others, p s = some ((a, r) :: others) ∧ MatchesOn (f a) r := by
  simp only [MatchesOn, bind_apply, Outcome.commit_eq_some_iff]
  constructor
  · rintro ⟨c, cs, ⟨-, h⟩ | ⟨a, r, others, hs, h⟩⟩
    · exact absurd h (List.cons_ne_nil c cs)
    · exact ⟨a, r, others, hs, c, cs, h⟩
  · rintro ⟨a, r, others, hs, c, cs, h⟩
    exact ⟨c, cs, .inr ⟨a, r, others, hs, h⟩⟩

/-! ## Whole texts -/

/-- Reading a whole text looks at the outcome on that text only. -/
theorem complete_congr (h : p s = q s) : p.complete s = q.complete s := by
  unfold complete
  rw [h]

/-- **A choice says of a whole text** what its first side says, … -/
theorem complete_orElse_of_ne (h : p.complete s ≠ some (.error .noMatch))
    (q : Parser α) :
    (p <|> q).complete s = p.complete s := by
  rw [Ne, complete_eq_noMatch_iff] at h
  exact complete_congr (orElse_of_ne_nil h q)

/-- … unless that is no match. -/
theorem complete_orElse_of_noMatch (h : p.complete s = some (.error .noMatch))
    (q : Parser α) :
    (p <|> q).complete s = q.complete s :=
  complete_congr (orElse_of_nil (complete_eq_noMatch_iff.1 h) q)

/-- **The laws of committed choice.** For parsers with any number of candidates,
  choices may be grouped as one likes, failure and a missing parser are neutral
  on both sides, and a function may be mapped over the sides; a side that fails
  late leaves no trace, if its run ends at all; a common first part may be put
  in front of the choice; and a repetition hides what comes after it. What comes
  behind a choice comes behind the first side if that does not fail, and behind
  the second one otherwise. So it may be put into the sides on a text exactly if
  the first side fails there, or what comes behind its first candidate matches,
  or what comes behind the second side fails as well; if the first side or what
  comes behind it has no end, neither order has. And of a whole text a choice
  says what its first side says, unless that is no match: unused input of the
  first side is never helped by the second. -/
theorem committed_choice_laws {α β : Type} :
    (∀ p q r : Parser α, ((p <|> q) <|> r) = (p <|> (q <|> r)))
      ∧ (∀ p : Parser α, (failure <|> p) = p ∧ (p <|> failure) = p
          ∧ (ofOption none <|> p) = p ∧ (p <|> ofOption none) = p)
      ∧ (∀ (h : α → β) (p q : Parser α),
          h <$> (p <|> q) = (h <$> p <|> h <$> q))
      ∧ (∀ (p : Parser α) (q : Parser β) (s : Text),
          (EndsOn p s → ((p >>= fun _ => failure) <|> q : Parser β) s = q s)
            ∧ (¬ EndsOn p s → ¬ EndsOn ((p >>= fun _ => failure) <|> q) s))
      ∧ (∀ (p : Parser α) (f g : α → Parser β),
          (p >>= f <|> p >>= g) = p >>= fun a => f a <|> g a)
      ∧ (∀ (p : Parser α) (q : Parser (List α)), (many p <|> q) = many p)
      ∧ (∀ (p q : Parser α) (f : α → Parser β) (s : Text),
          (p s ≠ some [] → ((p <|> q) >>= f) s = (p >>= f) s)
            ∧ (p s = some [] → ((p <|> q) >>= f) s = (q >>= f) s)
            ∧ (EndsOn (p >>= f) s →
                (((p <|> q) >>= f) s = (p >>= f <|> q >>= f) s
                  ↔ p s = some []
                    ∨ (∃ a r others, p s = some ((a, r) :: others)
                        ∧ MatchesOn (f a) r)
                    ∨ (q >>= f) s = some []))
            ∧ (¬ EndsOn (p >>= f) s →
                ((p <|> q) >>= f) s = (p >>= f <|> q >>= f) s))
      ∧ ∀ (p q : Parser α) (s : Text),
          (p.complete s ≠ some (.error .noMatch) →
            (p <|> q).complete s = p.complete s)
            ∧ (p.complete s = some (.error .noMatch) →
                (p <|> q).complete s = q.complete s)
            ∧ ∀ r, p.complete s = some (.error (.unusedInput r)) →
                (p <|> q).complete s = some (.error (.unusedInput r)) := by
  refine ⟨orElse_assoc,
    fun p => ⟨failure_orElse p, orElse_failure p, failure_orElse p,
      orElse_failure p⟩,
    map_orElse, fun p q s => ⟨fun h => bind_failure_orElse h q, fun h => ?_⟩,
    bind_orElse_bind, many_orElse,
    fun p q f s =>
      ⟨fun h => orElse_bind_of_ne_nil h q f, fun h => orElse_bind_of_nil h q f,
        fun h => ?_, fun h => ?_⟩,
    fun p q s =>
      ⟨fun h => complete_orElse_of_ne h q,
        fun h => complete_orElse_of_noMatch h q, fun r h => ?_⟩⟩
  · match hs : p s with
    | none => simp [EndsOn, hs]
    | some cs => exact absurd ⟨cs, hs⟩ h
  · rw [orElse_bind_eq_iff, h.ne_nil_iff, matchesOn_bind_iff]
  · exact orElse_bind_eq_iff.2 (.inr (.inl fun hs => h ⟨[], hs⟩))
  · exact (complete_orElse_of_ne (by rw [h]; simp) q).trans h

/-- A literal in front of a longer one. Behind the choice a last part fails that
  would match behind the longer literal, and a text that is the longer one is
  not read as a whole. -/
theorem committed_choice_laws_literals :
    ((Lexer.literal ['a'] <|> Lexer.literal ['a', 'b'])
          >>= fun _ => Lexer.char 'c') ['a', 'b', 'c']
        = some []
      ∧ (Lexer.literal ['a', 'b'] >>= fun _ => Lexer.char 'c') ['a', 'b', 'c']
          = some [('c', [])]
      ∧ ((Lexer.literal ['a'] <|> Lexer.literal ['a', 'b'])
            >>= fun _ => Lexer.char 'c') ['a', 'b', 'c']
          ≠ ((Lexer.literal ['a'] >>= fun _ => Lexer.char 'c')
              <|> (Lexer.literal ['a', 'b'] >>= fun _ => Lexer.char 'c'))
            ['a', 'b', 'c']
      ∧ (Lexer.literal ['a', 'b']).complete ['a', 'b'] = some (.ok ['a', 'b'])
      ∧ (Lexer.literal ['a'] <|> Lexer.literal ['a', 'b']).complete ['a', 'b']
          = some (.error (.unusedInput ['b'])) := by
  obtain ⟨-, -, -, -, -, -, hbehind, hwhole⟩ := @committed_choice_laws Text Char
  obtain ⟨hcommit, -, hiff, -⟩ :=
    hbehind (Lexer.literal ['a']) (Lexer.literal ['a', 'b'])
      (fun _ => Lexer.char 'c') ['a', 'b', 'c']
  have hfirst :
      Lexer.literal ['a'] ['a', 'b', 'c'] = some [(['a'], ['b', 'c'])] := by rfl
  have hfail : Lexer.char 'c' ['b', 'c'] = some [] := by rfl
  have hsecond :
      (Lexer.literal ['a', 'b'] >>= fun _ => Lexer.char 'c') ['a', 'b', 'c']
        = some [('c', [])] := by rfl
  refine ⟨hcommit (by simp [hfirst]), hsecond, fun heq => ?_, by rfl,
    (hwhole _ _ _).2.2 _ (by rfl)⟩
  obtain h | ⟨a, r, others, h, c, cs, hc⟩ | h := (hiff ⟨[], by rfl⟩).1 heq
  · simp [hfirst] at h
  · obtain ⟨⟨-, rfl⟩, -⟩ : (['a'] = a ∧ ['b', 'c'] = r) ∧ [] = others := by
      simpa [hfirst] using h
    simp [hfail] at hc
  · exact absurd (hsecond.symm.trans h) (by simp)

end Parser

end CommittedChoice
