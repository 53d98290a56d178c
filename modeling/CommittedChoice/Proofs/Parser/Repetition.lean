import CommittedChoice.Complete
import CommittedChoice.Proofs.Parser.Ending

/-!
# Repetition is the maximal chain

A repetition goes from success to success, each on the text that the first
candidate of the one before left. If every success leaves less text, this comes
to an end, where the parser fails, and there is no other place where it could
end: the chain of successes is determined by the text
(`Parser.many_unique_chain`).

What is left in the end is what the last success left (`Parser.Steps.last`). The
parser was run on it once more and failed, however far it may have looked ahead,
but a failed match leaves no text of its own.

A repetition also unfolds without its loop: it is one success and then the
repetition on less text, or it is nothing (`Parser.many_eq_orElse`).
-/

namespace CommittedChoice

namespace Parser

variable {α β : Type} {p : Parser α} {s r t : Text} {a : α} {as : List α}
  {others : List (Candidate α)}

/-! ## Successes in a row -/

/-- **Successes in a row**, each on the text that the first candidate of the one
  before left. How the parser goes on behind the last one is left open. -/
inductive Steps (p : Parser α) : Text → List α → Text → Prop where
  /-- No success yet. -/
  | nil {s : Text} : Steps p s [] s
  /-- A success, and then the others on what its first candidate leaves. -/
  | cons {s r t : Text} {a : α} {others : List (Candidate α)} {as : List α}
    (h : p s = some ((a, r) :: others)) (rest : Steps p r as t) :
    Steps p s (a :: as) t

/-- A maximal chain is one that cannot go on. -/
theorem chain_iff_steps : Chain p s as t ↔ Steps p s as t ∧ p t = some [] := by
  constructor
  · intro h
    induction h with
    | nil h => exact ⟨.nil, h⟩
    | cons h _ ih => exact ⟨.cons h ih.1, ih.2⟩
  · rintro ⟨h, ht⟩
    induction h with
    | nil => exact .nil ht
    | cons h _ ih => exact .cons h (ih ht)

/-- **What is left is what the last success left**, or the whole text if there
  was none. -/
theorem Steps.last (h : Steps p s as t) :
    as = [] ∧ t = s ∨ ∃ front a r others,
      as = front ++ [a] ∧ Steps p s front r
        ∧ p r = some ((a, t) :: others) := by
  induction h with
  | nil => exact .inl ⟨rfl, rfl⟩
  | @cons s r t a others as h _ ih =>
    obtain ⟨rfl, rfl⟩ | ⟨front, b, r', others', rfl, hfront, hlast⟩ := ih
    · exact .inr ⟨[], a, s, others, rfl, .nil, h⟩
    · exact .inr ⟨a :: front, b, r', others', rfl, .cons h hfront, hlast⟩

/-! ## Unfolding a repetition -/

/-- If every success leaves less text, the length of the chain is no
  condition. -/
theorem Shrinks.many_eq_some_iff (hp : Shrinks p)
    {cs : List (Candidate (List α))} :
    many p s = some cs ↔ ∃ as t, Chain p s as t ∧ cs = [(as, t)] := by
  constructor
  · intro h
    obtain ⟨as, t, hc, -, hcs⟩ := Parser.many_eq_some_iff.1 h
    exact ⟨as, t, hc, hcs⟩
  · rintro ⟨as, t, hc, rfl⟩
    exact many_eq_of_chain hp hc

/-- A function of the value takes nothing from the text, and adds nothing
  to it. -/
theorem Shrinks.map (f : α → β) (hp : Shrinks p) : Shrinks (f <$> p) := by
  intro s b r others h
  obtain ⟨a, others', hs, -⟩ := Outcome.map_eq_cons h
  exact hp hs

theorem many_of_none (h : p s = none) : many p s = none := by
  unfold many
  cases s <;> rw [manyLoop, h]

theorem many_of_nil (h : p s = some []) : many p s = some [([], s)] :=
  Parser.many_eq_some_iff.2 ⟨[], s, .nil h, Nat.zero_le _, rfl⟩

/-- Behind a success, the repetition goes on where its first candidate ends. -/
theorem Shrinks.many_of_cons (hp : Shrinks p)
    (h : p s = some ((a, r) :: others)) :
    many p s = (many p r).map (List.cons a) := by
  refine Option.ext fun cs => ?_
  rw [hp.many_eq_some_iff, Outcome.map, Option.map_eq_some_iff]
  constructor
  · rintro ⟨as, t, hc, rfl⟩
    cases hc with
    | nil h' => simp [h] at h'
    | cons h' rest =>
      obtain ⟨⟨rfl, rfl⟩, -⟩ : _ ∧ _ := by simpa [h] using h'
      exact ⟨_, many_eq_of_chain hp rest, rfl⟩
  · rintro ⟨cs', hmany, rfl⟩
    obtain ⟨as, t, hc, rfl⟩ := hp.many_eq_some_iff.1 hmany
    exact ⟨a :: as, t, .cons h hc, rfl⟩

/-- A repetition never fails. -/
theorem many_ne_nil : many p s ≠ some [] := by
  intro h
  obtain ⟨as, t, -, -, hcs⟩ := Parser.many_eq_some_iff.1 h
  simp at hcs

theorem many1_of_nil (h : p s = some []) : many1 p s = some [] := by
  unfold many1
  rw [seq_apply, map_apply, h]
  rfl

/-- One time or more is once, and then a repetition. -/
theorem many1_of_cons (h : p s = some ((a, r) :: others)) :
    many1 p s = (many p r).map (List.cons a) := by
  unfold many1
  rw [seq_apply, map_apply, h]
  rfl

/-- It fails exactly if the first time does. -/
theorem many1_eq_nil_iff : many1 p s = some [] ↔ p s = some [] := by
  constructor
  · intro h
    match hs : p s with
    | none => simp [many1, hs] at h
    | some [] => rfl
    | some ((a, r) :: others) =>
      rw [many1_of_cons hs, Outcome.map_eq_nil_iff] at h
      exact absurd h many_ne_nil
  · exact many1_of_nil

/-- **A repetition is one time or more, or nothing.** -/
theorem many_eq_orElse (hp : Shrinks p) : many p = (many1 p <|> pure []) := by
  ext1 s
  rw [orElse_apply, pure_apply]
  match hs : p s with
  | none => rw [many_of_none hs]; simp [many1, hs]
  | some [] => rw [many_of_nil hs, many1_of_nil hs, Outcome.orElse_nil]
  | some ((a, r) :: others) =>
    rw [hp.many_of_cons hs, many1_of_cons hs]
    -- the second side is never reached, as a repetition does not fail
    match hr : many p r with
    | none => rfl
    | some [] => exact absurd hr many_ne_nil
    | some (c :: cs) => rfl

/-- One time or more ends, like a repetition, if the runs of what is
  repeated do. -/
theorem EndsOn.many1 (hp : Shrinks p) (hends : ∀ t, EndsOn p t) (s : Text) :
    EndsOn (many1 p) s := by
  match hends s with
  | ⟨[], h⟩ => exact ⟨[], many1_of_nil h⟩
  | ⟨(a, r) :: others, h⟩ =>
    obtain ⟨cs, hmany⟩ := EndsOn.many hp (hends r) fun t _ => hends t
    exact ⟨_, by rw [many1_of_cons h, hmany]; rfl⟩

/-! ## The only chain -/

/-- **A repetition has one outcome, and it is that of the only chain.** Let the
  first candidate of a parser leave less text on every success, and let its runs
  end. Then on every text there is one chain of successes at whose end the
  parser fails, it has no more members than the text has characters, and it ends
  where its last success ended. The repetition has the values of the chain and
  the text at its end for its only candidate; one time or more fails exactly if
  the parser does, and has the same candidate otherwise; and the repetition
  reads a whole text exactly if the chain takes all of it, with nothing else to
  say of a text than what is left. -/
theorem many_unique_chain (hp : Shrinks p) (hends : ∀ t, EndsOn p t)
    (s : Text) :
    ∃ as t, (Steps p s as t ∧ p t = some [])
      ∧ (∀ as' t', Steps p s as' t' → p t' = some [] → as' = as ∧ t' = t)
      ∧ as.length ≤ s.length
      ∧ (as = [] ∧ t = s ∨ ∃ front a r others,
          as = front ++ [a] ∧ Steps p s front r ∧ p r = some ((a, t) :: others))
      ∧ many p s = some [(as, t)]
      ∧ (many1 p s = some [] ↔ p s = some [])
      ∧ (p s ≠ some [] → as ≠ [] ∧ many1 p s = some [(as, t)])
      ∧ (many p).complete s ≠ some (.error .noMatch)
      ∧ (∀ vs, (many p).complete s = some (.ok vs) ↔ vs = as ∧ t = [])
      ∧ (t ≠ [] → (many p).complete s = some (.error (.unusedInput t))) := by
  obtain ⟨as, t, hc⟩ := exists_chain hp s (hends s) fun t _ => hends t
  have hmany := many_eq_of_chain hp hc
  obtain ⟨hsteps, hstop⟩ := chain_iff_steps.1 hc
  have hlength := hc.length_add_length_le hp
  refine ⟨as, t, ⟨hsteps, hstop⟩,
    fun as' t' h ht => (chain_iff_steps.2 ⟨h, ht⟩).unique hc, by omega,
    hsteps.last, hmany, many1_eq_nil_iff, fun hs => ?_, ?_, fun vs => ?_,
    fun ht => ?_⟩
  · cases hc with
    | nil h => exact absurd h hs
    | cons h rest =>
      have hmany1 : many1 p s = many p s :=
        (many1_of_cons h).trans (hp.many_of_cons h).symm
      exact ⟨List.cons_ne_nil _ _, hmany1.trans hmany⟩
  · rw [Ne, complete_eq_noMatch_iff]
    exact many_ne_nil
  · rw [complete_eq_ok_iff, hmany]
    simp [eq_comm]
  · rw [complete_eq_unusedInput_iff]
    exact ⟨ht, as, [], hmany⟩

/-- A letter, which a second candidate leaves in the text. -/
def letterOrStay : Parser Char
  | [] => some []
  | c :: s => if c.isAlpha then some [(c, s), (c, c :: s)] else some []

theorem shrinks_letterOrStay : Shrinks letterOrStay := by
  intro s a r others h
  cases s with
  | nil => simp [letterOrStay] at h
  | cons c s =>
    rw [letterOrStay] at h
    split at h
    · obtain ⟨⟨-, rfl⟩, -⟩ : _ ∧ _ := by simpa using h
      exact Nat.lt_succ_self _
    · simp at h

theorem endsOn_letterOrStay (s : Text) : EndsOn letterOrStay s := by
  cases s with
  | nil => exact ⟨_, rfl⟩
  | cons c s =>
    by_cases hc : c.isAlpha = true
    · exact ⟨_, if_pos hc⟩
    · exact ⟨_, if_neg hc⟩

theorem many_unique_chain_letters :
    Shrinks letterOrStay ∧ (∀ t, EndsOn letterOrStay t)
      ∧ many letterOrStay "ab1c".toList = some [(['a', 'b'], ['1', 'c'])]
      ∧ ∀ as t, Steps letterOrStay "ab1c".toList as t →
          letterOrStay t = some [] →
          as = ['a', 'b'] ∧ t = ['1', 'c'] := by
  have h : many letterOrStay "ab1c".toList
      = some [(['a', 'b'], ['1', 'c'])] := by rfl
  obtain ⟨as, t, -, hunique, -, -, hmany, -⟩ :=
    many_unique_chain shrinks_letterOrStay endsOn_letterOrStay "ab1c".toList
  obtain ⟨rfl, rfl⟩ : as = ['a', 'b'] ∧ t = ['1', 'c'] := by
    simpa using hmany.symm.trans h
  exact ⟨shrinks_letterOrStay, endsOn_letterOrStay, h, hunique⟩

end Parser

end CommittedChoice
