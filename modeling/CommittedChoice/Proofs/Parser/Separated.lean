import CommittedChoice.Proofs.Parser.Repetition

/-!
# Lists with separators

A list with separators is an element, and then separators and elements in turn.
What makes it more than a repetition is where it stops: a separator may be
there, and no element behind it. Such a separator is not part of the list, and
the text that is left begins with it. So the list ends where its last element
ends (`Parser.sepBy_unique_listed`).

The list is written as a chain of its own here, `Parser.Listed`, with a case for
the last element and one for an element that has a separator and more elements
behind it. The first candidates decide everything, those of the separator
included.
-/

namespace CommittedChoice

namespace Parser

variable {α β : Type} {p : Parser α} {separator : Parser β}
    {s t r : Text} {a : α}
  {as : List α} {others : List (Candidate α)}

/-! ## Separators and elements in turn -/

/-- **A list goes no further** from a text if there is no separator, or one with
  no element behind it. -/
def Stops (p : Parser α) (separator : Parser β) (s : Text) : Prop :=
  separator s = some []
    ∨ ∃ b t others, separator s = some ((b, t) :: others) ∧ p t = some []

/-- **A maximal list of elements with separators** between them, each of them
  the value of a first candidate, and the text behind the last one. -/
inductive Listed (p : Parser α) (separator : Parser β) :
    Text → List α → Text → Prop where
  /-- An element behind which the list stops. What a separator takes there
    is left. -/
  | last {s t : Text} {a : α} {others : List (Candidate α)}
    (h : p s = some ((a, t) :: others)) (hstop : Stops p separator t) :
    Listed p separator s [a] t
  /-- An element, a separator, and the list that starts behind it. -/
  | cons {s r u t : Text} {a : α} {b : β} {others : List (Candidate α)}
    {others' : List (Candidate β)} {as : List α}
    (h : p s = some ((a, r) :: others))
    (hsep : separator r = some ((b, u) :: others'))
    (rest : Listed p separator u as t) :
    Listed p separator s (a :: as) t

/-- What is repeated in a list fails where the list stops, … -/
theorem separated_eq_nil_iff :
    (separator >>= fun _ => p) s = some [] ↔ Stops p separator s := by
  rw [bind_apply, Outcome.commit_eq_some_iff, Stops, and_iff_left rfl]

/-- … and else its first candidate is that of an element behind a separator. -/
theorem separated_eq_cons_iff :
    (separator >>= fun _ => p) s = some ((a, t) :: others)
      ↔ ∃ b r others', separator s = some ((b, r) :: others')
          ∧ p r = some ((a, t) :: others) := by
  rw [bind_apply, Outcome.commit_eq_some_iff]
  simp

/-- **A list is an element and a chain** of separators with elements. -/
theorem listed_iff_chain :
    Listed p separator s as t
      ↔ ∃ a r others as', as = a :: as' ∧ p s = some ((a, r) :: others)
          ∧ Chain (separator >>= fun _ => p) r as' t := by
  constructor
  · intro h
    induction h with
    | last h hstop =>
      exact ⟨_, _, _, [], rfl, h, .nil (separated_eq_nil_iff.2 hstop)⟩
    | cons h hsep _ ih =>
      obtain ⟨a', r', others', as', rfl, hp, hc⟩ := ih
      exact ⟨_, _, _, _, rfl, h,
        .cons (separated_eq_cons_iff.2 ⟨_, _, _, hsep, hp⟩) hc⟩
  · rintro ⟨a, r, others, as', rfl, h, hc⟩
    induction hc generalizing s a others with
    | nil h' => exact .last h (separated_eq_nil_iff.1 h')
    | cons h' _ ih =>
      obtain ⟨b, u, others', hsep, hp⟩ := separated_eq_cons_iff.1 h'
      exact .cons h hsep (ih _ _ hp)

/-- **A list is determined by where it starts.** -/
theorem Listed.unique {as' : List α} {t' : Text} (h : Listed p separator s as t)
    (h' : Listed p separator s as' t') : as = as' ∧ t = t' := by
  obtain ⟨a, r, others, as, rfl, hs, hc⟩ := listed_iff_chain.1 h
  obtain ⟨a', r', others', as', rfl, hs', hc'⟩ := listed_iff_chain.1 h'
  obtain ⟨⟨rfl, rfl⟩, -⟩ : (a = a' ∧ r = r') ∧ others = others' := by
    simpa [hs] using hs'
  obtain ⟨rfl, rfl⟩ := hc.unique hc'
  exact ⟨rfl, rfl⟩

/-! ## The parser of a list -/

theorem sepBy_of_nil (h : p s = some []) : sepBy p separator s = some [] := by
  unfold sepBy
  rw [bind_apply, h, Outcome.commit_nil]

/-- Behind its first element, a list is a repetition. -/
theorem sepBy_of_cons (h : p s = some ((a, r) :: others)) :
    sepBy p separator s
      = (many (separator >>= fun _ => p) r).map (List.cons a) := by
  unfold sepBy
  rw [bind_apply, h, Outcome.commit_cons, bind_apply]
  match hmany : many (separator >>= fun _ => p) r with
  | none => rfl
  | some cs =>
    -- a repetition has one candidate, so none is dropped
    obtain ⟨as, t, -, -, rfl⟩ := many_eq_some_iff.1 hmany
    rfl

/-- A list fails exactly if there is no first element. -/
theorem sepBy_eq_nil_iff : sepBy p separator s = some [] ↔ p s = some [] := by
  constructor
  · intro h
    match hs : p s with
    | none => simp [sepBy, hs] at h
    | some [] => rfl
    | some ((a, r) :: others) =>
      rw [sepBy_of_cons hs, Outcome.map_eq_nil_iff] at h
      exact absurd h many_ne_nil
  · exact sepBy_of_nil

/-- **What the parser finds is the list**, … -/
theorem listed_of_offers (h : Offers (sepBy p separator) s as t) :
    Listed p separator s as t := by
  obtain ⟨cs, h, hmem⟩ := h
  match hs : p s with
  | none => simp [sepBy, hs] at h
  | some [] =>
    obtain rfl : [] = cs := Option.some.inj ((sepBy_of_nil hs).symm.trans h)
    simp at hmem
  | some ((a, r) :: others) =>
    rw [sepBy_of_cons hs, Outcome.map, Option.map_eq_some_iff] at h
    obtain ⟨cs', hmany, rfl⟩ := h
    obtain ⟨as', t', hc, -, rfl⟩ := many_eq_some_iff.1 hmany
    obtain ⟨rfl, rfl⟩ := Prod.mk.inj (List.mem_singleton.1 hmem)
    exact listed_iff_chain.2 ⟨a, r, others, as', rfl, hs, hc⟩

/-- … and it finds the list, if a separator with an element leaves less text. -/
theorem Listed.sepBy_eq (hshrinks : Shrinks (separator >>= fun _ => p))
    (h : Listed p separator s as t) : sepBy p separator s = some [(as, t)] := by
  obtain ⟨a, r, others, as, rfl, hs, hc⟩ := listed_iff_chain.1 h
  rw [sepBy_of_cons hs, many_eq_of_chain hshrinks hc]
  rfl

/-- There is a list behind every first element, if the runs end. -/
theorem exists_listed (hshrinks : Shrinks (separator >>= fun _ => p))
    (hp : ∀ t, EndsOn p t) (hsep : ∀ t, EndsOn separator t)
    (h : p s = some ((a, r) :: others)) :
    ∃ as t, Listed p separator s as t := by
  have hends (t : Text) : EndsOn (separator >>= fun _ => p) t := by
    match hsep t with
    | ⟨[], ht⟩ => exact ⟨[], Outcome.commit_eq_some_iff.2 (.inl ⟨ht, rfl⟩)⟩
    | ⟨(b, u) :: others, ht⟩ =>
      obtain ⟨cs, hu⟩ := hp u
      exact ⟨cs, Outcome.commit_eq_some_iff.2 (.inr ⟨b, u, others, ht, hu⟩)⟩
  obtain ⟨as, t, hc⟩ := exists_chain hshrinks r (hends r) fun t _ => hends t
  exact ⟨a :: as, t, listed_iff_chain.2 ⟨a, r, others, as, rfl, h, hc⟩⟩

/-- So a list ends on every text. -/
theorem EndsOn.sepBy (hshrinks : Shrinks (separator >>= fun _ => p))
    (hp : ∀ t, EndsOn p t) (hsep : ∀ t, EndsOn separator t) (s : Text) :
    EndsOn (sepBy p separator) s := by
  match hp s with
  | ⟨[], h⟩ => exact ⟨[], sepBy_of_nil h⟩
  | ⟨(a, r) :: others, h⟩ =>
    obtain ⟨as, t, hlisted⟩ := exists_listed hshrinks hp hsep h
    exact ⟨[(as, t)], hlisted.sepBy_eq hshrinks⟩

/-! ## The only list -/

/-- **A list with separators has one outcome, and it is the only maximal list.**
  Let the first candidate of the separator with that of the element behind it
  leave less text, and let the runs of both end. Then the parser fails exactly
  if there is no first element, and has one candidate otherwise: the values of
  the elements, in order, and the text behind the last one, where there is no
  separator, or none with an element behind it. With a separator that takes
  nothing, a list is one time or more of its elements, and with one that fails
  it is the first of them. -/
theorem sepBy_unique_listed
    (hshrinks : ∀ ⦃s t r : Text⦄ ⦃a : α⦄ ⦃b : β⦄ ⦃others : List (Candidate β)⦄
      ⦃others' : List (Candidate α)⦄, separator s = some ((b, t) :: others) →
      p t = some ((a, r) :: others') → r.length < s.length)
    (hp : ∀ t, EndsOn p t) (hsep : ∀ t, EndsOn separator t) (s : Text) :
    (sepBy p separator s = some [] ↔ p s = some [])
      ∧ (p s ≠ some [] → ∃ as t, Listed p separator s as t
          ∧ (∀ as' t', Listed p separator s as' t' → as' = as ∧ t' = t)
          ∧ sepBy p separator s = some [(as, t)])
      ∧ sepBy p (pure ()) s = many1 p s
      ∧ (p s = some [] → sepBy p (failure : Parser β) s = some [])
      ∧ ∀ a r others, p s = some ((a, r) :: others) →
          sepBy p (failure : Parser β) s = some [([a], r)] := by
  have hshrinks : Shrinks (separator >>= fun _ => p) := by
    intro s a r others h
    obtain ⟨b, t, others', ht, hr⟩ := separated_eq_cons_iff.1 h
    exact hshrinks ht hr
  refine ⟨sepBy_eq_nil_iff, fun hs => ?_, ?_, sepBy_of_nil,
    fun a r others h => ?_⟩
  · match hp s with
    | ⟨[], h⟩ => exact absurd h hs
    | ⟨(a, r) :: others, h⟩ =>
      obtain ⟨as, t, hlisted⟩ := exists_listed hshrinks hp hsep h
      exact ⟨as, t, hlisted, fun as' t' h' => h'.unique hlisted,
        hlisted.sepBy_eq hshrinks⟩
  · match h : p s with
    | none => simp [sepBy, many1, h]
    | some [] => rw [sepBy_of_nil h, many1_of_nil h]
    | some ((a, r) :: others) =>
      rw [sepBy_of_cons h, many1_of_cons h]
      rfl
  · rw [sepBy_of_cons h, many_of_nil (by rfl)]
    rfl

/-- A comma, which a second candidate leaves in the text, or nothing. -/
def commaOrNothing : Parser Unit
  | [] => some [((), [])]
  | c :: s =>
    if c = ',' then some [((), s), ((), c :: s)] else some [((), c :: s)]

theorem length_le_of_commaOrNothing {b : Unit} {others : List (Candidate Unit)}
    (h : commaOrNothing s = some ((b, t) :: others)) : t.length ≤ s.length := by
  cases s with
  | nil =>
    obtain ⟨rfl, -⟩ : [] = t ∧ [] = others := by simpa [commaOrNothing] using h
    exact Nat.le_refl _
  | cons c s =>
    rw [commaOrNothing] at h
    split at h
    · obtain ⟨rfl, -⟩ : s = t ∧ _ := by simpa using h
      exact Nat.le_succ _
    · obtain ⟨rfl, -⟩ : c :: s = t ∧ _ := by simpa using h
      exact Nat.le_refl _

theorem endsOn_commaOrNothing (s : Text) : EndsOn commaOrNothing s := by
  cases s with
  | nil => exact ⟨_, rfl⟩
  | cons c s =>
    by_cases hc : c = ','
    · exact ⟨_, if_pos hc⟩
    · exact ⟨_, if_neg hc⟩

/-- The second comma has no letter behind it, so both of them are left. -/
theorem sepBy_unique_listed_letters :
    (∀ ⦃s t r : Text⦄ ⦃a : Char⦄ ⦃b : Unit⦄ ⦃others : List (Candidate Unit)⦄
        ⦃others' : List (Candidate Char)⦄,
        commaOrNothing s = some ((b, t) :: others) →
        letterOrStay t = some ((a, r) :: others') → r.length < s.length)
      ∧ (∀ t, EndsOn letterOrStay t) ∧ (∀ t, EndsOn commaOrNothing t)
      ∧ sepBy letterOrStay commaOrNothing "ab,c,,d".toList
          = some [(['a', 'b', 'c'], [',', ',', 'd'])]
      ∧ ∀ as t, Listed letterOrStay commaOrNothing "ab,c,,d".toList as t →
          as = ['a', 'b', 'c'] ∧ t = [',', ',', 'd'] := by
  have hshrinks :
      ∀ ⦃s t r : Text⦄ ⦃a : Char⦄ ⦃b : Unit⦄ ⦃others : List (Candidate Unit)⦄
        ⦃others' : List (Candidate Char)⦄,
      commaOrNothing s = some ((b, t) :: others) →
      letterOrStay t = some ((a, r) :: others') → r.length < s.length :=
    fun _ _ _ _ _ _ _ ht hr =>
      Nat.lt_of_lt_of_le (shrinks_letterOrStay hr)
        (length_le_of_commaOrNothing ht)
  have h : sepBy letterOrStay commaOrNothing "ab,c,,d".toList
      = some [(['a', 'b', 'c'], [',', ',', 'd'])] := by rfl
  obtain ⟨-, hlisted, -⟩ := sepBy_unique_listed hshrinks endsOn_letterOrStay
    endsOn_commaOrNothing "ab,c,,d".toList
  obtain ⟨as, t, -, hunique, hsepBy⟩ := hlisted (fun hnil => by cases hnil)
  obtain ⟨rfl, rfl⟩ : as = ['a', 'b', 'c'] ∧ t = [',', ',', 'd'] := by
    simpa using hsepBy.symm.trans h
  exact ⟨hshrinks, endsOn_letterOrStay, endsOn_commaOrNothing, h, hunique⟩

end Parser

end CommittedChoice
