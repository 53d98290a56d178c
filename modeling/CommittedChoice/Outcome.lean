/-!
# Outcomes

A parser reads the front of a text. What it says about the text is an
*outcome*: either the run never ends, or there is a list of candidates, each a
value and the text left after it, in order of preference. The empty list is a
failed match.

A run that never ends is an outcome of its own, and not a failed match: a choice
falls through to its second side when the first one fails, but hangs when the
first one hangs. It is written `none`.

The operations on outcomes are the places where candidates are kept or dropped.
`Outcome.map` keeps all of them, `Outcome.orElse` keeps all of one side or all
of the other, and `Outcome.commit` goes on from the first one only.
-/

namespace CommittedChoice

/-- **A text**: a sequence of Unicode scalar values. -/
abbrev Text := List Char

/-- **A candidate**: a value, and the text that is left after it. -/
abbrev Candidate (α : Type) := α × Text

/-- **An outcome**: the candidates in order of preference, or `none` if the run
  never ends. -/
abbrev Outcome (α : Type) := Option (List (Candidate α))

/-- **A parser** of values of type `α`: an outcome for every text. -/
def Parser (α : Type) := Text → Outcome α

namespace Outcome

variable {α β : Type}

/-- **A value for every candidate.** The function is applied to the value of
  each candidate; what is left of the text stays. -/
def map (f : α → β) (o : Outcome α) : Outcome β :=
  Option.map (List.map fun c => (f c.1, c.2)) o

/-- **Going on from the first candidate.** The parser chosen by the value of the
  first candidate is run on the text left after it; the other candidates are
  dropped. A failed match stays one. -/
def commit (o : Outcome α) (k : α → Parser β) : Outcome β :=
  match o with
  | none => none
  | some [] => some []
  | some ((a, r) :: _) => k a r

/-- **A second choice.** The other outcome is taken exactly when this one is a
  failed match. -/
def orElse (o : Outcome α) (other : Unit → Outcome α) : Outcome α :=
  match o with
  | none => none
  | some [] => other ()
  | some (c :: cs) => some (c :: cs)

/-! ## What the operations do to each kind of outcome -/

@[simp] theorem map_none (f : α → β) : map f none = none := rfl

@[simp] theorem map_some (f : α → β) (cs : List (Candidate α)) :
    map f (some cs) = some (cs.map fun c => (f c.1, c.2)) := rfl

/-- A value for every candidate makes no candidate, and loses none. -/
theorem map_eq_nil_iff {f : α → β} {o : Outcome α} :
    map f o = some [] ↔ o = some [] := by
  rw [map, Option.map_eq_some_iff]
  constructor
  · rintro ⟨cs, ho, hcs⟩
    rw [ho, List.map_eq_nil_iff.1 hcs]
  · rintro rfl
    exact ⟨[], rfl, rfl⟩

/-- The first candidate has the value of the first one that was there. -/
theorem map_eq_cons {f : α → β} {o : Outcome α} {b : β} {r : Text}
    {others : List (Candidate β)} (h : map f o = some ((b, r) :: others)) :
    ∃ a others', o = some ((a, r) :: others') ∧ f a = b := by
  obtain ⟨cs, rfl, hcs⟩ := Option.map_eq_some_iff.1 h
  obtain ⟨⟨a, r'⟩, others', rfl, hc, -⟩ := List.map_eq_cons_iff.1 hcs
  obtain ⟨rfl, rfl⟩ := Prod.mk.inj hc
  exact ⟨a, others', rfl, rfl⟩

@[simp] theorem commit_none (k : α → Parser β) : commit none k = none := rfl

@[simp] theorem commit_nil (k : α → Parser β) :
    commit (some []) k = some [] := rfl

@[simp] theorem commit_cons (a : α) (r : Text) (cs : List (Candidate α))
    (k : α → Parser β) : commit (some ((a, r) :: cs)) k = k a r := rfl

/-- Going on has an outcome if there is no candidate, or if the parser chosen by
  the first one has. -/
theorem commit_eq_some_iff {o : Outcome α} {k : α → Parser β}
    {cs : List (Candidate β)} :
    commit o k = some cs
      ↔ o = some [] ∧ cs = []
          ∨ ∃ a r others, o = some ((a, r) :: others) ∧ k a r = some cs := by
  constructor
  · intro h
    match o with
    | none => simp at h
    | some [] => exact .inl ⟨rfl, (Option.some.inj h).symm⟩
    | some ((a, r) :: others) => exact .inr ⟨a, r, others, rfl, h⟩
  · rintro (⟨rfl, rfl⟩ | ⟨a, r, others, rfl, h⟩)
    · rfl
    · exact h

/-- What follows matters behind the first candidate only. -/
theorem commit_congr {o : Outcome α} {k l : α → Parser β}
    (h : ∀ a r others, o = some ((a, r) :: others) → k a r = l a r) :
    commit o k = commit o l := by
  match o with
  | none => rfl
  | some [] => rfl
  | some ((a, r) :: others) => exact h a r others rfl

@[simp] theorem orElse_none (other : Unit → Outcome α) :
    orElse none other = none := rfl

@[simp] theorem orElse_nil (other : Unit → Outcome α) :
    orElse (some []) other = other () := rfl

@[simp] theorem orElse_cons (c : Candidate α) (cs : List (Candidate α))
    (other : Unit → Outcome α) :
    orElse (some (c :: cs)) other = some (c :: cs) := rfl

/-- A choice has an outcome if its first side has candidates, or if it fails and
  the second side has an outcome. -/
theorem orElse_eq_some_iff {o : Outcome α} {other : Unit → Outcome α}
    {cs : List (Candidate α)} :
    orElse o other = some cs ↔ o = some [] ∧ other () = some cs
      ∨ o = some cs ∧ cs ≠ [] := by
  constructor
  · intro h
    match o with
    | none => simp at h
    | some [] => exact .inl ⟨rfl, h⟩
    | some (c :: others) =>
      obtain rfl := Option.some.inj h
      exact .inr ⟨rfl, List.cons_ne_nil c others⟩
  · rintro (⟨rfl, h⟩ | ⟨rfl, hne⟩)
    · exact h
    · match cs with
      | c :: others => rfl

/-- The second side matters only if the first one fails. -/
theorem orElse_congr {o : Outcome α} {other other' : Unit → Outcome α}
    (h : o = some [] → other () = other' ()) :
    orElse o other = orElse o other' := by
  match o with
  | none => rfl
  | some [] => exact h rfl
  | some (c :: cs) => rfl

end Outcome

end CommittedChoice
