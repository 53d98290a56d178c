import CommittedChoice.Grammar.Basic
import CommittedChoice.Proofs.Lexer.Span

/-!
# Ordered choice with one answer

A parsing expression can be read without lists of candidates. It then has at
most one *answer* on a text, a value and the text left after it, and every
combinator is the ordinary one of ordered choice: a sequence goes on from the
answer, a choice asks its second side if the first one has no answer, and a
repetition goes on until there is none. A base parser that has several
candidates answers with the first.

`Grammar.Reads` is this reading, as a relation between an expression, a text and
an answer. A rule is read by reading its body, and a derivation of the relation
is finite, so no bound on depth or length appears anywhere. An expression that
can go on for ever has no answer and no failure either.

There is never more than one answer (`Grammar.Reads.unique`). The derived
expressions have no cases of their own in this relation. How they are read
follows, for a match and for each way to fail (`Grammar.readsDerived`).
-/

namespace CommittedChoice

/-- **An answer**: one candidate, or none if there is no match. -/
abbrev Answer (α : Type) := Option (Candidate α)

namespace Grammar

variable {ρ : Type} {τ : ρ → Type}

/-- **The reading of an expression by ordered choice**, with one answer. -/
inductive Reads (g : Grammar τ) :
    {α : Type} → Expression τ α → Text → Answer α → Prop where
  /-- A base parser answers with its first candidate. -/
  | base {α : Type} {p : Parser α} {s : Text} {cs : List (Candidate α)}
    (h : p s = some cs) : Reads g (.base p) s cs.head?
  /-- A value reads nothing. -/
  | pure {α : Type} {a : α} {s : Text} : Reads g (.pure a) s (some (a, s))
  /-- There is no match. -/
  | fail {α : Type} {s : Text} : Reads g (.fail : Expression τ α) s none
  /-- A function of the value, if there is one. -/
  | map {α β : Type} {f : α → β} {e : Expression τ α} {s : Text} {o : Answer α}
    (h : Reads g e s o) : Reads g (.map f e) s (o.map fun c => (f c.1, c.2))
  /-- No function, no match. -/
  | seq_none {α β : Type} {ef : Expression τ (α → β)} {ex : Expression τ α}
    {s : Text} (hf : Reads g ef s none) : Reads g (.seq ef ex) s none
  /-- The argument is read behind the function. -/
  | seq_some {α β : Type} {ef : Expression τ (α → β)} {ex : Expression τ α}
    {s r : Text} {f : α → β} {o : Answer α} (hf : Reads g ef s (some (f, r)))
    (hx : Reads g ex r o) :
    Reads g (.seq ef ex) s (o.map fun c => (f c.1, c.2))
  /-- No value, no match. -/
  | bind_none {α β : Type} {e : Expression τ α} {k : α → Expression τ β}
    {s : Text} (h : Reads g e s none) : Reads g (.bind e k) s none
  /-- The value chooses what is read behind it. -/
  | bind_some {α β : Type} {e : Expression τ α} {k : α → Expression τ β}
    {s r : Text} {a : α} {o : Answer β} (h : Reads g e s (some (a, r)))
    (hk : Reads g (k a) r o) :
    Reads g (.bind e k) s o
  /-- The first side has an answer. -/
  | choice_some {α : Type} {e₁ e₂ : Expression τ α} {s : Text} {c : Candidate α}
    (h : Reads g e₁ s (some c)) : Reads g (.choice e₁ e₂) s (some c)
  /-- The first side has none, and the second one is asked, on the same text. -/
  | choice_none {α : Type} {e₁ e₂ : Expression τ α} {s : Text} {o : Answer α}
    (h₁ : Reads g e₁ s none) (h₂ : Reads g e₂ s o) : Reads g (.choice e₁ e₂) s o
  /-- A repetition stops where there is no match. -/
  | many_none {α : Type} {e : Expression τ α} {s : Text}
    (h : Reads g e s none) :
    Reads g (.many e) s (some ([], s))
  /-- A repetition goes on behind a match. -/
  | many_some {α : Type} {e : Expression τ α} {s r t : Text} {a : α}
    {as : List α} (h : Reads g e s (some (a, r)))
    (rest : Reads g (.many e) r (some (as, t))) :
    Reads g (.many e) s (some (a :: as, t))
  /-- An expression built when it is read. -/
  | lazy {α : Type} {e : Unit → Expression τ α} {s : Text} {o : Answer α}
    (h : Reads g (e ()) s o) : Reads g (.lazy e) s o
  /-- A rule is read as its body. -/
  | rule {r : ρ} {s : Text} {o : Answer (τ r)} (h : Reads g (g.body r) s o) :
    Reads g (.rule r) s o

variable {g : Grammar τ} {α β γ : Type} {s : Text}

/-! ## One answer at most -/

/-- **What a reading rests on**, for each form of expression: the readings of
  its parts. -/
def Unfolds (g : Grammar τ) :
    {α : Type} → Expression τ α → Text → Answer α → Prop
  | _, .base p, s, o => ∃ cs, p s = some cs ∧ o = cs.head?
  | _, .pure a, s, o => o = some (a, s)
  | _, .fail, _, o => o = none
  | _, .map f e, s, o => ∃ o', g.Reads e s o' ∧ o = o'.map fun c => (f c.1, c.2)
  | _, .seq ef ex, s, o =>
    (g.Reads ef s none ∧ o = none)
      ∨ ∃ f r o', g.Reads ef s (some (f, r)) ∧ g.Reads ex r o'
          ∧ o = o'.map fun c => (f c.1, c.2)
  | _, .bind e k, s, o =>
    (g.Reads e s none ∧ o = none)
      ∨ ∃ a r, g.Reads e s (some (a, r)) ∧ g.Reads (k a) r o
  | _, .choice e₁ e₂, s, o =>
    (∃ c, g.Reads e₁ s (some c) ∧ o = some c)
      ∨ (g.Reads e₁ s none ∧ g.Reads e₂ s o)
  | _, .many e, s, o =>
    (g.Reads e s none ∧ o = some ([], s))
      ∨ ∃ a r as t, g.Reads e s (some (a, r))
          ∧ g.Reads (.many e) r (some (as, t))
          ∧ o = some (a :: as, t)
  | _, .lazy e, s, o => g.Reads (e ()) s o
  | _, .rule r, s, o => g.Reads (g.body r) s o

/-- **A reading by the last step of its derivation.** The expression is a
  variable here, so the cases need no equation between types of values. -/
theorem Reads.unfold {e : Expression τ α} {o : Answer α} (h : g.Reads e s o) :
    g.Unfolds e s o := by
  cases h with
  | base h => exact ⟨_, h, rfl⟩
  | pure => rfl
  | fail => rfl
  | map h => exact ⟨_, h, rfl⟩
  | seq_none hf => exact .inl ⟨hf, rfl⟩
  | seq_some hf hx => exact .inr ⟨_, _, _, hf, hx, rfl⟩
  | bind_none h => exact .inl ⟨h, rfl⟩
  | bind_some h hk => exact .inr ⟨_, _, h, hk⟩
  | choice_some h => exact .inl ⟨_, h, rfl⟩
  | choice_none h₁ h₂ => exact .inr ⟨h₁, h₂⟩
  | many_none h => exact .inl ⟨h, rfl⟩
  | many_some h rest => exact .inr ⟨_, _, _, _, h, rest, rfl⟩
  | lazy h => exact h
  | rule h => exact h

/-- **An expression has one answer on a text.** -/
theorem Reads.unique {e : Expression τ α} {o o' : Answer α} (h : g.Reads e s o)
    (h' : g.Reads e s o') : o = o' := by
  induction h with
  | base h =>
    obtain ⟨cs', h₂, rfl⟩ := h'.unfold
    rw [Option.some.inj (h.symm.trans h₂)]
  | pure => exact Eq.symm h'.unfold
  | fail => exact Eq.symm h'.unfold
  | map _ ih =>
    obtain ⟨o₂, h₂, rfl⟩ := h'.unfold
    rw [ih h₂]
  | seq_none _ ih =>
    obtain ⟨-, rfl⟩ | ⟨f, r, o₂, hf, -, -⟩ := h'.unfold
    · rfl
    · exact absurd (ih hf) (by simp)
  | seq_some _ _ ihf ihx =>
    obtain ⟨hf, -⟩ | ⟨f, r, o₂, hf, hx, rfl⟩ := h'.unfold
    · exact absurd (ihf hf) (by simp)
    · obtain ⟨rfl, rfl⟩ := Prod.mk.inj (Option.some.inj (ihf hf))
      rw [ihx hx]
  | bind_none _ ih =>
    obtain ⟨-, rfl⟩ | ⟨a, r, h₂, -⟩ := h'.unfold
    · rfl
    · exact absurd (ih h₂) (by simp)
  | bind_some _ _ ih ihk =>
    obtain ⟨h₂, -⟩ | ⟨a, r, h₂, hk⟩ := h'.unfold
    · exact absurd (ih h₂) (by simp)
    · obtain ⟨rfl, rfl⟩ := Prod.mk.inj (Option.some.inj (ih h₂))
      exact ihk hk
  | choice_some _ ih =>
    obtain ⟨c, h₂, rfl⟩ | ⟨h₂, -⟩ := h'.unfold
    · exact ih h₂
    · exact absurd (ih h₂) (by simp)
  | choice_none _ _ ih₁ ih₂ =>
    obtain ⟨c, h₂, -⟩ | ⟨-, h₂⟩ := h'.unfold
    · exact absurd (ih₁ h₂) (by simp)
    · exact ih₂ h₂
  | many_none _ ih =>
    obtain ⟨-, rfl⟩ | ⟨a, r, as, t, h₂, -, -⟩ := h'.unfold
    · rfl
    · exact absurd (ih h₂) (by simp)
  | many_some _ _ ih ihrest =>
    obtain ⟨h₂, -⟩ | ⟨a, r, as, t, h₂, hrest, rfl⟩ := h'.unfold
    · exact absurd (ih h₂) (by simp)
    · obtain ⟨rfl, rfl⟩ := Prod.mk.inj (Option.some.inj (ih h₂))
      obtain ⟨rfl, rfl⟩ := Prod.mk.inj (Option.some.inj (ihrest hrest))
      rfl
  | lazy _ ih => exact ih h'.unfold
  | rule _ ih => exact ih h'.unfold

/-! ## The derived expressions

They are built from the constructors, so how they are read can be worked out. A
token skips white space; one time or more, and a list with separators, are a
match and then a repetition; delimiters are read in turn and forgotten. -/

/-- The parts of an expression determine its reading, and conversely. -/
theorem reads_iff {e : Expression τ α} {o : Answer α} :
    g.Reads e s o ↔ g.Unfolds e s o := by
  refine ⟨Reads.unfold, fun h => ?_⟩
  cases e with
  | base p =>
    obtain ⟨cs, h, rfl⟩ := h
    exact .base h
  | pure a => exact h ▸ .pure
  | fail => exact h ▸ .fail
  | map f e =>
    obtain ⟨o', h, rfl⟩ := h
    exact .map h
  | seq ef ex =>
    obtain ⟨hf, rfl⟩ | ⟨f, r, o', hf, hx, rfl⟩ := h
    · exact .seq_none hf
    · exact .seq_some hf hx
  | bind e k =>
    obtain ⟨h, rfl⟩ | ⟨a, r, h, hk⟩ := h
    · exact .bind_none h
    · exact .bind_some h hk
  | choice e₁ e₂ =>
    obtain ⟨c, h, rfl⟩ | ⟨h₁, h₂⟩ := h
    · exact .choice_some h
    · exact .choice_none h₁ h₂
  | many e =>
    obtain ⟨h, rfl⟩ | ⟨a, r, as, t, h, hrest, rfl⟩ := h
    · exact .many_none h
    · exact .many_some h hrest
  | lazy e => exact .lazy h
  | rule r => exact .rule h

theorem reads_pure_iff {a : α} {o : Answer α} :
    g.Reads (.pure a) s o ↔ o = some (a, s) :=
  reads_iff

/-- White space has one reading: it is skipped. -/
theorem reads_space_iff {o : Answer Unit} :
    g.Reads (.base Lexer.space) s o ↔ o = some ((), skipBlanks s) := by
  rw [reads_iff]
  simp [Unfolds]

/-- A sequence fails with its first part, and goes on from its answer. -/
theorem reads_bind_iff {e : Expression τ α} {k : α → Expression τ β}
    {o : Answer β} :
    g.Reads (.bind e k) s o
      ↔ (g.Reads e s none ∧ o = none)
        ∨ ∃ a r, g.Reads e s (some (a, r)) ∧ g.Reads (k a) r o :=
  reads_iff

/-- A function of two values fails with the first one, and with the second one
  behind it. -/
theorem reads_seq_map_iff {f : α → β → γ} {e : Expression τ α}
    {e' : Expression τ β} {o : Answer γ} :
    g.Reads (.seq (.map f e) e') s o
      ↔ (g.Reads e s none ∧ o = none)
        ∨ ∃ a r, g.Reads e s (some (a, r))
            ∧ ∃ o', g.Reads e' r o' ∧ o = o'.map fun c => (f a c.1, c.2) := by
  rw [reads_iff]
  constructor
  · rintro (⟨hf, rfl⟩ | ⟨fa, r, o', hf, hx, rfl⟩)
    · obtain ⟨o₁, h, ho₁⟩ := hf.unfold
      obtain rfl : o₁ = none := by simpa using ho₁.symm
      exact .inl ⟨h, rfl⟩
    · obtain ⟨o₁, h, ho₁⟩ := hf.unfold
      obtain ⟨⟨a, r'⟩, rfl, hfr⟩ := Option.map_eq_some_iff.1 ho₁.symm
      obtain ⟨rfl, rfl⟩ := Prod.mk.inj hfr
      exact .inr ⟨a, r', h, o', hx, rfl⟩
  · rintro (⟨h, rfl⟩ | ⟨a, r, h, o', hx, rfl⟩)
    · exact .inl ⟨.map h, rfl⟩
    · exact .inr ⟨f a, r, o', .map h, hx, rfl⟩

/-- A repetition that has an end has an answer: there is no match only in what
  is repeated. -/
theorem Reads.exists_of_many {e : Expression τ α} {o : Answer (List α)}
    (h : g.Reads (.many e) s o) : ∃ as t, o = some (as, t) := by
  obtain ⟨-, rfl⟩ | ⟨a, r, as, t, -, -, rfl⟩ := h.unfold
  · exact ⟨[], s, rfl⟩
  · exact ⟨a :: as, t, rfl⟩

theorem not_reads_many_none {e : Expression τ α} :
    ¬ g.Reads (.many e) s none := by
  intro h
  obtain ⟨as, t, has⟩ := h.exists_of_many
  simp at has

/-- **Characters and the derived expressions are read as ordered choice has
  it.** For each of them, every answer it can have, the failed ones included. -/
structure ReadsDerived (g : Grammar τ) : Prop where
  /-- A character is read where there is one. -/
  item : ∀ (s : Text) (o : Answer Char),
    g.Reads (.base Parser.item) s o
      ↔ (s = [] ∧ o = none) ∨ ∃ c r, s = c :: r ∧ o = some (c, r)
  /-- A missing expression fails, and one that is there is read as it is. -/
  ofOption : ∀ {α : Type} (e : Option (Expression τ α)) (s : Text)
    (o : Answer α),
    g.Reads (.ofOption e) s o
      ↔ (e = none ∧ o = none) ∨ ∃ e', e = some e' ∧ g.Reads e' s o
  /-- A token is what it stands in front of, read behind the white space. -/
  token : ∀ {α : Type} (e : Expression τ α) (s : Text) (o : Answer α),
    g.Reads (.token e) s o ↔ g.Reads e (skipBlanks s) o
  /-- One time or more is a match, and then a repetition. It fails where there
    is no match. -/
  many1 : ∀ {α : Type} (e : Expression τ α) (s : Text) (o : Answer (List α)),
    g.Reads (.many1 e) s o
      ↔ (g.Reads e s none ∧ o = none)
        ∨ ∃ a r, g.Reads e s (some (a, r))
            ∧ ∃ as t, g.Reads (.many e) r (some (as, t))
                ∧ o = some (a :: as, t)
  /-- Delimited content has three places to fail, in this order: the opening,
    the content behind it, and the closing behind that. If none of them does,
    the value is that of the content. -/
  between : ∀ {α β γ : Type} (opening : Expression τ α)
    (content : Expression τ β) (closing : Expression τ γ) (s : Text)
    (o : Answer β),
    g.Reads (.between opening content closing) s o
      ↔ (g.Reads opening s none ∧ o = none)
        ∨ ∃ a r, g.Reads opening s (some (a, r))
            ∧ ((g.Reads content r none ∧ o = none)
              ∨ ∃ b r', g.Reads content r (some (b, r'))
                  ∧ ((g.Reads closing r' none ∧ o = none)
                    ∨ ∃ c t, g.Reads closing r' (some (c, t))
                        ∧ o = some (b, t)))
  /-- A list with separators is an element, and then a repetition of a separator
    with an element behind it. It fails where there is no first element. -/
  sepBy : ∀ {α β : Type} (e : Expression τ α) (separator : Expression τ β)
    (s : Text) (o : Answer (List α)),
    g.Reads (.sepBy e separator) s o
      ↔ (g.Reads e s none ∧ o = none)
        ∨ ∃ a r, g.Reads e s (some (a, r))
            ∧ ∃ as t, g.Reads (.many (separator >>= fun _ => e)) r
                  (some (as, t))
                ∧ o = some (a :: as, t)

theorem readsDerived (g : Grammar τ) : g.ReadsDerived where
  item s o := by
    rw [reads_iff]
    cases s with
    | nil => simp [Unfolds]
    | cons c r => simp [Unfolds, and_assoc]
  ofOption e s o := by
    cases e with
    | none =>
      show g.Reads .fail s o ↔ _
      rw [reads_iff]
      simp [Unfolds]
    | some e' => simp [Expression.ofOption]
  token e s o := by
    show g.Reads (.bind (.base Lexer.space) fun _ => e) s o ↔ _
    simp only [reads_bind_iff, reads_space_iff]
    simp
  many1 e s o := by
    show g.Reads (.seq (.map List.cons e) (.many e)) s o ↔ _
    rw [reads_seq_map_iff]
    refine or_congr_right ⟨?_, ?_⟩
    · rintro ⟨a, r, h, o', hmany, rfl⟩
      obtain ⟨as, t, rfl⟩ := hmany.exists_of_many
      exact ⟨a, r, h, as, t, hmany, rfl⟩
    · rintro ⟨a, r, h, as, t, hmany, rfl⟩
      exact ⟨a, r, h, some (as, t), hmany, rfl⟩
  between opening content closing s o := by
    show g.Reads (.bind opening fun _ => .bind content fun b =>
      .bind closing fun _ => .pure b) s o ↔ _
    simp only [reads_bind_iff, reads_pure_iff]
  sepBy e separator s o := by
    show g.Reads (.bind e fun a => .bind (.many (separator >>= fun _ => e))
      fun as => .pure (a :: as)) s o ↔ _
    -- the repetition behind the first element does not fail
    simp only [reads_bind_iff, reads_pure_iff, not_reads_many_none, false_and,
      false_or]

end Grammar

end CommittedChoice
