import CommittedChoice.Grammar.Depth
import CommittedChoice.Proofs.Parser.Repetition

/-!
# Entries into rules

While an expression is run on a text, rules are entered, each on some part of
the text. Which ones depends on the outcomes on the way: the second part of a
sequence is run behind the first candidate of the first part, the second side of
a choice if the first one fails, and what is repeated behind every success.
`Expression.Enters` says this for each form of expression, and `Grammar.Enters`
for the body of a rule.

That these are the entries of the run, all of them and no others, can be said
without looking at the expression. If an entry did not end, then neither would
the run, as it waits for the outcome; and if any other run of a rule did not
end, nobody would notice (`Expression.enters_iff_without`).
-/

namespace CommittedChoice

open CommittedChoice.Parser (EndsOn Steps Chain)
open Expression (Env)

namespace Parser

variable {α : Type} {p q : Parser α} {s t : Text} {as bs : List α}

/-! ## The texts of a repetition -/

/-- Successes in a row are the same for parsers that agree where the
  successes lead. -/
theorem steps_congr (h : ∀ as u, Steps p s as u → q u = p u) :
    Steps q s as t ↔ Steps p s as t := by
  constructor
  · intro hq
    induction hq with
    | nil => exact .nil
    | cons hs _ ih =>
      have hp := (h [] _ .nil).symm.trans hs
      exact .cons hp (ih fun as u hu => h _ u (.cons hp hu))
  · intro hp
    induction hp with
    | nil => exact .nil
    | cons hs _ ih =>
      exact .cons ((h [] _ .nil).trans hs)
        (ih fun as u hu => h _ u (.cons hs hu))

/-- So a repetition depends on the runs where the successes lead, … -/
theorem many_congr (h : ∀ as u, Steps p s as u → q u = p u) :
    many q s = many p s := by
  have hchain (as : List α) (t : Text) : Chain q s as t ↔ Chain p s as t := by
    rw [chain_iff_steps, chain_iff_steps, steps_congr h]
    exact and_congr_right fun hp => by rw [h as t hp]
  refine Option.ext fun cs => ?_
  rw [many_eq_some_iff, many_eq_some_iff]
  simp only [hchain]

/-- A chain that has an end goes on behind every success. -/
theorem Chain.of_steps (h : Chain p s as t) {u : Text} (hu : Steps p s bs u) :
    ∃ cs, Chain p u cs t := by
  induction hu generalizing as with
  | nil => exact ⟨as, h⟩
  | cons hs _ ih =>
    cases h with
    | nil h => simp [hs] at h
    | cons h rest =>
      obtain ⟨⟨-, rfl⟩, -⟩ : _ ∧ _ := by simpa [hs] using h
      exact ih rest

/-- … and it waits for all of them. -/
theorem many_of_steps_none (h : Steps p s as t) (ht : p t = none) :
    many p s = none := by
  match hmany : many p s with
  | none => rfl
  | some cs =>
    obtain ⟨bs, u, hchain, -, -⟩ := many_eq_some_iff.1 hmany
    obtain ⟨bs', hrest⟩ := hchain.of_steps h
    cases hrest with
    | nil h => simp [ht] at h
    | cons h _ => simp [ht] at h

end Parser

variable {ρ : Type} {τ : ρ → Type} {α : Type}

namespace Expression

/-! ## The entries of an expression -/

/-- **An entry into a rule**: while the expression is run on a text, the rule is
  run on another text, or on the same. -/
def Enters (env : Env τ) {α : Type} : Expression τ α → Text → ρ → Text → Prop
  | base _, _, _, _ => False
  | pure _, _, _, _ => False
  | fail, _, _, _ => False
  | map _ e, s, r, t => e.Enters env s r t
  | seq ef ex, s, r, t =>
    ef.Enters env s r t
      ∨ ∃ f u others, ef.denote env s = some ((f, u) :: others)
          ∧ ex.Enters env u r t
  | bind e k, s, r, t =>
    e.Enters env s r t
      ∨ ∃ a u others, e.denote env s = some ((a, u) :: others)
          ∧ (k a).Enters env u r t
  | choice e₁ e₂, s, r, t =>
    e₁.Enters env s r t ∨ e₁.denote env s = some [] ∧ e₂.Enters env s r t
  | many e, s, r, t => ∃ as u, Steps (e.denote env) s as u ∧ e.Enters env u r t
  | lazy e, s, r, t => (e ()).Enters env s r t
  | rule r', s, r, t => r = r' ∧ t = s

variable {env env' : Env τ} {s t : Text} {r : ρ}

/-- **A run depends on its entries only.** Where they have the same outcomes, so
  has the run. -/
theorem denote_congr {e : Expression τ α}
    (h : ∀ r t, e.Enters env s r t → env' r t = env r t) :
    e.denote env' s = e.denote env s := by
  induction e generalizing s with
  | base p => rfl
  | pure a => rfl
  | fail => rfl
  | map f e ih => exact congrArg (Outcome.map f) (ih h)
  | seq ef ex ihf ihx =>
    show (ef.denote env' <*> ex.denote env') s
        = (ef.denote env <*> ex.denote env) s
    rw [Parser.seq_apply, Parser.seq_apply, ihf fun r t hr => h r t (.inl hr)]
    exact Outcome.commit_congr fun f u others hs =>
      congrArg (Outcome.map f)
        (ihx fun r t hr => h r t (.inr ⟨f, u, others, hs, hr⟩))
  | bind e k ih ihk =>
    show (e.denote env' >>= fun a => (k a).denote env') s
      = (e.denote env >>= fun a => (k a).denote env) s
    rw [Parser.bind_apply, Parser.bind_apply, ih fun r t hr => h r t (.inl hr)]
    exact Outcome.commit_congr fun a u others hs =>
      ihk a fun r t hr => h r t (.inr ⟨a, u, others, hs, hr⟩)
  | choice e₁ e₂ ih₁ ih₂ =>
    show (e₁.denote env' <|> e₂.denote env') s
        = (e₁.denote env <|> e₂.denote env) s
    rw [Parser.orElse_apply, Parser.orElse_apply, ih₁ fun r t hr =>
      h r t (.inl hr)]
    exact Outcome.orElse_congr fun hs => ih₂ fun r t hr => h r t (.inr ⟨hs, hr⟩)
  | many e ih =>
    exact Parser.many_congr fun as u hu => ih fun r t hr =>
      h r t ⟨as, u, hu, hr⟩
  | lazy e ih => exact ih () h
  | rule r => exact h r s ⟨rfl, rfl⟩

/-- And so do the entries themselves. -/
theorem enters_congr {e : Expression τ α}
    (h : ∀ r t, e.Enters env s r t → env' r t = env r t) :
    e.Enters env' s r t ↔ e.Enters env s r t := by
  induction e generalizing s with
  | base p => rfl
  | pure a => rfl
  | fail => rfl
  | map f e ih => exact ih h
  | seq ef ex ihf ihx =>
    have hf : ∀ r t, ef.Enters env s r t → env' r t = env r t :=
      fun r t hr => h r t (.inl hr)
    refine or_congr (ihf hf)
      (exists_congr fun f => exists_congr fun u =>
        exists_congr fun others => ?_)
    rw [denote_congr hf]
    exact and_congr_right fun hs => ihx fun r t hr =>
      h r t (.inr ⟨f, u, others, hs, hr⟩)
  | bind e k ih ihk =>
    have he : ∀ r t, e.Enters env s r t → env' r t = env r t :=
      fun r t hr => h r t (.inl hr)
    refine or_congr (ih he)
      (exists_congr fun a => exists_congr fun u =>
        exists_congr fun others => ?_)
    rw [denote_congr he]
    exact and_congr_right fun hs => ihk a fun r t hr =>
      h r t (.inr ⟨a, u, others, hs, hr⟩)
  | choice e₁ e₂ ih₁ ih₂ =>
    have h₁ : ∀ r t, e₁.Enters env s r t → env' r t = env r t :=
      fun r t hr => h r t (.inl hr)
    refine or_congr (ih₁ h₁) ?_
    rw [denote_congr h₁]
    exact and_congr_right fun hs => ih₂ fun r t hr => h r t (.inr ⟨hs, hr⟩)
  | many e ih =>
    refine exists_congr fun as => exists_congr fun u => ?_
    rw [Parser.steps_congr fun as u hu => denote_congr fun r t hr =>
      h r t ⟨as, u, hu, hr⟩]
    exact and_congr_right fun hu => ih fun r t hr => h r t ⟨as, u, hu, hr⟩
  | lazy e ih => exact ih () h
  | rule r => rfl

/-- **A run waits for its entries.** If one of them does not end, neither does
  the run. -/
theorem denote_of_enters_none {e : Expression τ α} (h : e.Enters env s r t)
    (ht : env r t = none) : e.denote env s = none := by
  induction e generalizing s with
  | base p => exact h.elim
  | pure a => exact h.elim
  | fail => exact h.elim
  | map f e ih => exact congrArg (Outcome.map f) (ih h)
  | seq ef ex ihf ihx =>
    show (ef.denote env <*> ex.denote env) s = none
    rw [Parser.seq_apply]
    obtain h | ⟨f, u, others, hs, h⟩ := h
    · rw [ihf h, Outcome.commit_none]
    · rw [hs, Outcome.commit_cons, Parser.map_apply, ihx h, Outcome.map_none]
  | bind e k ih ihk =>
    show (e.denote env >>= fun a => (k a).denote env) s = none
    rw [Parser.bind_apply]
    obtain h | ⟨a, u, others, hs, h⟩ := h
    · rw [ih h, Outcome.commit_none]
    · rw [hs, Outcome.commit_cons, ihk a h]
  | choice e₁ e₂ ih₁ ih₂ =>
    show (e₁.denote env <|> e₂.denote env) s = none
    rw [Parser.orElse_apply]
    obtain h | ⟨hs, h⟩ := h
    · rw [ih₁ h, Outcome.orElse_none]
    · rw [hs, Outcome.orElse_nil, ih₂ h]
  | many e ih =>
    obtain ⟨as, u, hu, h⟩ := h
    exact Parser.many_of_steps_none hu (ih h)
  | lazy e ih => exact ih () h
  | rule r' =>
    obtain ⟨rfl, rfl⟩ := h
    exact ht

variable [DecidableEq ρ]

/-- **The rules without an entry**: the rule does not end on the text, and all
  else is as it was. -/
def Env.without (env : Env τ) (r : ρ) (t : Text) : Env τ :=
  fun r' t' => if r' = r ∧ t' = t then none else env r' t'

theorem Env.without_self (env : Env τ) (r : ρ) (t : Text) :
    env.without r t r t = none :=
  if_pos ⟨rfl, rfl⟩

/-- Nothing else is changed. -/
theorem Env.without_of_ne {r' : ρ} {t' : Text} (h : ¬ (r' = r ∧ t' = t)) :
    env.without r t r' t' = env r' t' :=
  if_neg h

/-- **An entry is what a run cannot do without.** If a run ends, its entries are
  the runs of rules without which it would not end. -/
theorem enters_iff_without {e : Expression τ α} (hs : EndsOn (e.denote env) s) :
    e.Enters env s r t ↔ e.denote (env.without r t) s = none := by
  constructor
  · intro h
    match hwithout : e.denote (env.without r t) s with
    | none => rfl
    | some cs =>
      -- a run that ends without the entry has the same entries, and this one
      -- among them
      have hothers : ∀ r' t', e.Enters (env.without r t) s r' t' →
          env r' t' = env.without r t r' t' := by
        intro r' t' hr'
        refine (Env.without_of_ne ?_).symm
        rintro ⟨rfl, rfl⟩
        simp [denote_of_enters_none hr' (env.without_self r' t')] at hwithout
      have hentry := (enters_congr hothers).1 h
      simp [denote_of_enters_none hentry (env.without_self r t)] at hwithout
  · intro hnone
    by_cases h : e.Enters env s r t
    · exact h
    · -- otherwise the run ends in the same way without it
      have hsame : e.denote (env.without r t) s = e.denote env s := by
        refine denote_congr fun r' t' hr' => Env.without_of_ne ?_
        rintro ⟨rfl, rfl⟩
        exact h hr'
      obtain ⟨cs, hcs⟩ := hs
      simp [hsame, hcs] at hnone

end Expression

/-! ## The entries of a rule -/

namespace Grammar

/-- **The parsers of the rules** of a grammar. -/
def ruleParsers (g : Grammar τ) : Env τ := fun r => g.parser (.rule r)

/-- **An entry from a rule into a rule**, each with the text it is run on: the
  run of the first one makes the second one run, directly and not in a rule
  between them. -/
def Enters (g : Grammar τ) (x y : ρ × Text) : Prop :=
  (g.body x.1).Enters g.ruleParsers x.2 y.1 y.2

/-- **The entries of a rule** are the runs of rules without which it would
  not end. -/
theorem enters_iff_without [DecidableEq ρ] {g : Grammar τ}
    (hg : ∀ r, (g.body r).ReadsFront) {x y : ρ × Text}
    (hx : EndsOn (g.parser (.rule x.1)) x.2) :
    g.Enters x y
      ↔ (g.body x.1).denote (g.ruleParsers.without y.1 y.2) x.2 = none := by
  rw [parser_rule hg] at hx
  exact Expression.enters_iff_without hx

end Grammar

end CommittedChoice
