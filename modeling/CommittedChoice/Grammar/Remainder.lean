import CommittedChoice.Grammar.Basic
import CommittedChoice.Parser.Remainder

/-!
# What is left of a text by a grammar

An expression reads the front of a text if the parsers it is built from do
(`Expression.leavesSuffix_denote`), and so does every parser of a grammar,
however deep its rules are nested (`Grammar.parser_leavesSuffix`).
-/

namespace CommittedChoice

open CommittedChoice.Parser (LeavesSuffix)

namespace Expression

variable {ρ : Type} {τ : ρ → Type} {α : Type}

/-- **A property of all base parsers** of an expression, those of every
  continuation included. -/
def OverBases (P : (α : Type) → Parser α → Prop) {α : Type} :
    Expression τ α → Prop
  | base p => P _ p
  | pure _ => True
  | fail => True
  | map _ e => e.OverBases P
  | seq ef ex => ef.OverBases P ∧ ex.OverBases P
  | bind e k => e.OverBases P ∧ ∀ a, (k a).OverBases P
  | choice e₁ e₂ => e₁.OverBases P ∧ e₂.OverBases P
  | many e => e.OverBases P
  | lazy e => (e ()).OverBases P
  | rule _ => True

/-- A property of all parsers is a property of all base parsers. -/
theorem overBases_of_forall {P : (α : Type) → Parser α → Prop}
    (hP : ∀ α p, P α p) (e : Expression τ α) : e.OverBases P := by
  induction e with
  | base p => exact hP _ p
  | pure => trivial
  | fail => trivial
  | map _ _ ih => exact ih
  | seq _ _ ihf ihx => exact ⟨ihf, ihx⟩
  | bind _ _ ih ihk => exact ⟨ih, ihk⟩
  | choice _ _ ih₁ ih₂ => exact ⟨ih₁, ih₂⟩
  | many _ ih => exact ih
  | lazy _ ih => exact ih ()
  | rule => trivial

/-- **Reading the front**: all of the base parsers do. -/
abbrev ReadsFront (e : Expression τ α) : Prop :=
  e.OverBases fun _ => LeavesSuffix

/-- **An expression reads the front of a text** if its base parsers and the
  rules do. -/
theorem leavesSuffix_denote {env : Env τ} (henv : ∀ r, LeavesSuffix (env r))
    {e : Expression τ α} (he : e.ReadsFront) :
    LeavesSuffix (e.denote env) := by
  induction e with
  | base p => exact he
  | pure a => exact .pure a
  | fail => exact .failure
  | map f e ih => exact .map f (ih he)
  | seq ef ex ihf ihx => exact .seq (ihf he.1) (ihx he.2)
  | bind e k ih ihk => exact .bind (ih he.1) fun a => ihk a (he.2 a)
  | choice e₁ e₂ ih₁ ih₂ => exact .orElse (ih₁ he.1) (ih₂ he.2)
  | many e ih => exact .many (ih he)
  | lazy e ih => exact .lazy (ih () he)
  | rule r => exact henv r

end Expression

namespace Grammar

variable {ρ : Type} {τ : ρ → Type} {α : Type} {g : Grammar τ}

theorem leavesSuffix_atDepth (hg : ∀ r, (g.body r).ReadsFront) (n : Nat)
    (r : ρ) : LeavesSuffix (g.atDepth n r) := by
  induction n generalizing r with
  | zero => exact .diverge
  | succ n ih => exact Expression.leavesSuffix_denote ih (hg r)

/-- **A grammar reads the front of a text.** -/
theorem parser_leavesSuffix (hg : ∀ r, (g.body r).ReadsFront)
    {e : Expression τ α} (he : e.ReadsFront) : LeavesSuffix (g.parser e) := by
  intro s
  have henv : ∀ r, LeavesSuffix (g.unroll s r) := by
    rw [unroll_eq_atDepth]
    exact leavesSuffix_atDepth hg _
  exact @Expression.leavesSuffix_denote ρ τ α _ henv e he s

end Grammar

end CommittedChoice
