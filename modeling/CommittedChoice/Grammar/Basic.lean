import CommittedChoice.Grammar.Expression

/-!
# Grammars

A grammar gives every rule a body, which may refer to all of the rules, its own
included. Running an expression of the grammar enters the rules it refers to.

How deep can the entries be nested? A rule that is entered on a text, and is
entered again on that very text before it has an outcome, does the same again,
so that run never ends. In a run that ends, the nested entries are therefore
different pairs of a rule and a text. Each text is part of the one before, so a
text of `n` characters allows `n + 1` of them, and a grammar of `m` rules needs
no more than `m * (n + 1)` nested entries. `Grammar.unroll` allows just that
many: one lap of `m` entries for each character and one more
(`Grammar.unroll_eq_atDepth`).
-/

namespace CommittedChoice

open Expression (Env)

/-- **A grammar**: a body for each of finitely many rules. -/
structure Grammar {ρ : Type} (τ : ρ → Type) where
  /-- What a rule stands for. -/
  body : (r : ρ) → Expression τ (τ r)
  /-- The rules. -/
  rules : List ρ
  /-- There are no others. -/
  mem_rules : ∀ r, r ∈ rules

namespace Grammar

variable {ρ : Type} {τ : ρ → Type} {α : Type}

/-- **A grammar of one rule**, which may refer to itself. -/
def ofBody (e : Expression (fun _ : Unit => α) α) :
    Grammar fun _ : Unit => α where
  body _ := e
  rules := [()]
  mem_rules _ := List.mem_singleton.2 rfl

/-- **Entries up to a depth.** Entering a rule runs its body; below the given
  depth, the rules have the given parsers. -/
def iterate (g : Grammar τ) (env : Env τ) : Nat → (r : ρ) → Parser (τ r)
  | 0, r, s => env r s
  | n + 1, r, s => (g.body r).denote (g.iterate env n) s

/-- **The rules at a depth.** Entries that are nested deeper never end. -/
def atDepth (g : Grammar τ) (n : Nat) : Env τ :=
  g.iterate (fun _ => Parser.diverge) n

/-- **Entries as deep as a text allows**: one lap through the rules for each
  character, and one more. -/
def unroll (g : Grammar τ) : Text → (r : ρ) → Parser (τ r)
  | [], r, s => g.iterate (fun _ => Parser.diverge) g.rules.length r s
  | _ :: t, r, s => g.iterate (g.unroll t) g.rules.length r s

/-- **The parser of an expression** over the rules of a grammar. -/
def parser (g : Grammar τ) (e : Expression τ α) : Parser α :=
  fun s => e.denote (g.unroll s) s

/-! ## Depth -/

@[simp] theorem iterate_zero (g : Grammar τ) (env : Env τ) :
    g.iterate env 0 = env := rfl

@[simp] theorem atDepth_zero (g : Grammar τ) :
    g.atDepth 0 = fun _ => Parser.diverge := rfl

theorem iterate_succ (g : Grammar τ) (env : Env τ) (n : Nat) (r : ρ) :
    g.iterate env (n + 1) r = (g.body r).denote (g.iterate env n) := rfl

/-- One more entry runs the body of the rule. -/
theorem atDepth_succ (g : Grammar τ) (n : Nat) (r : ρ) :
    g.atDepth (n + 1) r = (g.body r).denote (g.atDepth n) := rfl

/-- Depths add up. -/
theorem iterate_iterate (g : Grammar τ) (env : Env τ) (m n : Nat) :
    g.iterate (g.iterate env m) n = g.iterate env (m + n) := by
  induction n with
  | zero => rfl
  | succ n ih =>
    funext r
    rw [iterate_succ, ih, ← Nat.add_assoc, iterate_succ]

/-- **The depth of the unrolled rules** is the number of rules times one more
  than the length of the text. -/
theorem unroll_eq_atDepth (g : Grammar τ) (t : Text) :
    g.unroll t = g.atDepth (g.rules.length * (t.length + 1)) := by
  unfold atDepth
  induction t with
  | nil => rw [List.length_nil, Nat.zero_add, Nat.mul_one]; rfl
  | cons c t ih =>
    have : g.unroll (c :: t) = g.iterate (g.unroll t) g.rules.length := rfl
    rw [this, ih, iterate_iterate, List.length_cons,
      Nat.mul_add_one _ (t.length + 1)]

theorem parser_apply (g : Grammar τ) (e : Expression τ α) (s : Text) :
    g.parser e s = e.denote (g.unroll s) s := rfl

end Grammar

end CommittedChoice
