import CommittedChoice.Lexer

/-!
# Parsing expressions

A parser is a function, and a function does not show what it is made of. A
*parsing expression* does: it is built from parsers by the combinators, and may
name rules whose parsers are not known yet. What a rule yields is given by a
family of types `τ`, one for each rule.

`Expression.denote` reads an expression as a parser, given parsers for the
rules. It takes each constructor to the combinator of the same name, so an
expression says nothing that a parser could not; what it adds is that the
combinators can be told apart, and that a rule may be referred to from its
own body.
-/

namespace CommittedChoice

/-- **A parsing expression** over rules that yield values of the types `τ`. -/
inductive Expression {ρ : Type} (τ : ρ → Type) : Type → Type 1 where
  /-- A parser that names no rule. -/
  | base {α : Type} (p : Parser α) : Expression τ α
  /-- A value, with no text read. -/
  | pure {α : Type} (a : α) : Expression τ α
  /-- A failed match. -/
  | fail {α : Type} : Expression τ α
  /-- A function of the value. -/
  | map {α β : Type} (f : α → β) (e : Expression τ α) : Expression τ β
  /-- A function, then its argument. -/
  | seq {α β : Type} (ef : Expression τ (α → β)) (ex : Expression τ α) :
    Expression τ β
  /-- A value, then the expression chosen by it. -/
  | bind {α β : Type} (e : Expression τ α) (k : α → Expression τ β) :
    Expression τ β
  /-- A committed choice. -/
  | choice {α : Type} (e₁ e₂ : Expression τ α) : Expression τ α
  /-- Zero or more times. -/
  | many {α : Type} (e : Expression τ α) : Expression τ (List α)
  /-- An expression built when it is run. -/
  | lazy {α : Type} (e : Unit → Expression τ α) : Expression τ α
  /-- A reference to a rule. -/
  | rule (r : ρ) : Expression τ (τ r)

namespace Expression

variable {ρ : Type} {τ : ρ → Type} {α β γ : Type}

/-- Expressions are written like parsers. -/
instance : Monad (Expression τ) where
  pure := Expression.pure
  map := Expression.map
  seq ef ex := Expression.seq ef (ex ())
  bind := Expression.bind

instance : Alternative (Expression τ) where
  failure := Expression.fail
  orElse e₁ e₂ := Expression.choice e₁ (e₂ ())

/-! ## Derived expressions -/

/-- An expression that may be missing. A missing one fails. -/
def ofOption : Option (Expression τ α) → Expression τ α
  | none => fail
  | some e => e

/-- One or more times. -/
def many1 (e : Expression τ α) : Expression τ (List α) :=
  List.cons <$> e <*> many e

/-- A token: white space, then what it stands in front of. -/
def token (e : Expression τ α) : Expression τ α :=
  base Lexer.space >>= fun _ => e

/-- Content in delimiters. -/
def between (opening : Expression τ α) (content : Expression τ β)
    (closing : Expression τ γ) : Expression τ β := do
  let _ ← opening
  let b ← content
  let _ ← closing
  pure b

/-- A list with separators, of one element or more. -/
def sepBy (e : Expression τ α) (separator : Expression τ β) :
    Expression τ (List α) := do
  let first ← e
  let others ← many (separator >>= fun _ => e)
  pure (first :: others)

/-! ## Meaning -/

/-- **Parsers for the rules.** -/
abbrev Env {ρ : Type} (τ : ρ → Type) := (r : ρ) → Parser (τ r)

/-- **The parser of an expression**, given parsers for the rules. -/
def denote (env : Env τ) {α : Type} : Expression τ α → Parser α
  | base p => p
  | pure a => Pure.pure a
  | fail => failure
  | map f e => f <$> denote env e
  | seq ef ex => denote env ef <*> denote env ex
  | bind e k => denote env e >>= fun a => denote env (k a)
  | choice e₁ e₂ => denote env e₁ <|> denote env e₂
  | many e => Parser.many (denote env e)
  | lazy e => Parser.lazy fun _ => denote env (e ())
  | rule r => env r

variable (env : Env τ)

@[simp] theorem denote_base (p : Parser α) : (base p).denote env = p := rfl

@[simp] theorem denote_pure (a : α) :
    (Pure.pure a : Expression τ α).denote env = Pure.pure a := rfl

@[simp] theorem denote_failure :
    (failure : Expression τ α).denote env = failure := rfl

@[simp] theorem denote_map (f : α → β) (e : Expression τ α) :
    (f <$> e).denote env = f <$> e.denote env := rfl

@[simp] theorem denote_seq (ef : Expression τ (α → β)) (ex : Expression τ α) :
    (ef <*> ex).denote env = ef.denote env <*> ex.denote env := rfl

@[simp] theorem denote_bind (e : Expression τ α) (k : α → Expression τ β) :
    (e >>= k).denote env = e.denote env >>= fun a => (k a).denote env := rfl

@[simp] theorem denote_orElse (e₁ e₂ : Expression τ α) :
    (e₁ <|> e₂).denote env = (e₁.denote env <|> e₂.denote env) := rfl

@[simp] theorem denote_many (e : Expression τ α) :
    (many e).denote env = Parser.many (e.denote env) := rfl

@[simp] theorem denote_lazy (e : Unit → Expression τ α) :
    (lazy e).denote env = (e ()).denote env := rfl

@[simp] theorem denote_rule (r : ρ) :
    (rule r : Expression τ (τ r)).denote env = env r := rfl

@[simp] theorem denote_ofOption (e : Option (Expression τ α)) :
    (ofOption e).denote env
      = Parser.ofOption (e.map fun e => e.denote env) := by
  cases e <;> rfl

@[simp] theorem denote_many1 (e : Expression τ α) :
    (many1 e).denote env = Parser.many1 (e.denote env) := rfl

@[simp] theorem denote_token (e : Expression τ α) :
    (token e).denote env = Lexer.token (e.denote env) := rfl

@[simp] theorem denote_between (opening : Expression τ α)
    (content : Expression τ β) (closing : Expression τ γ) :
    (between opening content closing).denote env
      = Parser.between (opening.denote env) (content.denote env)
          (closing.denote env) := rfl

@[simp] theorem denote_sepBy (e : Expression τ α) (separator : Expression τ β) :
    (sepBy e separator).denote env
      = Parser.sepBy (e.denote env) (separator.denote env) := rfl

end Expression

end CommittedChoice
