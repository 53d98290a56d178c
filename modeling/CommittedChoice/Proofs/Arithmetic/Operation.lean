import CommittedChoice.Arithmetic
import CommittedChoice.Proofs.Parser.Offer

/-!
# An operator and its right operand

The bodies of the arithmetic rules are written with `Arithmetic.operation`. What
it does on a text is decided by the first character behind the white space: if
that is not the operator, it fails; if it is, the right operand is read behind
it, and the operation has to succeed.

Behind its first operand, a rule therefore makes a step (`Operator.step`) or
none. The step is all that the later modules need to know of the choices in the
bodies.
-/

namespace CommittedChoice

namespace Arithmetic

open CommittedChoice.Parser (Offers)

/-! ## Operators -/

/-- **The operators** of arithmetic. -/
inductive Operator where
  /-- A sum. -/
  | plus
  /-- A difference. -/
  | minus
  /-- A product. -/
  | times
deriving DecidableEq, Repr

namespace Operator

/-- The character of an operator. -/
def sign : Operator → Char
  | plus => '+'
  | minus => '-'
  | times => '*'

/-- The checked operation. -/
def compute? : Operator → Word → Word → Option Word
  | plus => Word.add?
  | minus => Word.sub?
  | times => Word.mul?

/-- The exact operation. -/
def exact : Operator → Int → Int → Int
  | plus => fun x y => x + y
  | minus => fun x y => x - y
  | times => fun x y => x * y

/-- The check is that the exact result is a word. -/
theorem compute?_eq_some_iff {o : Operator} {a b v : Word} :
    o.compute? a b = some v ↔ v.toInt = o.exact a.toInt b.toInt := by
  cases o with
  | plus => exact Word.add?_eq_some_iff
  | minus => exact Word.sub?_eq_some_iff
  | times => exact Word.mul?_eq_some_iff

/-- **A step of a fold from the right.** If the exact result is a word, it takes
  the place of both operands, and otherwise the left one stays alone. -/
def step (o : Operator) (left right : Candidate Word) : Candidate Word :=
  match o.compute? left.1 right.1 with
  | some v => (v, right.2)
  | none => left

theorem sign_injective {o o' : Operator} (h : o.sign = o'.sign) : o = o' := by
  cases o <;> cases o' <;> first | rfl | exact absurd h (by decide)

theorem step_of_some {o : Operator} {left right : Candidate Word} {v : Word}
    (h : o.compute? left.1 right.1 = some v) :
    o.step left right = (v, right.2) := by
  unfold step
  rw [h]

/-- A step ends where the right operand does, or where the left one does. -/
theorem step_snd (o : Operator) (left right : Candidate Word) :
    (o.step left right).2 = right.2 ∨ o.step left right = left := by
  unfold step
  cases o.compute? left.1 right.1 with
  | some v => exact .inl rfl
  | none => exact .inr rfl

end Operator

variable {sign : Char} {op : Word → Word → Option Word} {a : Word}
    {right : Parser Word}
  {s t : Text}

/-- **The parser of a rule.** -/
def Rule.parser (r : Rule) : Parser Word := grammar.parser (Body.rule r)

/-! ## An operator on a text -/

/-- Something else comes next, or there is no operand behind the operator. -/
theorem operation_eq_nil
    (h : ∀ t, skipBlanks s = sign :: t → right t = some []) :
    operation sign op a right s = some [] := by
  unfold operation
  by_cases hnext : (skipBlanks s).head? = some sign
  · obtain ⟨t, ht⟩ := List.head?_eq_some_iff.1 hnext
    rw [Parser.bind_apply, Lexer.symbol_of_skipBlanks ht, Outcome.commit_cons,
      Parser.bind_apply, h t ht, Outcome.commit_nil]
  · rw [Parser.bind_apply, Lexer.symbol_of_head?_ne hnext, Outcome.commit_nil]

/-- The operator and an operand come next. -/
theorem operation_of_cons (h : skipBlanks s = sign :: t) {b : Word} {r : Text}
    {others : List (Candidate Word)} (ht : right t = some ((b, r) :: others)) :
    operation sign op a right s
      = match op a b with
        | some v => some [(v, r)]
        | none => some [] := by
  unfold operation
  rw [Parser.bind_apply, Lexer.symbol_of_skipBlanks h, Outcome.commit_cons,
    Parser.bind_apply, ht, Outcome.commit_cons]
  cases op a b <;> rfl

/-- A candidate comes from an operand behind the operator. -/
theorem offers_operation {v : Word} {r : Text}
    (h : Offers (operation sign op a right) s v r) :
    ∃ t b, skipBlanks s = sign :: t ∧ Offers right t b r ∧ op a b = some v := by
  obtain ⟨l, t, hl, h⟩ := Parser.offers_bind h
  obtain ⟨b, r', hb, h⟩ := Parser.offers_bind h
  obtain ⟨hv, rfl⟩ := Parser.offers_ofOption_pure h
  exact ⟨t, b, Lexer.offers_symbol hl, hb, hv⟩

/-! ## The bodies of the rules -/

variable (env : Expression.Env fun _ : Rule => Word)

theorem denote_expr :
    (grammar.body .expr).denote env = env .term >>= fun a =>
      operation '+' Word.add? a (env .expr)
        <|> operation '-' Word.sub? a (env .expr)
        <|> pure a := by
  simp only [grammar, Expression.denote_bind, Expression.denote_orElse,
    denote_operation, Body.rule, Expression.denote_rule, Expression.denote_pure]

theorem denote_term :
    (grammar.body .term).denote env = env .factor >>= fun a =>
      operation '*' Word.mul? a (env .term) <|> pure a := by
  simp only [grammar, Expression.denote_bind, Expression.denote_orElse,
    denote_operation, Body.rule, Expression.denote_rule, Expression.denote_pure]

theorem denote_factor :
    (grammar.body .factor).denote env
      = (Parser.between (Lexer.symbol ['(']) (env .expr) (Lexer.symbol [')'])
          <|> Lexer.natural) := rfl

/-! ## Behind the first operand -/

/-- **What a term does behind its first factor.** -/
def afterFactor (a : Word) : Parser Word :=
  operation '*' Word.mul? a term <|> pure a

/-- **What an expression does behind its first term.** -/
def afterTerm (a : Word) : Parser Word :=
  operation '+' Word.add? a expr <|> operation '-' Word.sub? a expr <|> pure a

/-- A term is a factor, and what comes behind it. -/
theorem term_apply (s : Text) : term s = (factor s).commit afterFactor :=
  congrFun term_eq s

/-- An expression is a term, and what comes behind it. -/
theorem expr_apply (s : Text) : expr s = (term s).commit afterTerm :=
  congrFun expr_eq s

/-- A factor is an expression in parentheses, or a natural number. -/
theorem factor_apply (s : Text) :
    factor s
      = (Parser.between (Lexer.symbol ['(']) expr (Lexer.symbol [')']) s).orElse
          fun _ => Lexer.natural s :=
  congrFun factor_eq s

/-- Without an opening parenthesis, it is a number. -/
theorem factor_of_head?_ne (h : (skipBlanks s).head? ≠ some '(') :
    factor s = Lexer.natural s := by
  rw [factor_apply]
  unfold Parser.between
  rw [Parser.bind_apply, Lexer.symbol_of_head?_ne h, Outcome.commit_nil,
    Outcome.orElse_nil]

/-- With an expression in parentheses to take, it is that. -/
theorem factor_of_parentheses {r r' : Text} (hopen : skipBlanks s = '(' :: t)
    (ht : expr t = some [(a, r)]) (hclose : skipBlanks r = ')' :: r') :
    factor s = some [(a, r')] := by
  rw [factor_apply]
  unfold Parser.between
  rw [Parser.bind_apply, Lexer.symbol_of_skipBlanks hopen, Outcome.commit_cons,
    Parser.bind_apply, ht, Outcome.commit_cons, Parser.bind_apply,
    Lexer.symbol_of_skipBlanks hclose]
  rfl

/-- With no operand to take, the factor is the term. -/
theorem afterFactor_eq_pure
    (h : ∀ t, skipBlanks s = '*' :: t → term t = some []) :
    afterFactor a s = some [(a, s)] := by
  unfold afterFactor
  rw [Parser.orElse_apply, operation_eq_nil h, Outcome.orElse_nil]
  rfl

/-- With a term to take behind an asterisk, there is a step. -/
theorem afterFactor_of_times (h : skipBlanks s = '*' :: t) {c : Candidate Word}
    (ht : term t = some [c]) :
    afterFactor a s = some [Operator.times.step (a, s) c] := by
  unfold afterFactor
  rw [Parser.orElse_apply, operation_of_cons h ht]
  show _ = some
      [match Word.mul? a c.1 with | some v => (v, c.2) | none => (a, s)]
  cases Word.mul? a c.1 <;> rfl

/-- With no operand to take, the term is the expression. -/
theorem afterTerm_eq_pure
    (hplus : ∀ t, skipBlanks s = '+' :: t → expr t = some [])
    (hminus : ∀ t, skipBlanks s = '-' :: t → expr t = some []) :
    afterTerm a s = some [(a, s)] := by
  unfold afterTerm
  rw [Parser.orElse_apply, operation_eq_nil hplus, Outcome.orElse_nil,
    Parser.orElse_apply, operation_eq_nil hminus, Outcome.orElse_nil]
  rfl

/-- With an expression to take behind a plus sign or a minus sign, there is
  a step. -/
theorem afterTerm_of_sign {o : Operator} (ho : o ≠ .times)
    (h : skipBlanks s = o.sign :: t) {c : Candidate Word}
    (ht : expr t = some [c]) : afterTerm a s = some [o.step (a, s) c] := by
  unfold afterTerm
  cases o with
  | times => exact absurd rfl ho
  | plus =>
    have hplus : skipBlanks s = '+' :: t := h
    have hminus : operation '-' Word.sub? a expr s = some [] :=
      operation_eq_nil fun t' h' => absurd (hplus.symm.trans h') (by simp)
    rw [Parser.orElse_apply, operation_of_cons hplus ht,
      Parser.orElse_apply, hminus]
    show _ = some
        [match Word.add? a c.1 with | some v => (v, c.2) | none => (a, s)]
    cases Word.add? a c.1 <;> rfl
  | minus =>
    have hminus : skipBlanks s = '-' :: t := h
    have hplus : operation '+' Word.add? a expr s = some [] :=
      operation_eq_nil fun t' h' => absurd (hminus.symm.trans h') (by simp)
    rw [Parser.orElse_apply, hplus, Outcome.orElse_nil, Parser.orElse_apply,
      operation_of_cons hminus ht]
    show _ = some
        [match Word.sub? a c.1 with | some v => (v, c.2) | none => (a, s)]
    cases Word.sub? a c.1 <;> rfl

end Arithmetic

end CommittedChoice
