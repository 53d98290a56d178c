import CommittedChoice.Complete
import CommittedChoice.Grammar.Depth

/-!
# Arithmetic

Sums, differences and products of natural numbers, evaluated while they
are read:

* an expression is a term, or a term, a plus or a minus sign, and an expression;
* a term is a factor, or a factor, an asterisk, and a term;
* a factor is an expression in parentheses, or a natural number.

Both binary rules refer to themselves on the right, so operators of one rank
group to the right, and `10-2-3` is `10-(2-3)`.

Values are words. An operation whose exact result is no word is not taken: the
choice it belongs to falls through, and its operator stays in the text.

The three parsers are what the rules say, with the parsers themselves in place
of the rules. Nothing about entries and their depth is left in these equations
(`expr_eq`, `term_eq` and `factor_eq`), and no other facts about the grammar are
needed to reason about it.
-/

namespace CommittedChoice

namespace Arithmetic

open CommittedChoice.Parser (LeavesSuffix)
open Lexer

/-- **The rules of arithmetic.** -/
inductive Rule where
  /-- A sum or a difference of terms. -/
  | expr
  /-- A product of factors. -/
  | term
  /-- What has no operator outside of parentheses. -/
  | factor
deriving DecidableEq, Repr

/-- **A body**: a parsing expression over the rules of arithmetic, each of which
  yields a word. -/
abbrev Body := Expression (fun _ : Rule => Word)

namespace Body

/-- The expression of a rule. -/
def rule (r : Rule) : Body Word := Expression.rule r

/-- A symbol. -/
def symbol (l : Text) : Body Text := .base (Lexer.symbol l)

/-- **An operator and its right operand.** The operation is applied to the left
  operand and the right one, and has to succeed. -/
def operation (sign : Char) (op : Word → Word → Option Word) (left : Word)
    (right : Rule) : Body Word := do
  let _ ← symbol [sign]
  let b ← rule right
  Expression.ofOption ((op left b).map pure)

end Body

open Body

/-- **The grammar of arithmetic.** -/
def grammar : Grammar (fun _ : Rule => Word) where
  body
    | .expr => do
      let a ← rule .term
      operation '+' Word.add? a .expr <|> operation '-' Word.sub? a .expr
        <|> pure a
    | .term => do
      let a ← rule .factor
      operation '*' Word.mul? a .term <|> pure a
    | .factor =>
      Expression.between (symbol ['(']) (rule .expr) (symbol [')'])
        <|> .base natural
  rules := [.expr, .term, .factor]
  mem_rules r := by cases r <;> simp

/-- **An expression**: a sum or a difference of terms, grouped to the right. -/
def expr : Parser Word := grammar.parser (rule .expr)

/-- **A term**: a product of factors, grouped to the right. -/
def term : Parser Word := grammar.parser (rule .term)

/-- **A factor**: an expression in parentheses, or a natural number. -/
def factor : Parser Word := grammar.parser (rule .factor)

/-- **The value of a text** that is an expression and nothing else. -/
def evaluate (s : Text) : Option (Except ParseError Word) := expr.complete s

/-! ## The equations of the rules -/

/-- **An operator and its right operand**, read by a given parser. -/
def operation (sign : Char) (op : Word → Word → Option Word) (left : Word)
    (right : Parser Word) : Parser Word := do
  let _ ← Lexer.symbol [sign]
  let b ← right
  Parser.ofOption ((op left b).map pure)

theorem readsFront_operation (sign : Char) (op : Word → Word → Option Word)
    (left : Word) (right : Rule) :
    (Body.operation sign op left right).ReadsFront := by
  refine ⟨leavesSuffix_symbol _, fun _ => ⟨trivial, fun b => ?_⟩⟩
  dsimp only
  cases op left b <;> trivial

theorem denote_operation (env : Expression.Env fun _ : Rule => Word)
    (sign : Char) (op : Word → Word → Option Word) (left : Word)
    (right : Rule) :
    (Body.operation sign op left right).denote env
      = operation sign op left (env right) := by
  simp only [Body.operation, operation, Body.symbol, Body.rule,
    Expression.denote_bind, Expression.denote_base, Expression.denote_rule,
    Expression.denote_ofOption, Option.map_map]
  rfl

/-- The grammar is made of lexers, and so reads the front of a text. -/
theorem readsFront_body (r : Rule) : (grammar.body r).ReadsFront := by
  cases r with
  | expr =>
    exact ⟨trivial, fun a =>
      ⟨readsFront_operation .., readsFront_operation .., trivial⟩⟩
  | term => exact ⟨trivial, fun a => ⟨readsFront_operation .., trivial⟩⟩
  | factor =>
    exact ⟨⟨leavesSuffix_symbol _, fun _ =>
        ⟨trivial, fun _ => ⟨leavesSuffix_symbol _, fun _ => trivial⟩⟩⟩,
      leavesSuffix_natural⟩

/-- **An expression** is a term, and then a plus sign or a minus sign and an
  expression, unless there is none or the operation fails. -/
theorem expr_eq :
    expr = term >>= fun a =>
      operation '+' Word.add? a expr <|> operation '-' Word.sub? a expr
        <|> pure a := by
  refine (Grammar.parser_rule readsFront_body .expr).trans ?_
  simp only [grammar, Expression.denote_bind, Expression.denote_orElse,
    denote_operation, Body.rule, Expression.denote_rule, Expression.denote_pure]
  rfl

/-- **A term** is a factor, and then an asterisk and a term, unless there is
  none or the operation fails. -/
theorem term_eq :
    term = factor >>= fun a => operation '*' Word.mul? a term <|> pure a := by
  refine (Grammar.parser_rule readsFront_body .term).trans ?_
  simp only [grammar, Expression.denote_bind, Expression.denote_orElse,
    denote_operation, Body.rule, Expression.denote_rule, Expression.denote_pure]
  rfl

/-- **A factor** is an expression in parentheses, or a natural number. -/
theorem factor_eq :
    factor = (Parser.between (Lexer.symbol ['(']) expr (Lexer.symbol [')'])
      <|> natural) :=
  Grammar.parser_rule readsFront_body .factor

/-! ## What is left of a text -/

/-- A rule reads the front of a text. -/
theorem leavesSuffix_rule (r : Rule) :
    LeavesSuffix (grammar.parser (Body.rule r)) :=
  Grammar.parser_leavesSuffix readsFront_body (e := Body.rule r) trivial

theorem leavesSuffix_expr : LeavesSuffix expr := leavesSuffix_rule .expr

theorem leavesSuffix_term : LeavesSuffix term := leavesSuffix_rule .term

theorem leavesSuffix_factor : LeavesSuffix factor := leavesSuffix_rule .factor

end Arithmetic

end CommittedChoice
