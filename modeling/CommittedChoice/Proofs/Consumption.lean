import CommittedChoice.Arithmetic

/-!
# Every candidate leaves a suffix

Whatever a parsing expression is built from, what any of its candidates leaves
is a suffix of the text, as long as this is so for the base parsers it is built
from. It is so for all parsers that the library supplies, which `Supplied`
lists; an expression over these and nothing else needs no assumption.

An error that carries unused input therefore carries the end of the text, and
never an empty one (`Grammar.leavesSuffix_of_supplied`).
-/

namespace CommittedChoice

open CommittedChoice.Parser (LeavesSuffix)

/-- **The parsers that the library supplies**, other than by combinators. -/
inductive Supplied : {α : Type} → Parser α → Prop where
  | item : Supplied Parser.item
  /-- Classes, and single characters, are among these. -/
  | sat (q : Char → Bool) : Supplied (Parser.sat q)
  | literal (l : Text) : Supplied (Lexer.literal l)
  | space : Supplied Lexer.space
  | symbol (l : Text) : Supplied (Lexer.symbol l)
  | nat : Supplied Lexer.nat
  | int : Supplied Lexer.int
  | ident : Supplied Lexer.ident
  | natural : Supplied Lexer.natural
  | integer : Supplied Lexer.integer
  | identifier : Supplied Lexer.identifier
  | nats : Supplied Lexer.nats
  | expr : Supplied Arithmetic.expr
  | term : Supplied Arithmetic.term
  | factor : Supplied Arithmetic.factor

variable {ρ : Type} {τ : ρ → Type} {α : Type}

/-- All of them read the front of a text. -/
theorem Supplied.leavesSuffix {p : Parser α} (h : Supplied p) :
    LeavesSuffix p := by
  cases h with
  | item => exact .item
  | sat q => exact .sat q
  | literal l => exact Lexer.leavesSuffix_literal l
  | space => exact Lexer.leavesSuffix_space
  | symbol l => exact Lexer.leavesSuffix_symbol l
  | nat => exact Lexer.leavesSuffix_nat
  | int => exact Lexer.leavesSuffix_int
  | ident => exact Lexer.leavesSuffix_ident
  | natural => exact Lexer.leavesSuffix_natural
  | integer => exact Lexer.leavesSuffix_integer
  | identifier => exact Lexer.leavesSuffix_identifier
  | nats => exact Lexer.leavesSuffix_nats
  | expr => exact Arithmetic.leavesSuffix_expr
  | term => exact Arithmetic.leavesSuffix_term
  | factor => exact Arithmetic.leavesSuffix_factor

namespace Expression

/-- A weaker property of the base parsers. -/
theorem OverBases.mono {P Q : (α : Type) → Parser α → Prop}
    (hPQ : ∀ α p, P α p → Q α p) {e : Expression τ α} (h : e.OverBases P) :
    e.OverBases Q := by
  induction e with
  | base p => exact hPQ _ p h
  | pure => trivial
  | fail => trivial
  | map _ _ ih => exact ih h
  | seq _ _ ihf ihx => exact ⟨ihf h.1, ihx h.2⟩
  | bind _ _ ih ihk => exact ⟨ih h.1, fun a => ihk a (h.2 a)⟩
  | choice _ _ ih₁ ih₂ => exact ⟨ih₁ h.1, ih₂ h.2⟩
  | many _ ih => exact ih h
  | lazy _ ih => exact ih () h
  | rule => trivial

/-- **Built from what the library supplies**, and from parsers that read the
  front of a text. -/
abbrev OverSupplied (e : Expression τ α) : Prop :=
  e.OverBases fun _ p => Supplied p ∨ LeavesSuffix p

theorem OverSupplied.readsFront {e : Expression τ α} (h : e.OverSupplied) :
    e.ReadsFront :=
  OverBases.mono (fun _ _ hp => hp.elim Supplied.leavesSuffix id) h

end Expression

/-- **Unused input is the end of the text**, and there is some. -/
theorem Parser.LeavesSuffix.unusedInput {p : Parser α} (hp : LeavesSuffix p)
    {s r : Text} (h : p.complete s = some (.error (.unusedInput r))) :
    r ≠ [] ∧ ∃ front, s = front ++ r := by
  obtain ⟨hr, a, others, hs⟩ := complete_eq_unusedInput_iff.1 h
  obtain ⟨front, hfront⟩ := hp hs (a, r) List.mem_cons_self
  exact ⟨hr, front, hfront.symm⟩

namespace Grammar

variable {g : Grammar τ}

/-- **What is left is a suffix**, for every candidate of every expression, and
  so is the unused input of an error; there is no match exactly when there is no
  candidate. The same holds of the value of an arithmetic text. -/
theorem leavesSuffix_of_supplied (hg : ∀ r, (g.body r).OverSupplied)
    {e : Expression τ α} (he : e.OverSupplied) :
    (∀ s cs, g.parser e s = some cs → ∀ c ∈ cs, ∃ front, s = front ++ c.2)
      ∧ (∀ s r, (g.parser e).complete s = some (.error (.unusedInput r)) →
          r ≠ [] ∧ ∃ front, s = front ++ r)
      ∧ (∀ s, (g.parser e).complete s = some (.error .noMatch)
          ↔ g.parser e s = some [])
      ∧ (∀ s r, Arithmetic.evaluate s = some (.error (.unusedInput r)) →
          r ≠ [] ∧ ∃ front, s = front ++ r)
      ∧ ∀ s, Arithmetic.evaluate s = some (.error .noMatch)
          ↔ Arithmetic.expr s = some [] := by
  have hsuffix : LeavesSuffix (g.parser e) :=
    parser_leavesSuffix (fun r => (hg r).readsFront) he.readsFront
  refine ⟨fun s cs h c hc => ?_, fun s r h => hsuffix.unusedInput h,
    fun s => Parser.complete_eq_noMatch_iff,
    fun s r h => Arithmetic.leavesSuffix_expr.unusedInput h,
    fun s => Parser.complete_eq_noMatch_iff⟩
  obtain ⟨front, hfront⟩ := hsuffix h c hc
  exact ⟨front, hfront.symm⟩

/-- A grammar of nested parentheses, with their depth for a value. -/
def nesting : Grammar fun _ : Unit => Nat :=
  ofBody ((Nat.succ <$> Expression.between (.base (Lexer.symbol ['(']))
      (Expression.rule ()) (.base (Lexer.symbol [')'])))
    <|> Pure.pure 0)

/-- Nested parentheses, and then a character that may be left. -/
def nestingAndMore : Expression (fun _ : Unit => Nat) Nat := do
  let n ← Expression.rule ()
  .base fun s => some [(n, s.drop 1), (n, s)]

theorem leavesSuffix_of_supplied_nesting :
    ((∀ r, (nesting.body r).OverSupplied) ∧ nestingAndMore.OverSupplied)
      ∧ nesting.parser nestingAndMore "( () )ab".toList
          = some [(2, ['b']), (2, ['a', 'b'])]
      ∧ ∃ front, "( () )ab".toList = front ++ ['a', 'b'] := by
  have hg : ∀ r, (nesting.body r).OverSupplied := fun _ =>
    ⟨⟨.inl (.symbol _), fun _ =>
      ⟨trivial, fun _ => ⟨.inl (.symbol _), fun _ => trivial⟩⟩⟩, trivial⟩
  have he : nestingAndMore.OverSupplied := by
    refine ⟨trivial, fun n => .inr fun s cs h c hc => ?_⟩
    obtain rfl : [(n, s.drop 1), (n, s)] = cs := Option.some.inj h
    obtain rfl | rfl : c = (n, s.drop 1) ∨ c = (n, s) := by simpa using hc
    · exact List.drop_suffix 1 s
    · exact List.suffix_refl s
  have h : nesting.parser nestingAndMore "( () )ab".toList
      = some [(2, ['b']), (2, ['a', 'b'])] := by decide +kernel
  exact ⟨⟨hg, he⟩, h,
    (leavesSuffix_of_supplied hg he).1 _ _ h (2, ['a', 'b']) (by simp)⟩

end Grammar

end CommittedChoice
