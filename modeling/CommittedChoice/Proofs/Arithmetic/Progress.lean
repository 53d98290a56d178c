import CommittedChoice.Proofs.Arithmetic.Operation
import CommittedChoice.Proofs.Parser.Settle

/-!
# Every rule settles every text

The run of a rule ends on every text, with one candidate or with none, and a
candidate leaves less text than there was (`Arithmetic.settles_rule`).

The three rules call each other, so this is one induction for all of them, on
the length of the text (`Arithmetic.Rule.induction`). A rule is entered on a
shorter text behind a parenthesis and behind an operator, where the induction
hypothesis is used; on the same text, an expression enters a term, and a term
enters a factor.
-/

namespace CommittedChoice

namespace Arithmetic

open CommittedChoice.Parser (Settles)

variable {s : Text}

theorem settles_operation {sign : Char} {op : Word → Word → Option Word}
    {a : Word} {right : Parser Word}
    (hright : ∀ t : Text, t.length < s.length → Settles right t 1) :
    Settles (operation sign op a right) s 0 := by
  have hoperand (t : Text) (ht : t.length < s.length) :
      Settles (right >>= fun b => Parser.ofOption ((op a b).map pure)) t 1 :=
    Parser.settles_bind (hright t ht) fun b r _ =>
      Parser.settles_ofOption_pure (op a b) r
  have h : Settles (operation sign op a right) s (1 + 1) :=
    Parser.settles_bind (Lexer.settles_symbol [sign] s) fun _ t ht =>
      hoperand t ht
  exact h.mono (Nat.zero_le _)

/-- Behind the first factor nothing has to be taken, … -/
theorem settles_afterFactor
    (hterm : ∀ t : Text, t.length < s.length → Settles term t 1) (a : Word) :
    Settles (afterFactor a) s 0 :=
  Parser.settles_orElse (settles_operation hterm) (Parser.settles_pure a s)

/-- … and behind the first term neither. -/
theorem settles_afterTerm
    (hexpr : ∀ t : Text, t.length < s.length → Settles expr t 1) (a : Word) :
    Settles (afterTerm a) s 0 :=
  Parser.settles_orElse (settles_operation hexpr)
    (Parser.settles_orElse (settles_operation hexpr) (Parser.settles_pure a s))

/-- A factor takes its parenthesis, or a digit. -/
theorem settles_factor
    (hexpr : ∀ t : Text, t.length < s.length → Settles expr t 1) :
    Settles factor s 1 := by
  rw [factor_eq]
  have hparen : Settles
      (Parser.between (Lexer.symbol ['(']) expr (Lexer.symbol [')'])) s 3 :=
    Parser.settles_between (Lexer.settles_symbol ['('] s)
      (fun t ht => hexpr t ht) (Lexer.settles_symbol [')'])
  exact Parser.settles_orElse (hparen.mono (by decide))
    (Lexer.settles_natural s)

/-- **Induction over the rules.** A property of rules on texts holds if every
  rule has it on a text provided that the rules it enters have it where they are
  entered: a factor and what follows an operator on shorter texts, and the first
  part of the rule on the text itself. -/
theorem Rule.induction {P : Rule → Text → Prop}
    (factor : ∀ s : Text, (∀ t : Text, t.length < s.length → P .expr t) →
      P .factor s)
    (term : ∀ s : Text, (∀ t : Text, t.length < s.length → P .term t) →
      P .factor s → P .term s)
    (expr : ∀ s : Text, (∀ t : Text, t.length < s.length → P .expr t) →
      P .term s → P .expr s)
    (r : Rule) (s : Text) : P r s := by
  induction hn : s.length using Nat.strongRecOn generalizing r s with
  | ind n ih =>
    subst hn
    have hlater : ∀ (r : Rule) (t : Text), t.length < s.length → P r t :=
      fun r t ht => ih t.length ht r t rfl
    have hfactor : P .factor s := factor s (hlater .expr)
    have hterm : P .term s := term s (hlater .term) hfactor
    cases r with
    | factor => exact hfactor
    | term => exact hterm
    | expr => exact expr s (hlater .expr) hterm

/-- **Every rule settles every text**, and what it reads is not empty. -/
theorem settles_rule (r : Rule) (s : Text) : Settles r.parser s 1 := by
  induction r, s using Rule.induction with
  | factor s hlater => exact settles_factor hlater
  | term s hlater hfactor =>
    show Settles term s 1
    rw [term_eq]
    exact Parser.settles_bind hfactor fun a r hr =>
      settles_afterFactor (fun t ht => hlater t (by omega)) a
  | expr s hlater hterm =>
    show Settles expr s 1
    rw [expr_eq]
    exact Parser.settles_bind hterm fun a r hr =>
      settles_afterTerm (fun t ht => hlater t (by omega)) a

/-- So what a rule leaves is less text. -/
theorem shrinks_rule (r : Rule) : Parser.Shrinks r.parser :=
  (Parser.consumes_of_settles (settles_rule r)).shrinks

end Arithmetic

end CommittedChoice
