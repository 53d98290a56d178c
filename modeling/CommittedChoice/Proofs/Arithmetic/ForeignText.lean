import CommittedChoice.Proofs.Arithmetic.Phrase
import CommittedChoice.Proofs.Arithmetic.Progress
import CommittedChoice.Proofs.Parser.Overlook

/-!
# Text that arithmetic does not use

A text is *foreign* if, white space apart, it begins neither with a digit nor
with a parenthesis or an operator. Nothing that a rule looks for can begin in
such a text, and so no rule takes notice of it: behind any text, well formed or
not, the rule fails or succeeds as it does without it, with the same value, and
leaves it in full (`Arithmetic.rules_overlook_foreign`). White space is foreign.

The places where a run comes to the end of its text are the ones to look at. A
run of digits ends there in both runs, as the foreign text begins with no digit.
A symbol or a number that is missing at the end of the text is missing in the
foreign text as well, where the white space in front of it may already belong to
that text; the match fails, and so the white space is not lost. The rest is the
same choice in both runs, by induction over the rules.
-/

namespace CommittedChoice

namespace Arithmetic

open CommittedChoice.Parser (Overlooks)

/-- **The signs of arithmetic.** -/
def signs : List Char := ['(', ')', '+', '-', '*']

/-- None of them is white space. -/
theorem isBlank_eq_false_of_mem_signs {c : Char} (hc : c ∈ signs) :
    isBlank c = false := by
  have h : c = '(' ∨ c = ')' ∨ c = '+' ∨ c = '-' ∨ c = '*' := by
    simpa [signs] using hc
  obtain rfl | rfl | rfl | rfl | rfl := h <;> decide

/-- **Foreign text**: the first character that is not white space, if there is
  one, is neither a digit nor a sign. -/
def Foreign (t : Text) : Prop :=
  ∀ c ∈ (skipBlanks t).head?, c.isDigit = false ∧ c ∉ signs

variable {s t : Text}

/-- White space is foreign. -/
theorem Blanks.foreign (w : Blanks) : Foreign w.text := by
  have h : skipBlanks w.text = [] := by
    rw [← List.append_nil w.text, skipBlanks_append w.isBlank_of_mem,
      skipBlanks_nil]
  rw [Foreign, h]
  simp

namespace Foreign

/-- The very first character is no digit and no sign, either. -/
theorem head (ht : Foreign t) :
    ∀ c ∈ t.head?, c.isDigit = false ∧ c ∉ signs := by
  intro c hc
  obtain ⟨t, rfl⟩ := List.head?_eq_some_iff.1 hc
  cases hblank : isBlank c with
  | true =>
    refine ⟨isDigit_eq_false_of_isBlank hblank, fun hsign => ?_⟩
    rw [isBlank_eq_false_of_mem_signs hsign] at hblank
    exact Bool.false_ne_true hblank
  | false => exact ht c (by rw [skipBlanks_cons hblank]; rfl)

/-- Every sign overlooks foreign text, … -/
theorem overlooks_symbol (ht : Foreign t) {c : Char} (hc : c ∈ signs)
    (s : Text) :
    Overlooks (Lexer.symbol [c]) t s := by
  have hne {d : Char} (hd : d ∉ signs) : d ≠ c := fun h => hd (h ▸ hc)
  exact Lexer.overlooks_symbol (fun d hd => hne (ht.head d hd).2)
    (fun d hd => hne (ht d hd).2) s

/-- … and so does a number. -/
theorem overlooks_natural (ht : Foreign t) (s : Text) :
    Overlooks Lexer.natural t s :=
  Lexer.overlooks_natural (fun c hc => (ht.head c hc).1)
    (fun c hc => (ht c hc).1) s

/-! ## The bodies of the rules -/

/-- An operator overlooks foreign text if its operand does on shorter texts. -/
theorem overlooks_operation (ht : Foreign t) {sign : Char}
    (hsign : sign ∈ signs) {op : Word → Word → Option Word} {a : Word}
    {right : Parser Word}
    (hright : ∀ u : Text, u.length < s.length → Overlooks right t u) :
    Overlooks (operation sign op a right) t s := by
  refine Parser.overlooks_bind (ht.overlooks_symbol hsign s)
    fun l u others h => ?_
  have hu : u.length < s.length := Lexer.shrinks_symbol sign h
  exact Parser.overlooks_bind (hright u hu) fun b r _ _ =>
    Parser.overlooks_ofOption_pure (op a b) t r

theorem overlooks_afterFactor (ht : Foreign t)
    (hterm : ∀ u : Text, u.length < s.length → Overlooks term t u) (a : Word) :
    Overlooks (afterFactor a) t s :=
  Parser.overlooks_orElse (ht.overlooks_operation (by decide) hterm)
    (Parser.overlooks_pure a t s)

theorem overlooks_afterTerm (ht : Foreign t)
    (hexpr : ∀ u : Text, u.length < s.length → Overlooks expr t u) (a : Word) :
    Overlooks (afterTerm a) t s :=
  Parser.overlooks_orElse (ht.overlooks_operation (by decide) hexpr)
    (Parser.overlooks_orElse (ht.overlooks_operation (by decide) hexpr)
      (Parser.overlooks_pure a t s))

/-- A parenthesis that is not closed is not closed in the foreign text. -/
theorem overlooks_factor (ht : Foreign t)
    (hexpr : ∀ u : Text, u.length < s.length → Overlooks expr t u) :
    Overlooks factor t s := by
  have hparen : Overlooks
      (Parser.between (Lexer.symbol ['(']) expr (Lexer.symbol [')'])) t s :=
    Parser.overlooks_between (ht.overlooks_symbol (by decide) s)
      (fun _ u _ h => hexpr u (Lexer.shrinks_symbol '(' h))
      (ht.overlooks_symbol (by decide))
  rw [factor_eq]
  exact Parser.overlooks_orElse hparen (ht.overlooks_natural s)

/-- **Every rule overlooks foreign text** behind every text. -/
theorem overlooks_rule (ht : Foreign t) (r : Rule) (s : Text) :
    Overlooks r.parser t s := by
  induction r, s using Rule.induction with
  | factor s hlater => exact ht.overlooks_factor hlater
  | term s hlater hfactor =>
    show Overlooks term t s
    rw [term_eq]
    exact Parser.overlooks_bind hfactor fun a u _ h => ht.overlooks_afterFactor
      (fun u' hu' => hlater u' (Nat.lt_trans hu' (shrinks_rule .factor h))) a
  | expr s hlater hterm =>
    show Overlooks expr t s
    rw [expr_eq]
    exact Parser.overlooks_bind hterm fun a u _ h => ht.overlooks_afterTerm
      (fun u' hu' => hlater u' (Nat.lt_trans hu' (shrinks_rule .term h))) a

end Foreign

/-- **Foreign text behind never changes the parse.** Every rule fails on a text
  with foreign text behind it if it fails on the text, and otherwise has its one
  candidate there with the same value, which leaves the foreign text behind what
  was left before. So with some foreign text behind it, a text with a value has
  that for unused input, unused input goes on with it, and what is no match
  stays so. In particular, all of the white space behind a text is left. -/
theorem rules_overlook_foreign (s : Text) {t : Text} (ht : Foreign t) :
    (∀ r : Rule, r.parser s = some [] ∧ r.parser (s ++ t) = some []
        ∨ ∃ v u, r.parser s = some [(v, u)] ∧ r.parser (s ++ t)
            = some [(v, u ++ t)])
      ∧ (t ≠ [] →
          (∀ v, evaluate s = some (.ok v) →
              evaluate (s ++ t) = some (.error (.unusedInput t)))
            ∧ (∀ u, evaluate s = some (.error (.unusedInput u)) →
              evaluate (s ++ t) = some (.error (.unusedInput (u ++ t))))
            ∧ (evaluate s = some (.error .noMatch) →
              evaluate (s ++ t) = some (.error .noMatch)))
      ∧ ∀ (w : Blanks) (r : Rule) (v : Word) (u : Text),
          r.parser s = some [(v, u)] →
          r.parser (s ++ w.text) = some [(v, u ++ w.text)] := by
  have hexpr : Overlooks expr t s := ht.overlooks_rule .expr s
  refine ⟨fun r => ?_, fun hne => ⟨fun v => hexpr.complete_of_ok hne,
    fun u => hexpr.complete_of_unusedInput, hexpr.complete_of_noMatch⟩,
    fun w r v u h => (w.foreign.overlooks_rule r s).of_cons h⟩
  have hrule : Overlooks r.parser t s := ht.overlooks_rule r s
  obtain hnil | ⟨v, u, h, -⟩ := settles_rule r s
  · exact .inl ⟨hnil, hrule.of_nil hnil⟩
  · exact .inr ⟨v, u, h, hrule.of_cons h⟩

/-- A parenthesis that is not closed, and an equals sign behind white space. -/
theorem rules_overlook_foreign_unclosed :
    Foreign " = 9".toList
      ∧ evaluate "1 + 2 * (3 -".toList
          = some (.error (.unusedInput " * (3 -".toList))
      ∧ evaluate ("1 + 2 * (3 -".toList ++ " = 9".toList)
          = some (.error
              (.unusedInput (" * (3 -".toList ++ " = 9".toList))) := by
  have hforeign : Foreign " = 9".toList := by
    intro c hc
    obtain rfl : '=' = c := Option.some.inj (show some '=' = some c from hc)
    decide
  have hexpr : expr "1 + 2 * (3 -".toList = some [(3, " * (3 -".toList)] := by
    decide +kernel
  have h : evaluate "1 + 2 * (3 -".toList
      = some (.error (.unusedInput " * (3 -".toList)) :=
    Parser.complete_eq_unusedInput_iff.2 ⟨by decide, 3, [], hexpr⟩
  obtain ⟨-, hwhole, -⟩ := rules_overlook_foreign "1 + 2 * (3 -".toList hforeign
  exact ⟨hforeign, h, (hwhole (by decide)).2.1 _ h⟩

end Arithmetic

end CommittedChoice
