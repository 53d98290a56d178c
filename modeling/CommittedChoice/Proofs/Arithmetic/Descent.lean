import CommittedChoice.Proofs.Arithmetic.Progress
import CommittedChoice.Proofs.Entry
import CommittedChoice.Proofs.Parser.Separated

/-!
# The recursion of the rules goes down

An expression begins with a term, a term with a factor, and a factor may hold an
expression: the three rules of arithmetic enter each other in a circle. There
are six places where a rule is entered (`Arithmetic.Entry`), and a run has no
other entries.

At two of these places the text stays the same. They lead from an expression to
a term and from a term to a factor, and so they cannot make a circle. At the
other four a character was taken, a parenthesis or an operator, and the text is
shorter, white space and an operand in front of the operator not counted. So
entries go down in the order of the length of the text and the rank of the rule
(`Arithmetic.Entry.below`): there are no endless entries, and no rule is entered
again on the text that it is running on.

What a rule leaves is always less text. Therefore repetitions of rules end as
well, and lists of them with any separator that does not give text back
(`Arithmetic.rules_descend`).
-/

namespace CommittedChoice

namespace Arithmetic

open CommittedChoice.Parser (EndsOn Shrinks many many1 sepBy)

/-! ## The places where rules are entered -/

/-- **A place where a rule is entered** from a rule, each with its text. -/
inductive Entry : Rule × Text → Rule × Text → Prop where
  /-- The term at the beginning of an expression. -/
  | term {s : Text} : Entry (.expr, s) (.term, s)
  /-- The factor at the beginning of a term. -/
  | factor {s : Text} : Entry (.term, s) (.factor, s)
  /-- The expression behind a plus sign. -/
  | sum {s t u : Text} {v : Word} (hs : term s = some [(v, u)])
    (hu : skipBlanks u = '+' :: t) :
    Entry (.expr, s) (.expr, t)
  /-- The expression behind a minus sign. -/
  | difference {s t u : Text} {v : Word} (hs : term s = some [(v, u)])
    (hu : skipBlanks u = '-' :: t) : Entry (.expr, s) (.expr, t)
  /-- The term behind an asterisk. -/
  | product {s t u : Text} {v : Word} (hs : factor s = some [(v, u)])
    (hu : skipBlanks u = '*' :: t) : Entry (.term, s) (.term, t)
  /-- The expression in parentheses. -/
  | parentheses {s t : Text} (hs : skipBlanks s = '(' :: t) :
    Entry (.factor, s) (.expr, t)

variable {env : Expression.Env fun _ : Rule => Word} {r r' : Rule}
    {s t u : Text} {v : Word}
  {others : List (Candidate Word)}

/-- Behind a symbol, the text goes on where the symbol ends. -/
theorem enters_symbol_bind_iff {c : Char} {k : Text → Body Word} :
    (Body.symbol [c] >>= k).Enters env s r t
      ↔ ∃ u, skipBlanks s = c :: u ∧ (k [c]).Enters env u r t := by
  constructor
  · rintro (h | ⟨l, u, others, hs, h⟩)
    · exact h.elim
    · have hu : skipBlanks s = c :: u :=
        Lexer.offers_symbol ⟨_, hs, List.mem_cons_self⟩
      obtain rfl : [c] = l := by
        have hl := (Lexer.symbol_of_skipBlanks hu).symm.trans hs
        simp at hl
        exact hl.1
      exact ⟨u, hu, h⟩
  · rintro ⟨u, hu, h⟩
    exact .inr ⟨[c], u, [], Lexer.symbol_of_skipBlanks hu, h⟩

/-- A rule behind a symbol is entered there, and it is the only one if none is
  entered behind it. -/
theorem enters_symbol_rule_iff {c : Char} {r' : Rule} {k : Word → Body Word}
    (hk : ∀ b u, ¬ (k b).Enters env u r t) :
    (Body.symbol [c] >>= fun _ => Body.rule r' >>= k).Enters env s r t
      ↔ skipBlanks s = c :: t ∧ r = r' := by
  rw [enters_symbol_bind_iff]
  constructor
  · rintro ⟨u, hu, ⟨rfl, rfl⟩ | ⟨b, u', -, -, h⟩⟩
    · exact ⟨hu, rfl⟩
    · exact absurd h (hk b u')
  · rintro ⟨hs, rfl⟩
    exact ⟨t, hs, .inl ⟨rfl, rfl⟩⟩

/-- An operator enters the rule of its right operand, behind its sign, … -/
theorem enters_operation_iff {sign : Char} {op : Word → Word → Option Word}
    {a : Word} :
    (Body.operation sign op a r').Enters env s r t
      ↔ skipBlanks s = sign :: t ∧ r = r' := by
  refine enters_symbol_rule_iff fun b u => ?_
  -- the result is there or not, and no rule is asked
  cases op a b <;> exact id

/-- … and parentheses enter the rule of their content. -/
theorem enters_parentheses_iff :
    (Expression.between (Body.symbol ['(']) (Body.rule r')
      (Body.symbol [')'])).Enters env s r t
      ↔ skipBlanks s = '(' :: t ∧ r = r' := by
  refine enters_symbol_rule_iff fun b u h => ?_
  obtain ⟨u', -, h⟩ := enters_symbol_bind_iff.1 h
  exact h

/-- A rule has one candidate at most. -/
theorem parser_eq_single (h : r.parser s = some ((v, u) :: others)) :
    r.parser s = some [(v, u)] := by
  obtain hnil | ⟨v', u', hs, -⟩ := settles_rule r s
  · simp [hnil] at h
  · obtain ⟨⟨rfl, rfl⟩, -⟩ : (v' = v ∧ u' = u) ∧ [] = others := by
      simpa [hs] using h
    exact hs

/-- **The entries are those at the six places.** -/
theorem enters_iff_entry {x y : Rule × Text} :
    grammar.Enters x y ↔ Entry x y := by
  obtain ⟨r, s⟩ := x
  obtain ⟨r', t⟩ := y
  constructor
  · intro h
    cases r with
    | expr =>
      obtain ⟨rfl, rfl⟩ | ⟨v, u, others, hs, h | ⟨-, h | ⟨-, h⟩⟩⟩ := h
      · exact .term
      · obtain ⟨hu, rfl⟩ := enters_operation_iff.1 h
        exact .sum (parser_eq_single (r := .term) hs) hu
      · obtain ⟨hu, rfl⟩ := enters_operation_iff.1 h
        exact .difference (parser_eq_single (r := .term) hs) hu
      · exact h.elim
    | term =>
      obtain ⟨rfl, rfl⟩ | ⟨v, u, others, hs, h | ⟨-, h⟩⟩ := h
      · exact .factor
      · obtain ⟨hu, rfl⟩ := enters_operation_iff.1 h
        exact .product (parser_eq_single (r := .factor) hs) hu
      · exact h.elim
    | factor =>
      obtain h | ⟨-, h⟩ := h
      · obtain ⟨hs, rfl⟩ := enters_parentheses_iff.1 h
        exact .parentheses hs
      · exact h.elim
  · intro h
    cases h with
    | term => exact .inl ⟨rfl, rfl⟩
    | factor => exact .inl ⟨rfl, rfl⟩
    | sum hs hu =>
      exact .inr ⟨_, _, [], hs, .inl (enters_operation_iff.2 ⟨hu, rfl⟩)⟩
    | @difference _ _ u v hs hu =>
      -- the choice comes to the minus sign because there is no plus sign
      have hplus :
          (Body.operation '+' Word.add? v .expr).denote grammar.ruleParsers u
          = some [] := by
        rw [denote_operation]
        exact operation_eq_nil fun t' hu' =>
          absurd (hu.symm.trans hu') (by simp)
      exact .inr ⟨_, _, [], hs,
        .inr ⟨hplus, .inl (enters_operation_iff.2 ⟨hu, rfl⟩)⟩⟩
    | product hs hu =>
      exact .inr ⟨_, _, [], hs, .inl (enters_operation_iff.2 ⟨hu, rfl⟩)⟩
    | parentheses hs => exact .inl (enters_parentheses_iff.2 ⟨hs, rfl⟩)

/-! ## Going down -/

/-- **The rank of a rule**: the rules that can be entered on the same text have
  a lower one. -/
def Rule.rank : Rule → Nat
  | factor => 0
  | term => 1
  | expr => 2

/-- **Going down** from a rule on a text: to a part of the text at its end,
  which is a shorter one, or else to a rule of lower rank. -/
structure Below (y x : Rule × Text) : Prop where
  /-- The text is a part of the text. -/
  suffix : y.2 <:+ x.2
  /-- It is less text, or a lower rank. -/
  lower : y.2.length < x.2.length ∨ y.1.rank < x.1.rank

/-- Going down twice is going down. -/
theorem Below.trans {x y z : Rule × Text} (hz : Below z y) (hy : Below y x) :
    Below z x where
  suffix := hz.suffix.trans hy.suffix
  lower := by
    have hzy := hz.suffix.length_le
    have hyx := hy.suffix.length_le
    obtain h | h := hz.lower
    · exact .inl (by omega)
    · obtain h' | h' := hy.lower
      · exact .inl (by omega)
      · exact .inr (Nat.lt_trans h h')

/-- Behind a character there is less text. -/
theorem less_of_skipBlanks {c : Char} (h : skipBlanks s = c :: t) :
    t <:+ s ∧ t.length < s.length := by
  have hcons : c :: t <:+ s := h ▸ skipBlanks_suffix s
  exact ⟨(List.suffix_cons c t).trans hcons, hcons.length_le⟩

/-- So there is behind an operator that comes after an operand. -/
theorem less_of_operator (hs : r.parser s = some [(v, u)]) {c : Char}
    (hu : skipBlanks u = c :: t) : t <:+ s ∧ t.length < s.length := by
  obtain ⟨hsuffix, hlength⟩ := less_of_skipBlanks hu
  have hrest : u <:+ s := leavesSuffix_rule r hs (v, u) List.mem_cons_self
  exact ⟨hsuffix.trans hrest, Nat.lt_of_lt_of_le hlength hrest.length_le⟩

/-- **Every entry is on less text**, but for those at the beginning of an
  expression and of a term. -/
theorem Entry.less {x y : Rule × Text} (h : Entry x y) :
    y.2 <:+ x.2 ∧ (y.2.length < x.2.length
      ∨ y.2 = x.2 ∧ (x.1 = .expr ∧ y.1 = .term
          ∨ x.1 = .term ∧ y.1 = .factor)) := by
  cases h with
  | term => exact ⟨List.suffix_refl _, .inr ⟨rfl, .inl ⟨rfl, rfl⟩⟩⟩
  | factor => exact ⟨List.suffix_refl _, .inr ⟨rfl, .inr ⟨rfl, rfl⟩⟩⟩
  | sum hs hu => exact (less_of_operator (r := .term) hs hu).imp_right .inl
  | difference hs hu =>
    exact (less_of_operator (r := .term) hs hu).imp_right .inl
  | product hs hu =>
    exact (less_of_operator (r := .factor) hs hu).imp_right .inl
  | parentheses hs => exact (less_of_skipBlanks hs).imp_right .inl

/-- **Entries go down.** -/
theorem Entry.below {x y : Rule × Text} (h : Entry x y) : Below y x where
  suffix := h.less.1
  lower := by
    obtain hlength | ⟨-, ⟨hx, hy⟩ | ⟨hx, hy⟩⟩ := h.less.2
    · exact .inl hlength
    · exact .inr (by rw [hx, hy]; decide)
    · exact .inr (by rw [hx, hy]; decide)

/-- So do entries in entries, at any depth, … -/
theorem below_of_transGen {x y : Rule × Text}
    (h : Relation.TransGen grammar.Enters x y) :
    Below y x := by
  induction h with
  | single h => exact (enters_iff_entry.1 h).below
  | tail _ h ih => exact (enters_iff_entry.1 h).below.trans ih

/-- The length of the text, and the rank of the rule where the length is
  the same. -/
def measure (x : Rule × Text) : Nat × Nat := (x.2.length, x.1.rank)

/-- … and they come to an end, as the measure gets smaller. -/
theorem wellFounded_enters : WellFounded fun y x => grammar.Enters x y := by
  have hlex {y x : Rule × Text} (h : grammar.Enters x y) :
      Prod.Lex (· < ·) (· < ·) (measure y) (measure x) := by
    have hbelow := (enters_iff_entry.1 h).below
    refine Prod.lex_def.2 ?_
    rcases Nat.lt_or_eq_of_le hbelow.suffix.length_le with hlength | hlength
    · exact .inl hlength
    · exact .inr ⟨hlength, hbelow.lower.resolve_left (by omega)⟩
  exact Subrelation.wf hlex
    (InvImage.wf measure (Prod.lex Nat.lt_wfRel Nat.lt_wfRel).wf)

/-! ## Lists of rules -/

/-- A list of what a rule reads ends, if its separator ends and gives no
  text back. -/
theorem endsOn_sepBy_rule {β : Type} {separator : Parser β}
    (hsep : ∀ t, EndsOn separator t)
    (hlength : ∀ t b u others, separator t = some ((b, u) :: others) →
      u.length ≤ t.length)
    (r : Rule) (s : Text) : EndsOn (sepBy r.parser separator) s := by
  have hshrinks : Shrinks (separator >>= fun _ => r.parser) := by
    intro t v u others h
    obtain ⟨b, u', others', ht, hu⟩ := Parser.separated_eq_cons_iff.1 h
    exact Nat.lt_of_lt_of_le (shrinks_rule r hu) (hlength t b u' others' ht)
  exact .sepBy hshrinks (fun t => (settles_rule r t).endsOn) hsep s

/-- **The recursion of the rules is well founded on every text, and makes
  progress.** The run of a rule ends, and what a candidate leaves is a part of
  the text at its end, and shorter. The rules that it enters, directly, are
  those at the six places, and those without which it would not end. Each of
  them is entered on less text, but for the term at the beginning of an
  expression and the factor at the beginning of a term, which are entered on the
  same text. So no rule is entered again on the same text, at any depth, and
  there are no endless entries. Every text has an answer, and repetitions and
  lists of a rule end on every text, with any separator that ends and gives no
  text back. -/
theorem rules_descend :
    (∀ (r : Rule) (s : Text), ∃ cs, r.parser s = some cs
        ∧ ∀ c ∈ cs, c.2 <:+ s ∧ c.2.length < s.length)
      ∧ (∀ x y, grammar.Enters x y ↔ Entry x y)
      ∧ (∀ x y, grammar.Enters x y
          ↔ (grammar.body x.1).denote (grammar.ruleParsers.without y.1 y.2)
              x.2 = none)
      ∧ (∀ x y, grammar.Enters x y → y.2 <:+ x.2 ∧ (y.2.length < x.2.length
          ∨ y.2 = x.2 ∧ (x.1 = .expr ∧ y.1 = .term
              ∨ x.1 = .term ∧ y.1 = .factor)))
      ∧ (∀ r s t, Relation.TransGen grammar.Enters (r, s) (r, t) →
          t.length < s.length)
      ∧ WellFounded (fun y x => grammar.Enters x y)
      ∧ (∀ s, ∃ answer, evaluate s = some answer)
      ∧ ∀ (r : Rule) (s : Text), EndsOn (many r.parser) s
          ∧ EndsOn (many1 r.parser) s
          ∧ ∀ {β : Type} (separator : Parser β), (∀ t, EndsOn separator t) →
              (∀ t b u others, separator t = some ((b, u) :: others) →
                u.length ≤ t.length) →
              EndsOn (sepBy r.parser separator) s := by
  have hends (r : Rule) (s : Text) : EndsOn r.parser s :=
    (settles_rule r s).endsOn
  have hconsumes (r : Rule) : Parser.Consumes r.parser :=
    Parser.consumes_of_settles (settles_rule r)
  refine ⟨fun r s => ?_, fun x y => enters_iff_entry,
    fun x y => Grammar.enters_iff_without readsFront_body (hends x.1 x.2),
    fun x y h => (enters_iff_entry.1 h).less, fun r s t h => ?_,
    wellFounded_enters,
    fun s => ?_, fun r s => ⟨?_, ?_, fun separator hsep hlength => ?_⟩⟩
  · obtain ⟨cs, hs⟩ := hends r s
    exact ⟨cs, hs, fun c hc =>
      ⟨leavesSuffix_rule r hs c hc, hconsumes r ⟨cs, hs, hc⟩⟩⟩
  · exact (below_of_transGen h).lower.resolve_right (Nat.lt_irrefl _)
  · exact Parser.exists_complete_iff.2 (hends .expr s)
  · exact .many (shrinks_rule r) (hends r s) fun t _ => hends r t
  · exact .many1 (shrinks_rule r) (hends r) s
  · exact endsOn_sepBy_rule hsep hlength r s

/-- An expression in parentheses is entered again behind the opening one, and a
  list of expressions ends behind its last comma. -/
theorem rules_descend_parentheses :
    Relation.TransGen grammar.Enters (.expr, "(1)".toList) (.expr, "1)".toList)
      ∧ "1)".toList.length < "(1)".toList.length
      ∧ (∀ t, EndsOn (Lexer.symbol [',']) t)
      ∧ (∀ t b u others, Lexer.symbol [','] t = some ((b, u) :: others) →
          u.length ≤ t.length)
      ∧ EndsOn (sepBy expr (Lexer.symbol [','])) "(1), 2,".toList := by
  obtain ⟨-, hentry, -, -, hagain, -, -, hlists⟩ := rules_descend
  have hcircle : Relation.TransGen grammar.Enters (.expr, "(1)".toList)
      (.expr, "1)".toList) :=
    .tail (.tail (.single ((hentry _ _).2 .term)) ((hentry _ _).2 .factor))
      ((hentry _ _).2 (.parentheses (by decide +kernel)))
  have hcomma (t : Text) : EndsOn (Lexer.symbol [',']) t :=
    (Lexer.settles_symbol [','] t).endsOn
  have hlength (t : Text) (b : Text) (u : Text) (others : List (Candidate Text))
      (h : Lexer.symbol [','] t = some ((b, u) :: others)) :
      u.length ≤ t.length :=
    Nat.le_of_lt (Lexer.shrinks_symbol ',' h)
  exact ⟨hcircle, hagain _ _ _ hcircle, hcomma, hlength,
    (hlists .expr _).2.2 (Lexer.symbol [',']) hcomma hlength⟩

end Arithmetic

end CommittedChoice
