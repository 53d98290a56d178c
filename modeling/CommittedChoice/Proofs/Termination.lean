import Mathlib.Algebra.GroupWithZero.Nat
import CommittedChoice.Proofs.FirstCandidate
import CommittedChoice.Proofs.Supplied

/-!
# Grammars whose runs end

A run can only go on for ever in two ways. A repetition may repeat what takes
nothing, and a rule may be entered again and again on the same text. Both can be
excluded by a look at the expressions, with no run at all.

An expression is *consuming* if it can be seen to take something whenever it
succeeds (`Expression.Consuming`). For a reference to a rule this is a
declaration, and the body of the rule has to confirm it. Then two conditions are
enough: what is repeated is consuming (`Expression.Guarded`), and the rules have
ranks that fall along all references which can be reached before something is
taken (`Expression.FirstIn`). Under these conditions the run of every expression
ends on every text (`Grammar.parser_ends`).

The induction is on the length of the text and the rank of the rule. A rule that
is entered on less text, of whatever rank, is settled by the first, and one that
is entered on the same text by the second. That an expression which can be seen
to be consuming does take something is needed on the way: it says when a text
has become shorter.
-/

namespace CommittedChoice

open CommittedChoice.Parser (LeavesSuffix Consumes EndsOn)

variable {ρ : Type} {τ : ρ → Type} {α β γ : Type}

namespace Expression

/-! ## Conditions on expressions -/

/-- **An expression that can be seen to take something**, given which rules are
  declared to do so. -/
def Consuming (declared : ρ → Prop) {α : Type} : Expression τ α → Prop
  | base p => SuppliedTaking p ∨ Consumes p
  | pure _ => False
  | fail => True
  | map _ e => e.Consuming declared
  | seq ef ex => ef.Consuming declared ∨ ex.Consuming declared
  | bind e k => e.Consuming declared ∨ ∀ a, (k a).Consuming declared
  | choice e₁ e₂ => e₁.Consuming declared ∧ e₂.Consuming declared
  | many _ => False
  | lazy e => (e ()).Consuming declared
  | rule r => declared r

/-- **What is repeated is consuming**, everywhere in the expression. -/
def Guarded (declared : ρ → Prop) {α : Type} : Expression τ α → Prop
  | base _ => True
  | pure _ => True
  | fail => True
  | map _ e => e.Guarded declared
  | seq ef ex => ef.Guarded declared ∧ ex.Guarded declared
  | bind e k => e.Guarded declared ∧ ∀ a, (k a).Guarded declared
  | choice e₁ e₂ => e₁.Guarded declared ∧ e₂.Guarded declared
  | many e => e.Consuming declared ∧ e.Guarded declared
  | lazy e => (e ()).Guarded declared
  | rule _ => True

/-- **The references that can be reached before something is taken** are to
  rules of a set. Behind a consuming part there may be others. -/
def FirstIn (declared : ρ → Prop) (R : ρ → Prop) {α : Type} :
    Expression τ α → Prop
  | base _ => True
  | pure _ => True
  | fail => True
  | map _ e => e.FirstIn declared R
  | seq ef ex =>
    ef.FirstIn declared R ∧ (ef.Consuming declared ∨ ex.FirstIn declared R)
  | bind e k =>
    e.FirstIn declared R
      ∧ (e.Consuming declared ∨ ∀ a, (k a).FirstIn declared R)
  | choice e₁ e₂ => e₁.FirstIn declared R ∧ e₂.FirstIn declared R
  | many e => e.FirstIn declared R
  | lazy e => (e ()).FirstIn declared R
  | rule r => R r

/-- **Built from what the library supplies**, and from parsers that read the
  front of a text and whose runs end. -/
abbrev OverEnding (e : Expression τ α) : Prop :=
  e.OverBases fun _ p => Supplied p ∨ (LeavesSuffix p ∧ ∀ s, EndsOn p s)

theorem OverEnding.readsFront {e : Expression τ α} (h : e.OverEnding) :
    e.ReadsFront :=
  OverBases.mono (fun _ _ hp => hp.elim Supplied.leavesSuffix And.left) h

variable {declared : ρ → Prop}

/-- No condition on the rules is no condition on the expression. -/
theorem firstIn_true (e : Expression τ α) :
    e.FirstIn declared fun _ => True := by
  induction e with
  | base => trivial
  | pure => trivial
  | fail => trivial
  | map _ _ ih => exact ih
  | seq _ _ ihf ihx => exact ⟨ihf, .inr ihx⟩
  | bind _ _ ih ihk => exact ⟨ih, .inr ihk⟩
  | choice _ _ ih₁ ih₂ => exact ⟨ih₁, ih₂⟩
  | many _ ih => exact ih
  | lazy _ ih => exact ih ()
  | rule => trivial

/-! ## The derived expressions

They are built from the constructors, so the conditions on them can be
worked out. -/

section Derived

/-- A token takes something if what it stands in front of does. -/
theorem consuming_token {e : Expression τ α} (h : e.Consuming declared) :
    (token e).Consuming declared :=
  .inr fun _ => h

/-- An expression that may be missing takes something if it does where it is
  there. -/
theorem consuming_ofOption {e : Option (Expression τ α)}
    (h : ∀ e' ∈ e, e'.Consuming declared) :
    (ofOption e).Consuming declared := by
  cases e with
  | none => trivial
  | some e => exact h e rfl

/-- One of the delimiters is enough, or the content. -/
theorem consuming_between {opening : Expression τ α} {content : Expression τ β}
    {closing : Expression τ γ}
    (h : opening.Consuming declared ∨ content.Consuming declared
      ∨ closing.Consuming declared) :
    (between opening content closing).Consuming declared :=
  h.imp_right fun h _ => h.imp_right fun h _ => .inl h

/-- One time or more, and a list with separators, take what the first time
  takes. -/
theorem consuming_many1 {e : Expression τ α} (h : e.Consuming declared) :
    (many1 e).Consuming declared :=
  .inl h

theorem consuming_sepBy {e : Expression τ α} (h : e.Consuming declared)
    (separator : Expression τ β) : (sepBy e separator).Consuming declared :=
  .inl h

/-- What is repeated in them is the expression itself, … -/
theorem guarded_many1_iff {e : Expression τ α} :
    (many1 e).Guarded declared ↔ e.Consuming declared ∧ e.Guarded declared :=
  ⟨fun h => h.2, fun h => ⟨h.2, h⟩⟩

/-- … and a separator with an element behind it. -/
theorem guarded_sepBy {e : Expression τ α} {separator : Expression τ β}
    (he : e.Guarded declared) (hs : separator.Guarded declared)
    (h : separator.Consuming declared ∨ e.Consuming declared) :
    (sepBy e separator).Guarded declared :=
  ⟨he, fun _ => ⟨⟨h.imp_right fun h _ => h, hs, fun _ => he⟩, fun _ => trivial⟩⟩

end Derived

/-! ## What the conditions are good for -/

variable {env : Env τ}

/-- **A consuming expression takes something**, if the rules do that are
  declared to. -/
theorem consumes_denote (hsuffix : ∀ r, LeavesSuffix (env r))
    (hdeclared : ∀ r, declared r → Consumes (env r)) {e : Expression τ α}
    (he : e.ReadsFront) (h : e.Consuming declared) :
    Consumes (e.denote env) := by
  induction e with
  | base p => exact h.elim (fun h => Parser.consumes_of_settles h.settles) id
  | pure a => exact h.elim
  | fail => exact .failure
  | map f e ih => exact .map f (ih he h)
  | seq ef ex ihf ihx =>
    obtain h | h := h
    · exact .seq_left (ihf he.1 h) (leavesSuffix_denote hsuffix he.2)
    · exact .seq_right (leavesSuffix_denote hsuffix he.1) (ihx he.2 h)
  | bind e k ih ihk =>
    obtain h | h := h
    · exact .bind_left (ih he.1 h) fun a => leavesSuffix_denote hsuffix (he.2 a)
    · exact .bind_right (leavesSuffix_denote hsuffix he.1) fun a =>
        ihk a (he.2 a) (h a)
  | choice e₁ e₂ ih₁ ih₂ => exact .orElse (ih₁ he.1 h.1) (ih₂ he.2 h.2)
  | many e _ => exact h.elim
  | lazy e ih => exact ih () he h
  | rule r => exact hdeclared r h

/-- **The rules end**: all of them on shorter texts, and those of a set on
  the text. -/
structure RulesEnd (env : Env τ) (s : Text) (R : ρ → Prop) : Prop where
  /-- On less text, every rule ends. -/
  later : ∀ r (t : Text), t.length < s.length → EndsOn (env r) t
  /-- On the text itself, the rules of the set end. -/
  now : ∀ r, R r → EndsOn (env r) s

/-- On a shorter text there is no need for a set. -/
theorem RulesEnd.of_length_lt {s t : Text} {R : ρ → Prop} (h : RulesEnd env s R)
    (ht : t.length < s.length) : RulesEnd env t fun _ => True where
  later r u hu := h.later r u (Nat.lt_trans hu ht)
  now r _ := h.later r t ht

/-- **A guarded expression ends on a text** if the rules end which it can
  reach. -/
theorem endsOn_denote (hsuffix : ∀ r, LeavesSuffix (env r))
    (hdeclared : ∀ r, declared r → Consumes (env r)) {e : Expression τ α}
    (he : e.OverEnding) (hguarded : e.Guarded declared) {s : Text}
    {R : ρ → Prop} (hrules : RulesEnd env s R) (hfirst : e.FirstIn declared R) :
    EndsOn (e.denote env) s := by
  induction e generalizing s R with
  | base p => exact he.elim (fun h => (h.settles s).endsOn) fun h => h.2 s
  | pure a => exact ⟨_, rfl⟩
  | fail => exact ⟨_, rfl⟩
  | map f e ih => exact (ih he hguarded hrules hfirst).map f
  | seq ef ex ihf ihx =>
    have hf := OverEnding.readsFront he.1
    refine .seq (leavesSuffix_denote hsuffix hf)
      (ihf he.1 hguarded.1 hrules hfirst.1)
      (fun t ht =>
        ihx he.2 hguarded.2 (hrules.of_length_lt ht) ex.firstIn_true) ?_
    exact hfirst.2.imp (consumes_denote hsuffix hdeclared hf)
      (ihx he.2 hguarded.2 hrules)
  | bind e k ih ihk =>
    have hfront := OverEnding.readsFront he.1
    refine .bind (leavesSuffix_denote hsuffix hfront)
      (ih he.1 hguarded.1 hrules hfirst.1)
      (fun a t ht => ihk a (he.2 a) (hguarded.2 a) (hrules.of_length_lt ht)
        (k a).firstIn_true) ?_
    exact hfirst.2.imp (consumes_denote hsuffix hdeclared hfront)
      fun h a => ihk a (he.2 a) (hguarded.2 a) hrules (h a)
  | choice e₁ e₂ ih₁ ih₂ =>
    exact .orElse (ih₁ he.1 hguarded.1 hrules hfirst.1)
      (ih₂ he.2 hguarded.2 hrules hfirst.2)
  | many e ih =>
    have hfront := OverEnding.readsFront (e := e) he
    exact .many (consumes_denote hsuffix hdeclared hfront hguarded.1).shrinks
      (ih he hguarded.2 hrules hfirst)
      fun t ht => ih he hguarded.2 (hrules.of_length_lt ht) e.firstIn_true
  | lazy e ih => exact ih () he hguarded hrules hfirst
  | rule r => exact hrules.now r hfirst

end Expression

/-! ## Grammars -/

namespace Grammar

variable {g : Grammar τ} {declared : ρ → Prop} {rank : ρ → Nat}

/-- **The conditions on a grammar**, with the rules that are declared to take
  something and the ranks of the rules. -/
structure Ranked (g : Grammar τ) (declared : ρ → Prop) (rank : ρ → Nat) :
    Prop where
  /-- The bodies are built from parsers whose runs end. -/
  bases : ∀ r, (g.body r).OverEnding
  /-- The bodies confirm what is declared. -/
  consuming : ∀ r, declared r → (g.body r).Consuming declared
  /-- What is repeated in a body is consuming. -/
  guarded : ∀ r, (g.body r).Guarded declared
  /-- What a body can reach before something is taken has a lower rank than
    its rule. -/
  lower : ∀ r, (g.body r).FirstIn declared fun r' => rank r' < rank r

namespace Ranked

theorem readsFront (hg : g.Ranked declared rank) (r : ρ) :
    (g.body r).ReadsFront :=
  Expression.OverEnding.readsFront (hg.bases r)

theorem leavesSuffix_rule (hg : g.Ranked declared rank) (r : ρ) :
    LeavesSuffix (g.parser (.rule r)) :=
  parser_leavesSuffix hg.readsFront (e := .rule r) trivial

/-- Entries up to a depth take something, if the rule is declared to, … -/
theorem consumes_atDepth (hg : g.Ranked declared rank) (n : Nat) {r : ρ}
    (hr : declared r) :
    Consumes (g.atDepth n r) := by
  induction n generalizing r with
  | zero => exact .diverge
  | succ n ih =>
    exact Expression.consumes_denote (leavesSuffix_atDepth hg.readsFront n)
      (fun _ => ih)
      (hg.readsFront r) (hg.consuming r hr)

/-- … and so does the rule. -/
theorem consumes_rule (hg : g.Ranked declared rank) (r : ρ) (hr : declared r) :
    Consumes (g.parser (.rule r)) := by
  rintro s a t ⟨cs, h, hmem⟩
  rw [parser_apply, unroll_eq_atDepth] at h
  exact hg.consumes_atDepth _ hr ⟨cs, h, hmem⟩

/-- **Every rule ends on every text**, by induction on the length of the text,
  and on the rank of the rule where the text stays. -/
theorem endsOn_rule (hg : g.Ranked declared rank) (r : ρ) (s : Text) :
    EndsOn (g.parser (.rule r)) s := by
  induction hn : s.length using Nat.strongRecOn generalizing r s with
  | ind n ihlength =>
    subst hn
    induction hm : rank r using Nat.strongRecOn generalizing r with
    | ind m ihrank =>
      subst hm
      rw [parser_rule hg.readsFront]
      exact Expression.endsOn_denote hg.leavesSuffix_rule hg.consumes_rule
        (hg.bases r) (hg.guarded r)
        ⟨fun r' t ht => ihlength _ ht r' t rfl,
          fun r' hr' => ihrank _ hr' r' rfl⟩
        (hg.lower r)

end Ranked

/-- **The run of every expression ends on every text**, in a grammar whose rules
  have ranks, if what is repeated is consuming. It has an outcome, whose first
  candidate is the answer that ordered choice finds in finitely many steps, and
  every candidate of a consuming expression leaves less text than there was. -/
theorem parser_ends (hg : g.Ranked declared rank) {e : Expression τ α}
    (he : e.OverEnding) (hguarded : e.Guarded declared) (s : Text) :
    ∃ cs, g.parser e s = some cs ∧ g.Reads e s cs.head?
      ∧ (e.Consuming declared → ∀ c ∈ cs, c.2.length < s.length) := by
  have hdenote :=
    parser_eq_denote hg.readsFront (Expression.OverEnding.readsFront he)
  obtain ⟨cs, h⟩ : EndsOn (g.parser e) s := by
    rw [hdenote]
    exact Expression.endsOn_denote hg.leavesSuffix_rule hg.consumes_rule he
      hguarded
      ⟨fun r t _ => hg.endsOn_rule r t, fun r _ => hg.endsOn_rule r s⟩
      e.firstIn_true
  refine ⟨cs, h, reads_of_parser_eq h, fun hconsuming c hc => ?_⟩
  rw [hdenote] at h
  exact Expression.consumes_denote hg.leavesSuffix_rule hg.consumes_rule
    (Expression.OverEnding.readsFront he) hconsuming ⟨cs, h, hc⟩

/-! ### Lists in lists -/

/-- The rules of the grammar of nested lists. -/
inductive ListRule where
  /-- A name or a list. -/
  | entry
  /-- Entries in parentheses. -/
  | list

/-- A grammar of nested lists of names, which counts the names. An entry may be
  a list on the same text, and a list has entries behind its parenthesis. -/
def listed : Grammar fun _ : ListRule => Nat where
  body
    | .entry =>
      (fun _ => 1) <$> .base Lexer.identifier <|> Expression.rule .list
    | .list => List.sum <$> Expression.between (.base (Lexer.symbol ['(']))
        (.many (.rule .entry)) (.base (Lexer.symbol [')']))
  rules := [.entry, .list]
  mem_rules r := by cases r <;> simp

theorem ranked_listed :
    listed.Ranked (fun _ => True)
      (fun r => match r with | .entry => 1 | .list => 0) where
  bases r := match r with
    | .entry => ⟨.inl .identifier, trivial⟩
    | .list => ⟨.inl (.symbol _), fun _ => ⟨trivial, fun _ => ⟨.inl (.symbol _),
        fun _ => trivial⟩⟩⟩
  consuming r _ := match r with
    | .entry => ⟨.inl .identifier, trivial⟩
    | .list => Expression.consuming_between (.inl (.inl (.symbol (by decide))))
  guarded r := match r with
    | .entry => ⟨trivial, trivial⟩
    | .list =>
      ⟨trivial, fun _ =>
        ⟨⟨trivial, trivial⟩, fun _ => ⟨trivial, fun _ => trivial⟩⟩⟩
  lower r := match r with
    | .entry => ⟨trivial, Nat.zero_lt_one⟩
    | .list => ⟨trivial, .inl (.inl (.symbol (by decide)))⟩

/-- One entry or more. -/
def entries : Expression (fun _ : ListRule => Nat) (List Nat) :=
  .many1 (.rule .entry)

/-- A semicolon, and the white space in front of it. -/
def semicolon : Expression (fun _ : ListRule => Nat) Char :=
  .token (.ofOption (some (.base (Lexer.char ';'))))

/-- Rows of entries, with semicolons between them. -/
def rows : Expression (fun _ : ListRule => Nat) (List (List Nat)) :=
  .sepBy entries semicolon

theorem parser_ends_listed :
    (listed.parser entries "(a (b c) ()) d)".toList = some [([3, 1], [')'])]
        ∧ ∀ s, ∃ cs, listed.parser entries s = some cs
            ∧ ∀ c ∈ cs, c.2.length < s.length)
      ∧ listed.parser rows "a (b c) ; d;".toList
          = some [([[1, 2], [1]], [';'])]
      ∧ ∀ s, ∃ cs, listed.parser rows s = some cs
          ∧ ∀ c ∈ cs, c.2.length < s.length := by
  have hentries : entries.OverEnding := ⟨trivial, trivial⟩
  have hguarded : entries.Guarded fun _ => True :=
    Expression.guarded_many1_iff.2 ⟨trivial, trivial⟩
  have hconsuming : entries.Consuming fun _ => True :=
    Expression.consuming_many1 trivial
  refine ⟨⟨by decide +kernel, fun s => ?_⟩, by decide +kernel, fun s => ?_⟩
  · obtain ⟨cs, h, -, hlength⟩ := parser_ends ranked_listed hentries hguarded s
    exact ⟨cs, h, hlength hconsuming⟩
  · -- a row follows a semicolon, so it would not even have to take something
    have hsemicolon : semicolon.Consuming fun _ => True :=
      Expression.consuming_token (Expression.consuming_ofOption
        fun _ h => Option.some.inj h ▸ .inl (.sat _))
    obtain ⟨cs, h, -, hlength⟩ := parser_ends (e := rows) ranked_listed
      ⟨hentries, fun _ => ⟨⟨⟨.inl .space, fun _ => .inl (.sat _)⟩,
        fun _ => hentries⟩, fun _ => trivial⟩⟩
      (Expression.guarded_sepBy hguarded ⟨trivial, fun _ => trivial⟩
        (.inl hsemicolon)) s
    exact ⟨cs, h, hlength (Expression.consuming_sepBy hconsuming _)⟩

end Grammar

end CommittedChoice
