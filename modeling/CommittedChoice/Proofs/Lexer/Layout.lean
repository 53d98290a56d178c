import CommittedChoice.Arithmetic
import CommittedChoice.Proofs.Lexer.Span

/-!
# Layout in front of a text

White space in front of a text is layout: it makes no difference to a token, and
to a parser that begins with one (`Lexer.LayoutFree`). Such a parser is its own
token, and no other parser is (`Lexer.layoutFree_iff`).

Where the parser begins is all that matters. A sequence is free of layout if its
first part is, whatever comes behind it, and a choice if both sides are, since
each of them gets the text as it was, layout included. So lists of numbers and
the rules of arithmetic need no induction: their own references to other rules
all stand behind a token, or at the beginning of a rule, where the other rule
begins with a token itself (`Lexer.tokens_skip_layout`).

Behind a token nothing is skipped. What a token leaves is what the parser behind
the white space leaves.
-/

namespace CommittedChoice

/-! ## The text behind its layout -/

/-- The text behind the white space does not begin with white space. -/
theorem isBlank_head?_skipBlanks (s : Text) :
    ∀ c ∈ (skipBlanks s).head?, isBlank c = false :=
  Parser.head_dropWhile isBlank s

/-- **All of the white space in front is skipped, and nothing else.** -/
theorem skipBlanks_eq_iff {s t : Text} :
    skipBlanks s = t
      ↔ ∃ w, s = w ++ t ∧ (∀ c ∈ w, isBlank c = true)
          ∧ ∀ c ∈ t.head?, isBlank c = false := by
  constructor
  · rintro rfl
    obtain ⟨w, hw, hs⟩ := exists_blanks_append_skipBlanks s
    exact ⟨w, hs, hw, isBlank_head?_skipBlanks s⟩
  · rintro ⟨w, rfl, hw, ht⟩
    exact Parser.dropWhile_append_of_head hw ht

namespace Lexer

open CommittedChoice.Parser

variable {α β γ : Type} {p q : Parser α}

/-- **Freedom from layout**: white space in front of a text makes no
  difference. -/
def LayoutFree (p : Parser α) : Prop :=
  ∀ w : Text, (∀ c ∈ w, isBlank c = true) → ∀ s, p (w ++ s) = p s

/-- A token is free of layout, … -/
theorem layoutFree_token (p : Parser α) : LayoutFree (token p) := by
  intro w hw s
  rw [token_apply, token_apply, skipBlanks_append hw]

/-- … and what is free of layout is its own token. -/
theorem layoutFree_iff : LayoutFree p ↔ token p = p := by
  constructor
  · intro hp
    ext1 s
    obtain ⟨w, hw, hs⟩ := exists_blanks_append_skipBlanks s
    calc token p s = p (skipBlanks s) := token_apply p s
      _ = p (w ++ skipBlanks s) := (hp w hw _).symm
      _ = p s := by rw [← hs]
  · intro h
    rw [← h]
    exact layoutFree_token p

/-- A sequence begins with its first part. -/
theorem LayoutFree.bind (hp : LayoutFree p) (k : α → Parser β) :
    LayoutFree (p >>= k) := by
  intro w hw s
  rw [bind_apply, bind_apply, hp w hw]

/-- Both sides of a choice begin on the same text. -/
theorem LayoutFree.orElse (hp : LayoutFree p) (hq : LayoutFree q) :
    LayoutFree (p <|> q) := by
  intro w hw s
  rw [orElse_apply, orElse_apply, hp w hw, hq w hw]

theorem LayoutFree.between (hp : LayoutFree p) (content : Parser β)
    (closing : Parser γ) :
    LayoutFree (between p content closing) :=
  hp.bind _

/-! ## Tokens and rules -/

theorem layoutFree_nats : LayoutFree nats :=
  (layoutFree_token (literal ['['])).between _ _

theorem layoutFree_factor : LayoutFree Arithmetic.factor := by
  rw [Arithmetic.factor_eq]
  exact ((layoutFree_token (literal ['('])).between _ _).orElse
    (layoutFree_token nat)

/-- A term begins with a factor, … -/
theorem layoutFree_term : LayoutFree Arithmetic.term := by
  rw [Arithmetic.term_eq]
  exact layoutFree_factor.bind _

/-- … and an expression with a term. -/
theorem layoutFree_expr : LayoutFree Arithmetic.expr := by
  rw [Arithmetic.expr_eq]
  exact layoutFree_term.bind _

/-- **A symbol that begins with white space never matches**, as the white space
  that it looks for has been skipped. All others match somewhere. -/
theorem symbol_fails_iff {l : Text} :
    (∀ s, symbol l s = some []) ↔ ∃ c ∈ l.head?, isBlank c = true := by
  constructor
  · intro h
    -- otherwise the symbol matches itself
    have hself : skipBlanks l ≠ l := by
      intro hl
      have hmatch : symbol l l = some [(l, [])] := by
        calc symbol l l = literal l (skipBlanks l) := token_apply (literal l) l
          _ = literal l (l ++ []) := by rw [hl, List.append_nil]
          _ = some [(l, [])] := literal_append l []
      exact absurd ((h l).symm.trans hmatch) (by simp)
    match l with
    | [] => exact absurd rfl hself
    | c :: l =>
      cases hc : isBlank c with
      | true => exact ⟨c, rfl, hc⟩
      | false => exact absurd (skipBlanks_cons hc l) hself
  · rintro ⟨c, hc, hblank⟩ s
    unfold symbol
    rw [token_apply]
    refine literal_of_not_isPrefix fun ⟨t, ht⟩ => ?_
    have hhead : c ∈ (skipBlanks s).head? := by
      obtain ⟨l, rfl⟩ := List.head?_eq_some_iff.1 hc
      rw [← ht]
      rfl
    simp [isBlank_head?_skipBlanks s c hhead] at hblank

/-- **Tokens skip the layout in front of them**, and nothing else. Every text is
  some white space, maybe none, and a text that does not begin with white space,
  in one way only. On every text, a token has all of the candidates that its
  parser has behind the white space. So white space in front of a text makes no
  difference to tokens, symbols, numbers, identifiers, lists of numbers and the
  rules of arithmetic; a token of a token is the token; and a symbol never
  matches exactly if it begins with white space. The next line character counts
  as white space, and the byte order mark does not. -/
theorem tokens_skip_layout :
    (∀ s t : Text, skipBlanks s = t
        ↔ ∃ w, s = w ++ t ∧ (∀ c ∈ w, isBlank c = true)
            ∧ ∀ c ∈ t.head?, isBlank c = false)
      ∧ (∀ {α : Type} (p : Parser α), (∀ s, token p s = p (skipBlanks s))
          ∧ LayoutFree (token p) ∧ token (token p) = token p
          ∧ ∀ s, token p ('\u0085' :: s) = token p s
              ∧ token p ('\uFEFF' :: s) = p ('\uFEFF' :: s))
      ∧ (∀ l, LayoutFree (symbol l)
          ∧ ((∀ s, symbol l s = some []) ↔ ∃ c ∈ l.head?, isBlank c = true))
      ∧ (LayoutFree natural ∧ LayoutFree integer ∧ LayoutFree identifier
          ∧ LayoutFree nats)
      ∧ LayoutFree Arithmetic.factor ∧ LayoutFree Arithmetic.term
      ∧ LayoutFree Arithmetic.expr := by
  refine ⟨fun s t => skipBlanks_eq_iff,
    fun p => ⟨token_apply p, layoutFree_token p,
      layoutFree_iff.1 (layoutFree_token p), fun s => ⟨?_, ?_⟩⟩,
    fun l => ⟨layoutFree_token (literal l), symbol_fails_iff⟩,
    ⟨layoutFree_token nat, layoutFree_token int, layoutFree_token ident,
      layoutFree_nats⟩,
    layoutFree_factor, layoutFree_term, layoutFree_expr⟩
  · exact layoutFree_token p ['\u0085']
      (List.forall_mem_singleton.2 (by decide)) s
  · rw [token_apply, skipBlanks_cons (by decide)]

/-- Two lines and a wide space in front of a sum. -/
theorem tokens_skip_layout_sum :
    (∀ c ∈ "\n\u0085\u3000".toList, isBlank c = true)
      ∧ Arithmetic.expr ("\n\u0085\u3000".toList ++ "1 + 2 ".toList)
          = some [(3, [' '])] := by
  have hblank : ∀ c ∈ "\n\u0085\u3000".toList, isBlank c = true :=
    List.all_eq_true.1 (by decide +kernel)
  have h : Arithmetic.expr "1 + 2 ".toList = some [(3, [' '])] := by
    decide +kernel
  obtain ⟨-, -, -, -, -, -, hexpr⟩ := tokens_skip_layout
  exact ⟨hblank, (hexpr _ hblank _).trans h⟩

end Lexer

end CommittedChoice
