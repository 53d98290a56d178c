import CommittedChoice.Proofs.Lexer.Span

/-!
# What a parser offers

A parser *offers* a value and the rest of a text if they are one of its
candidates, in whatever place. To show that all candidates of a composed parser
have a property, one asks where a candidate comes from: a sequence offers what
its last part offers behind a candidate of the first part, a choice offers what
one of its sides offers. The theorems of this module answer this question,
operation by operation.
-/

namespace CommittedChoice

namespace Parser

variable {α β : Type} {s t r : Text}

/-- **A candidate of a parser** on a text. -/
def Offers (p : Parser α) (s : Text) (a : α) (r : Text) : Prop :=
  ∃ cs, p s = some cs ∧ (a, r) ∈ cs

/-- A parser that fails offers nothing, … -/
theorem not_offers_of_nil {p : Parser α} {a : α} (hp : p s = some []) :
    ¬ Offers p s a t := by
  rintro ⟨cs, hs, hmem⟩
  obtain rfl : [] = cs := Option.some.inj (hp.symm.trans hs)
  simp at hmem

/-- … and one with a single candidate offers that. -/
theorem eq_of_offers {p : Parser α} {a b : α} (hp : p s = some [(b, r)])
    (h : Offers p s a t) : a = b ∧ t = r := by
  obtain ⟨cs, hs, hmem⟩ := h
  obtain rfl : [(b, r)] = cs := Option.some.inj (hp.symm.trans hs)
  exact Prod.mk.inj (List.mem_singleton.1 hmem)

theorem offers_pure {a b : α} (h : Offers (Pure.pure a) s b t) :
    b = a ∧ t = s :=
  eq_of_offers rfl h

theorem not_offers_diverge {a : α} : ¬ Offers diverge s a t := by
  rintro ⟨cs, hs, -⟩
  simp at hs

theorem not_offers_failure {a : α} : ¬ Offers failure s a t :=
  not_offers_of_nil rfl

/-- A function of the value leaves the text as it was left. -/
theorem offers_map {f : α → β} {p : Parser α} {b : β}
    (h : Offers (f <$> p) s b t) :
    ∃ a, Offers p s a t := by
  obtain ⟨cs, hs, hmem⟩ := h
  obtain ⟨cs', hs', rfl⟩ := Option.map_eq_some_iff.1 hs
  obtain ⟨⟨a, r⟩, ha, hb⟩ := List.mem_map.1 hmem
  obtain ⟨-, rfl⟩ := Prod.mk.inj hb
  exact ⟨a, cs', hs', ha⟩

/-- A sequence goes on behind a candidate of its first part. -/
theorem offers_bind {p : Parser α} {k : α → Parser β} {b : β}
    (h : Offers (p >>= k) s b t) :
    ∃ a r, Offers p s a r ∧ Offers (k a) r b t := by
  obtain ⟨cs, hs, hmem⟩ := h
  obtain ⟨-, rfl⟩ | ⟨a, r, others, hp, hs⟩ := Outcome.commit_eq_some_iff.1 hs
  · simp at hmem
  · exact ⟨a, r, ⟨_, hp, List.mem_cons_self⟩, cs, hs, hmem⟩

theorem offers_orElse {p q : Parser α} {a : α} (h : Offers (p <|> q) s a t) :
    Offers p s a t ∨ Offers q s a t := by
  obtain ⟨cs, hs, hmem⟩ := h
  obtain ⟨-, hs⟩ | ⟨hs, -⟩ := Outcome.orElse_eq_some_iff.1 hs
  · exact .inr ⟨cs, hs, hmem⟩
  · exact .inl ⟨cs, hs, hmem⟩

/-- A value that may be missing is offered if it is there. -/
theorem offers_ofOption_pure {o : Option α} {a : α}
    (h : Offers (ofOption (o.map Pure.pure)) s a t) : o = some a ∧ t = s := by
  cases o with
  | none => exact absurd h not_offers_failure
  | some b =>
    obtain ⟨rfl, rfl⟩ := offers_pure h
    exact ⟨rfl, rfl⟩

/-- The content of delimiters lies between what they take. -/
theorem offers_between {γ : Type} {opening : Parser α} {content : Parser β}
    {closing : Parser γ} {b : β}
    (h : Offers (between opening content closing) s b t) :
    ∃ a r r' c, Offers opening s a r ∧ Offers content r b r'
      ∧ Offers closing r' c t := by
  obtain ⟨a, r, ho, h⟩ := offers_bind h
  obtain ⟨b', r', hb, h⟩ := offers_bind h
  obtain ⟨c, t', hc, h⟩ := offers_bind h
  obtain ⟨rfl, rfl⟩ := offers_pure h
  exact ⟨a, r, r', c, ho, hb, hc⟩

end Parser

namespace Lexer

open CommittedChoice.Parser

variable {s t : Text}

/-- A symbol of one character comes behind white space. -/
theorem offers_symbol {c : Char} {l : Text} (h : Offers (symbol [c]) s l t) :
    skipBlanks s = c :: t := by
  by_cases hc : (skipBlanks s).head? = some c
  · obtain ⟨t', hskip⟩ := List.head?_eq_some_iff.1 hc
    obtain ⟨-, rfl⟩ := eq_of_offers (symbol_of_skipBlanks hskip) h
    exact hskip
  · exact absurd h (not_offers_of_nil (symbol_of_head?_ne hc))

/-- A number is a run of digits behind white space, and its value is a word. -/
theorem offers_natural {w : Word} (h : Offers natural s w t) :
    ∃ ds, ds ≠ [] ∧ (∀ c ∈ ds, c.isDigit = true) ∧ skipBlanks s = ds ++ t
      ∧ w.toInt = Decimal.value ds := by
  have hs := (token_apply nat s).trans (digits_apply _ _)
  split at hs
  · exact absurd h (not_offers_of_nil hs)
  · next hds =>
    split at hs
    · exact absurd h (not_offers_of_nil hs)
    · next w' hw =>
      obtain ⟨rfl, rfl⟩ := eq_of_offers hs h
      exact ⟨_, hds, List.all_eq_true.1 List.all_takeWhile,
        List.takeWhile_append_dropWhile.symm, Word.ofInt?_eq_some_iff.1 hw⟩

end Lexer

end CommittedChoice
