import CommittedChoice.Proofs.Arithmetic.Operation
import CommittedChoice.Proofs.Arithmetic.Phrase

/-!
# The language of arithmetic texts

A text has a value exactly if it is the text of a phrase that fits, and the
value is the exact one (`Arithmetic.evaluate_eq_ok_iff`).

That a value has such a phrase behind it is shown for entries of a bounded
depth, by induction on the depth, where every candidate of every rule is looked
at. The converse is an induction on the phrase: in front of a text that may
follow, each rule takes the text of its phrase and no more. There a choice that
falls through does so because its operator does not come next, and never because
of a value out of range, since the phrase fits.
-/

namespace CommittedChoice

namespace Arithmetic

open CommittedChoice.Parser (Offers)

/-- What is skipped is white space, as part of a phrase. -/
theorem exists_blanks_of_skipBlanks {s t : Text} (h : skipBlanks s = t) :
    ∃ w : Blanks, s = w.text ++ t := by
  obtain ⟨w, hw, hs⟩ := exists_blanks_append_skipBlanks s
  exact ⟨⟨w, hw⟩, by rw [← h, ← hs]⟩

/-! ## From candidates to phrases -/

/-- **A candidate stands for a phrase**, which is what it took of the text. -/
def Stands (r : Rule) (s : Text) (v : Word) (t : Text) : Prop :=
  ∃ e : Phrase r, e.Fits ∧ e.value = v.toInt ∧ s = e.text ++ t

variable {s t : Text} {v : Word}

/-- What an operator takes is the operator, behind white space, and a phrase. -/
theorem stands_of_offers_operation {sign : Char}
    {op : Word → Word → Option Word} {a : Word} {right : Parser Word} {r : Rule}
    (hright : ∀ {s b t}, Offers right s b t → Stands r s b t)
    (h : Offers (operation sign op a right) s v t) :
    ∃ (w : Blanks) (e : Phrase r) (b : Word), s
      = w.text ++ sign :: (e.text ++ t)
      ∧ e.Fits ∧ e.value = b.toInt ∧ op a b = some v := by
  obtain ⟨t', b, hskip, hb, hv⟩ := offers_operation h
  obtain ⟨w, rfl⟩ := exists_blanks_of_skipBlanks hskip
  obtain ⟨e, hfit, hval, rfl⟩ := hright hb
  exact ⟨w, e, b, rfl, hfit, hval, hv⟩

section Bodies

variable {env : Expression.Env fun _ : Rule => Word}

/-- The body of an expression offers phrases, if the rules do, … -/
theorem stands_of_offers_expr
    (henv : ∀ {r s v t}, Offers (env r) s v t → Stands r s v t)
    (h : Offers ((grammar.body .expr).denote env) s v t) :
    Stands .expr s v t := by
  rw [denote_expr] at h
  obtain ⟨a, s', ha, hafter⟩ := Parser.offers_bind h
  obtain ⟨e, hfit, hval, rfl⟩ := henv ha
  obtain hplus | hafter := Parser.offers_orElse hafter
  · obtain ⟨w, e', b, rfl, hfit', hval', hv⟩ :=
      stands_of_offers_operation henv hplus
    rw [Word.add?_eq_some_iff, ← hval, ← hval'] at hv
    exact ⟨.sum e w e', ⟨hfit, hfit', Word.inRange_iff.2 ⟨v, hv⟩⟩, hv.symm,
      by simp [Phrase.text]⟩
  obtain hminus | hpure := Parser.offers_orElse hafter
  · obtain ⟨w, e', b, rfl, hfit', hval', hv⟩ :=
      stands_of_offers_operation henv hminus
    rw [Word.sub?_eq_some_iff, ← hval, ← hval'] at hv
    exact ⟨.difference e w e',
      ⟨hfit, hfit', Word.inRange_iff.2 ⟨v, hv⟩⟩, hv.symm, by simp [Phrase.text]⟩
  · obtain ⟨rfl, rfl⟩ := Parser.offers_pure hpure
    exact ⟨.term e, hfit, hval, rfl⟩

/-- … and so do that of a term … -/
theorem stands_of_offers_term
    (henv : ∀ {r s v t}, Offers (env r) s v t → Stands r s v t)
    (h : Offers ((grammar.body .term).denote env) s v t) :
    Stands .term s v t := by
  rw [denote_term] at h
  obtain ⟨a, s', ha, hafter⟩ := Parser.offers_bind h
  obtain ⟨e, hfit, hval, rfl⟩ := henv ha
  obtain htimes | hpure := Parser.offers_orElse hafter
  · obtain ⟨w, e', b, rfl, hfit', hval', hv⟩ :=
      stands_of_offers_operation henv htimes
    rw [Word.mul?_eq_some_iff, ← hval, ← hval'] at hv
    exact ⟨.product e w e', ⟨hfit, hfit', Word.inRange_iff.2 ⟨v, hv⟩⟩, hv.symm,
      by simp [Phrase.text]⟩
  · obtain ⟨rfl, rfl⟩ := Parser.offers_pure hpure
    exact ⟨.factor e, hfit, hval, rfl⟩

/-- … and that of a factor. -/
theorem stands_of_offers_factor
    (henv : ∀ {r s v t}, Offers (env r) s v t → Stands r s v t)
    (h : Offers ((grammar.body .factor).denote env) s v t) :
    Stands .factor s v t := by
  rw [denote_factor] at h
  obtain hparen | hnumber := Parser.offers_orElse h
  · obtain ⟨_, s₁, s₂, _, hopen, ha, hclose⟩ := Parser.offers_between hparen
    obtain ⟨w, rfl⟩ := exists_blanks_of_skipBlanks (Lexer.offers_symbol hopen)
    obtain ⟨e, hfit, hval, rfl⟩ := henv ha
    obtain ⟨w', rfl⟩ := exists_blanks_of_skipBlanks (Lexer.offers_symbol hclose)
    exact ⟨.parentheses w e w', hfit, hval, by simp [Phrase.text]⟩
  · obtain ⟨ds, hne, hdigit, hskip, hv⟩ := Lexer.offers_natural hnumber
    obtain ⟨w, rfl⟩ := exists_blanks_of_skipBlanks hskip
    exact ⟨.number w ⟨ds, hne, hdigit⟩, Word.inRange_iff.2 ⟨v, hv⟩, hv.symm,
      by simp [Phrase.text]⟩

end Bodies

/-- Entries of a bounded depth offer nothing but phrases. -/
theorem stands_of_atDepth {n : Nat} {r : Rule}
    (h : Offers (grammar.atDepth n r) s v t) :
    Stands r s v t := by
  induction n generalizing r s v t with
  | zero => exact absurd h Parser.not_offers_diverge
  | succ n ih =>
    rw [Grammar.atDepth_succ] at h
    cases r with
    | expr => exact stands_of_offers_expr ih h
    | term => exact stands_of_offers_term ih h
    | factor => exact stands_of_offers_factor ih h

/-- **Every candidate of a rule stands for a phrase that fits.** -/
theorem stands_of_offers {r : Rule} (h : Offers r.parser s v t) :
    Stands r s v t := by
  obtain ⟨cs, hs, hmem⟩ := h
  obtain ⟨n, hn⟩ :=
    (Grammar.parser_eq_some_iff readsFront_body (e := Body.rule r) trivial).1 hs
  exact stands_of_atDepth ⟨cs, hn, hmem⟩

/-! ## From phrases to candidates -/

/-- A number in range is read as its value. -/
theorem natural_number (w : Blanks) (d : Numeral)
    (ht : ∀ c ∈ t.head?, c.isDigit = false)
    (hv : v.toInt = Decimal.value d.text) :
    Lexer.natural (w.text ++ (d.text ++ t)) = some [(v, t)] := by
  obtain ⟨htake, hdrop⟩ := d.takeWhile_append ht
  unfold Lexer.natural Lexer.nat
  rw [Lexer.token_apply, d.skipBlanks_append, Lexer.digits_apply, htake, hdrop,
    if_neg d.ne_nil, Word.ofInt?_eq_some_iff.2 hv]

/-- An operation in range makes its step. -/
theorem Operator.exists_step (o : Operator) {x y : Word} {m n : Int}
    (hx : x.toInt = m) (hy : y.toInt = n) (h : Word.InRange (o.exact m n)) :
    ∃ v : Word, v.toInt = o.exact m n ∧ ∀ s t, o.step (x, s) (y, t)
      = (v, t) := by
  obtain ⟨v, hv⟩ := Word.inRange_iff.1 h
  have hop : o.compute? x y = some v :=
    compute?_eq_some_iff.2 (by rw [hv, hx, hy])
  exact ⟨v, hv, fun s t => @step_of_some o (x, s) (y, t) v hop⟩

/-- **A phrase is taken** in front of a text, by its rule and with its value. -/
def Phrase.Taken {r : Rule} (e : Phrase r) (t : Text) : Prop :=
  ∃ v : Word, v.toInt = e.value ∧ r.parser (e.text ++ t) = some [(v, t)]

/-- A term is taken as an expression, … -/
theorem taken_term {a : Phrase .term} (h : a.Taken t) (ht : Rule.Ends .expr t) :
    (Phrase.term a).Taken t := by
  obtain ⟨v, hv, ha⟩ := h
  refine ⟨v, hv, ?_⟩
  show expr (a.text ++ t) = _
  rw [expr_apply, show term (a.text ++ t) = _ from ha]
  refine afterTerm_eq_pure (fun t' h' => ?_) fun t' h' => ?_
  · exact absurd (ht.operator '+' (by rw [h']; rfl)) (by decide)
  · exact absurd (ht.operator '-' (by rw [h']; rfl)) (by decide)

/-- … a sum if it is in range, … -/
theorem taken_sum {a : Phrase .term} {w : Blanks} {b : Phrase .expr}
    (ha : a.Taken (w.text ++ '+' :: (b.text ++ t))) (hb : b.Taken t)
    (hfit : Word.InRange (a.value + b.value)) : (Phrase.sum a w b).Taken t := by
  obtain ⟨x, hx, ha⟩ := ha
  obtain ⟨y, hy, hb⟩ := hb
  obtain ⟨v, hv, hstep⟩ := Operator.plus.exists_step hx hy hfit
  have hskip := w.skipBlanks_append_cons (c := '+') (by decide) (b.text ++ t)
  refine ⟨v, hv, ?_⟩
  show expr _ = _
  rw [Phrase.text, List.append_assoc, List.append_assoc, List.cons_append,
    expr_apply, show term _ = _ from ha, Outcome.commit_cons,
    afterTerm_of_sign (o := .plus) (by decide) hskip hb, hstep]

/-- … and a difference likewise. -/
theorem taken_difference {a : Phrase .term} {w : Blanks} {b : Phrase .expr}
    (ha : a.Taken (w.text ++ '-' :: (b.text ++ t))) (hb : b.Taken t)
    (hfit : Word.InRange (a.value - b.value)) :
    (Phrase.difference a w b).Taken t := by
  obtain ⟨x, hx, ha⟩ := ha
  obtain ⟨y, hy, hb⟩ := hb
  obtain ⟨v, hv, hstep⟩ := Operator.minus.exists_step hx hy hfit
  have hskip := w.skipBlanks_append_cons (c := '-') (by decide) (b.text ++ t)
  refine ⟨v, hv, ?_⟩
  show expr _ = _
  rw [Phrase.text, List.append_assoc, List.append_assoc, List.cons_append,
    expr_apply, show term _ = _ from ha, Outcome.commit_cons,
    afterTerm_of_sign (o := .minus) (by decide) hskip hb, hstep]

/-- A factor is taken as a term, … -/
theorem taken_factor {a : Phrase .factor} (h : a.Taken t)
    (ht : Rule.Ends .term t) :
    (Phrase.factor a).Taken t := by
  obtain ⟨v, hv, ha⟩ := h
  refine ⟨v, hv, ?_⟩
  show term (a.text ++ t) = _
  rw [term_apply, show factor (a.text ++ t) = _ from ha]
  refine afterFactor_eq_pure fun t' h' => ?_
  exact absurd (ht.operator '*' (by rw [h']; rfl)) (by decide)

/-- … and a product if it is in range. -/
theorem taken_product {a : Phrase .factor} {w : Blanks} {b : Phrase .term}
    (ha : a.Taken (w.text ++ '*' :: (b.text ++ t))) (hb : b.Taken t)
    (hfit : Word.InRange (a.value * b.value)) :
    (Phrase.product a w b).Taken t := by
  obtain ⟨x, hx, ha⟩ := ha
  obtain ⟨y, hy, hb⟩ := hb
  obtain ⟨v, hv, hstep⟩ := Operator.times.exists_step hx hy hfit
  have hskip := w.skipBlanks_append_cons (c := '*') (by decide) (b.text ++ t)
  refine ⟨v, hv, ?_⟩
  show term _ = _
  rw [Phrase.text, List.append_assoc, List.append_assoc, List.cons_append,
    term_apply, show factor _ = _ from ha, Outcome.commit_cons,
    afterFactor_of_times hskip hb, hstep]

/-- Parentheses are taken with what is in them, … -/
theorem taken_parentheses {w w' : Blanks} {a : Phrase .expr}
    (ha : a.Taken (w'.text ++ ')' :: t)) :
    (Phrase.parentheses w a w').Taken t := by
  obtain ⟨v, hv, ha⟩ := ha
  have hopen := w.skipBlanks_append_cons (c := '(') (by decide)
    (a.text ++ (w'.text ++ ')' :: t))
  have hclose := w'.skipBlanks_append_cons (c := ')') (by decide) t
  refine ⟨v, hv, ?_⟩
  show factor _ = _
  rw [Phrase.text, List.append_assoc, List.cons_append, List.append_assoc,
    List.append_assoc]
  exact factor_of_parentheses hopen ha hclose

/-- … and a number if it is in range and all of its digits are there. -/
theorem taken_number {w : Blanks} {d : Numeral}
    (hfit : Word.InRange (Decimal.value d.text))
    (ht : ∀ c ∈ t.head?, c.isDigit = false) : (Phrase.number w d).Taken t := by
  obtain ⟨v, hv⟩ := Word.inRange_iff.1 hfit
  obtain ⟨c, l, hd, hdigit, -⟩ := d.exists_eq_cons
  have hskip := d.skipBlanks_append w t
  refine ⟨v, hv, ?_⟩
  show factor _ = _
  rw [Phrase.text, List.append_assoc, factor_of_head?_ne,
    natural_number w d ht hv]
  rw [hskip, hd]
  rintro ⟨⟩
  exact absurd hdigit (by decide)

/-- **A rule takes its phrases**, in front of every text that may follow. -/
theorem Phrase.taken {r : Rule} (e : Phrase r) (he : e.Fits) (ht : r.Ends t) :
    e.Taken t := by
  induction e generalizing t with
  | term a ih => exact taken_term (ih he ht.term) ht
  | sum a w b iha ihb =>
    exact taken_sum (iha he.1 (Rule.ends_plus w _)) (ihb he.2.1 ht) he.2.2
  | difference a w b iha ihb =>
    exact taken_difference (iha he.1 (Rule.ends_minus w _))
      (ihb he.2.1 ht) he.2.2
  | factor a ih => exact taken_factor (ih he ht.factor) ht
  | product a w b iha ihb =>
    exact taken_product (iha he.1 (Rule.ends_times w _)) (ihb he.2.1 ht) he.2.2
  | parentheses w a w' ih =>
    exact taken_parentheses (ih he (Rule.ends_close w' t))
  | number w d => exact taken_number he ht.digit

/-- **The language of arithmetic and the values of its texts.** A text has a
  value exactly if it is, as a whole, the text of a phrase in which every value
  is in range, and the value is that of the phrase. A phrase with a value out of
  range anywhere has a text without a value. -/
theorem evaluate_eq_ok_iff (s : Text) (v : Word) :
    (evaluate s = some (.ok v)
        ↔ ∃ e : Phrase .expr, e.text = s ∧ e.Fits ∧ e.value = v.toInt)
      ∧ ∀ e : Phrase .expr, e.text = s → ¬ e.Fits →
          evaluate s ≠ some (.ok v) := by
  have hsound : evaluate s = some (.ok v) →
      ∃ e : Phrase .expr, e.text = s ∧ e.Fits ∧ e.value = v.toInt := by
    intro h
    obtain ⟨others, hs⟩ := Parser.complete_eq_ok_iff.1 h
    obtain ⟨e, hfit, hval, hs⟩ :=
      stands_of_offers (r := .expr) ⟨_, hs, List.mem_cons_self⟩
    exact ⟨e, by rw [hs, List.append_nil], hfit, hval⟩
  refine ⟨⟨hsound, ?_⟩, fun e he hfit h => ?_⟩
  · rintro ⟨e, rfl, hfit, hval⟩
    obtain ⟨v', hv', hs⟩ := e.taken hfit (Rule.ends_nil .expr)
    obtain rfl : v' = v := Int64.toInt_inj.1 (hv'.trans hval)
    rw [List.append_nil] at hs
    exact Parser.complete_eq_ok_iff.2 ⟨[], hs⟩
  · obtain ⟨e', he', hfit', -⟩ := hsound h
    obtain rfl : e = e' := Phrase.text_injective (he.trans he'.symm)
    exact hfit hfit'

end Arithmetic

end CommittedChoice
