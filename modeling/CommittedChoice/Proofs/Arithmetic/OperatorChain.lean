import CommittedChoice.Proofs.Arithmetic.Progress

/-!
# Arithmetic as a fold over a chain of operators

Outside of parentheses a text is a flat chain: a factor, and then operators,
each with a factor behind it (`Arithmetic.Unrolls`). This module says what a
term and an expression are in terms of the chain alone, with no rule entered a
second time (`Arithmetic.rules_eq_folds`).

A term is a fold from the right over the factors in front of the first operator
that is no asterisk, and an expression is a fold from the right over the terms.
A step of either fold that has no word as its exact result is not made: what was
folded so far is given up, and the fold goes on with the left operand alone.
Such a step leaves its own operator in the text, so a term that was cut short in
this way is not continued by the operators behind it.
-/

namespace CommittedChoice

namespace Arithmetic

/-! ## The chain of a text -/

/-- **A link of a chain**: an operator, and the factor behind it with what is
  left of the text. -/
structure Link where
  /-- The operator. -/
  operator : Operator
  /-- The value of the factor, and the text left after it. -/
  factor : Candidate Word

/-- **A text unrolls into a chain.** As long as an operator comes next and there
  is a factor behind it, these two are a link. -/
inductive Unrolls : Text → List Link → Prop
  /-- No operator comes next, or there is no factor behind it. -/
  | stop {r : Text}
    (h : ∀ o t, skipBlanks r = Operator.sign o :: t → factor t = some []) :
    Unrolls r []
  /-- An operator and a factor come next. -/
  | link {r t : Text} {o : Operator} {c : Candidate Word} {links : List Link}
    (hnext : skipBlanks r = o.sign :: t) (hc : factor t = some [c])
    (hlinks : Unrolls c.2 links) : Unrolls r (⟨o, c⟩ :: links)

/-- **A text unrolls into one chain only**, … -/
theorem Unrolls.unique {r : Text} {links links' : List Link}
    (h : Unrolls r links) (h' : Unrolls r links') : links' = links := by
  induction h generalizing links' with
  | stop hstop =>
    cases h' with
    | stop _ => rfl
    | link hnext hc _ =>
      exact absurd (hc.symm.trans (hstop _ _ hnext)) (by simp)
  | link hnext hc _ ih =>
    cases h' with
    | stop hstop => exact absurd (hc.symm.trans (hstop _ _ hnext)) (by simp)
    | link hnext' hc' hlinks' =>
      obtain ⟨hsign, rfl⟩ := List.cons.inj (hnext.symm.trans hnext')
      obtain rfl := Operator.sign_injective hsign
      obtain rfl := List.singleton_inj.1 (Option.some.inj (hc.symm.trans hc'))
      rw [ih hlinks']

/-- … and always into one, since every factor leaves less text. -/
theorem exists_unrolls (r : Text) : ∃ links, Unrolls r links := by
  induction hn : r.length using Nat.strongRecOn generalizing r with
  | ind n ih =>
    subst hn
    by_cases hnext :
        ∃ o t c, skipBlanks r = Operator.sign o :: t ∧ factor t = some [c]
    · obtain ⟨o, t, c, hskip, hc⟩ := hnext
      have hlt : c.2.length < r.length := by
        have hr := Lexer.length_skipBlanks_le r
        rw [hskip, List.length_cons] at hr
        exact Nat.lt_trans (shrinks_rule .factor hc) hr
      obtain ⟨links, hlinks⟩ := ih _ hlt c.2 rfl
      exact ⟨_, .link hskip hc hlinks⟩
    · refine ⟨[], .stop fun o t hskip => ?_⟩
      obtain hnil | ⟨a, r', ha, -⟩ := settles_rule .factor t
      · exact hnil
      · exact absurd ⟨o, t, (a, r'), hskip, ha⟩ hnext

/-! ## The two folds -/

/-- **A run of factors** with asterisks between them. -/
structure Run where
  /-- The first factor. -/
  first : Candidate Word
  /-- The factors behind the asterisks. -/
  others : List (Candidate Word)

namespace Run

/-- What is left of the text behind the whole run. -/
def rest (run : Run) : Text := (run.others.getLastD run.first).2

/-- The product of the factors, from the right. -/
def product (c : Candidate Word) : List (Candidate Word) → Candidate Word
  | [] => c
  | d :: ds => Operator.times.step c (product d ds)

/-- **The term of a run.** -/
def fold (run : Run) : Candidate Word := product run.first run.others

end Run

/-- **The runs of a chain**: the first one, and the others, each with the
  operator in front of it. -/
def runs (c : Candidate Word) : List Link → Run × List (Operator × Run)
  | [] => (⟨c, []⟩, [])
  | ⟨o, d⟩ :: links =>
    let (run, later) := runs d links
    if o = .times then (⟨c, run.first :: run.others⟩, later)
      else (⟨c, []⟩, (o, run) :: later)

/-- **The expression of the runs.** A run that was cut short is the last one
  that counts. -/
def foldRuns (run : Run) : List (Operator × Run) → Candidate Word
  | [] => run.fold
  | (o, run') :: later =>
    if run.fold.2 = run.rest then o.step run.fold (foldRuns run' later)
      else run.fold

/-- The first run ends in front of the first operator that is no asterisk. -/
theorem runs_fst (c : Candidate Word) (links : List Link) :
    (runs c links).1
      = ⟨c, (links.takeWhile fun link => link.operator = .times).map
          Link.factor⟩ := by
  induction links generalizing c with
  | nil => rfl
  | cons link links ih =>
    unfold runs
    by_cases ho : link.operator = .times
    · rw [List.takeWhile_cons_of_pos (by simp [ho]), List.map_cons]
      simp only [ih, ho, if_true]
    · rw [List.takeWhile_cons_of_neg (by simp [ho])]
      simp only [ho, if_false]
      rfl

theorem runs_cons_times (c d : Candidate Word) (links : List Link) :
    runs c (⟨.times, d⟩ :: links)
      = (⟨c, (runs d links).1.first :: (runs d links).1.others⟩,
          (runs d links).2) := rfl

theorem runs_cons_of_ne {o : Operator} (ho : o ≠ .times) (c d : Candidate Word)
    (links : List Link) :
    runs c (⟨o, d⟩ :: links)
      = (⟨c, []⟩, (o, (runs d links).1) :: (runs d links).2) :=
  if_neg ho

theorem Run.fold_cons (c : Candidate Word) (run : Run) :
    Run.fold ⟨c, run.first :: run.others⟩
      = Operator.times.step c run.fold := rfl

theorem Run.rest_cons (c : Candidate Word) (run : Run) :
    Run.rest ⟨c, run.first :: run.others⟩ = run.rest := by
  unfold Run.rest
  rw [List.getLastD_cons]

/-! ## What the rules do on a chain -/

/-- **What comes behind a run that was not cut short**: the next operator with
  the expression behind it, if there is one. -/
def continued (c : Candidate Word) : List (Operator × Run) → Candidate Word
  | [] => c
  | (o, run) :: later => o.step c (foldRuns run later)

theorem foldRuns_of_eq {run : Run} (h : run.fold.2 = run.rest)
    (later : List (Operator × Run)) :
    foldRuns run later = continued run.fold later := by
  cases later with
  | nil => rfl
  | cons _ _ => exact if_pos h

theorem foldRuns_of_ne {run : Run} (h : run.fold.2 ≠ run.rest)
    (later : List (Operator × Run)) : foldRuns run later = run.fold := by
  cases later with
  | nil => rfl
  | cons _ _ => exact if_neg h

/-- **A chain is folded** behind a first factor: the rules do on the text what
  the folds do on its runs. -/
structure Folded (c : Candidate Word) (run : Run)
    (later : List (Operator × Run)) : Prop where
  /-- The factor is continued to the term of the run. -/
  term : afterFactor c.1 c.2 = some [run.fold]
  /-- A run that was cut short stops at an asterisk. -/
  cut : run.fold.2 = run.rest ∨ ∃ t, skipBlanks run.fold.2 = '*' :: t
  /-- Every value is continued behind the whole run as the other runs say. -/
  expr (b : Word) : afterTerm b run.rest = some [continued (b, run.rest) later]

variable {r t : Text} {c d : Candidate Word} {links : List Link} {run : Run}
  {later : List (Operator × Run)}

theorem term_of_factor_nil (h : factor t = some []) :
    Arithmetic.term t = some [] := by
  rw [term_apply, h, Outcome.commit_nil]

theorem expr_of_factor_nil (h : factor t = some []) :
    Arithmetic.expr t = some [] := by
  rw [expr_apply, term_of_factor_nil h, Outcome.commit_nil]

/-- Behind a text's first factor, a folded chain makes a term … -/
theorem Folded.term_eq (h : Folded c run later) (hc : factor t = some [c]) :
    Arithmetic.term t = some [run.fold] := by
  rw [term_apply, hc, Outcome.commit_cons, h.term]

/-- … and an expression. -/
theorem Folded.expr_eq (h : Folded c run later) (hc : factor t = some [c]) :
    Arithmetic.expr t = some [foldRuns run later] := by
  rw [expr_apply, h.term_eq hc, Outcome.commit_cons]
  by_cases hrest : run.fold.2 = run.rest
  · rw [foldRuns_of_eq hrest, hrest, h.expr, ← hrest]
  · obtain ⟨t, ht⟩ := h.cut.resolve_left hrest
    rw [foldRuns_of_ne hrest]
    exact afterTerm_eq_pure (fun t' ht' => absurd (ht.symm.trans ht') (by simp))
      fun t' ht' => absurd (ht.symm.trans ht') (by simp)

/-- At the end of a chain the first factor stays alone. -/
theorem Folded.stop
    (h : ∀ o t, skipBlanks c.2 = Operator.sign o :: t → factor t = some []) :
    Folded c ⟨c, []⟩ [] where
  term := afterFactor_eq_pure fun t ht => term_of_factor_nil (h .times t ht)
  cut := .inl rfl
  expr _ := afterTerm_eq_pure (fun t ht => expr_of_factor_nil (h .plus t ht))
    fun t ht => expr_of_factor_nil (h .minus t ht)

/-- An asterisk makes the first run longer. -/
theorem Folded.times (hnext : skipBlanks c.2 = '*' :: t)
    (hd : factor t = some [d]) (h : Folded d run later) :
    Folded c ⟨c, run.first :: run.others⟩ later where
  term := by
    rw [afterFactor_of_times hnext (h.term_eq hd), Run.fold_cons]
  cut := by
    rw [Run.fold_cons, Run.rest_cons]
    obtain hsnd | hleft := Operator.times.step_snd c run.fold
    · rw [hsnd]
      exact h.cut
    · rw [hleft]
      exact .inr ⟨t, hnext⟩
  expr b := by
    rw [Run.rest_cons]
    exact h.expr b

/-- Any other sign starts a new run. -/
theorem Folded.sign {o : Operator} (ho : o ≠ .times)
    (hnext : skipBlanks c.2 = o.sign :: t) (hd : factor t = some [d])
    (h : Folded d run later) :
    Folded c ⟨c, []⟩ ((o, run) :: later) where
  term := by
    refine afterFactor_eq_pure fun t' ht' => ?_
    obtain ⟨hsign, -⟩ := List.cons.inj (hnext.symm.trans ht')
    exact absurd
      (Operator.sign_injective (show o.sign = Operator.times.sign from hsign))
      ho
  cut := .inl rfl
  expr _ := afterTerm_of_sign ho hnext (h.expr_eq hd)

/-- **Every chain is folded.** -/
theorem Unrolls.folded (h : Unrolls c.2 links) :
    Folded c (runs c links).1 (runs c links).2 := by
  induction links generalizing c with
  | nil =>
    cases h with
    | stop hstop => exact .stop hstop
  | cons link links ih =>
    cases h with
    | @link _ t o d _ hnext hd hlinks =>
      by_cases ho : o = .times
      · subst ho
        rw [runs_cons_times]
        exact .times hnext hd (ih hlinks)
      · rw [runs_cons_of_ne ho]
        exact .sign ho hnext hd (ih hlinks)

/-- **Terms and expressions are folds.** On every text, either there is no
  factor, and neither a term nor an expression, or there is a single one, and
  what is left behind it unrolls into exactly one chain. Then the term is the
  fold of the first run of factors, and the expression is the fold of all
  the runs. -/
theorem rules_eq_folds (s : Text) :
    (factor s = some [] ∧ term s = some [] ∧ expr s = some [])
      ∨ ∃ c links, factor s = some [c] ∧ Unrolls c.2 links
          ∧ (∀ links', Unrolls c.2 links' → links' = links)
          ∧ term s = some [Run.fold
              ⟨c, (links.takeWhile fun link => link.operator = .times).map
                Link.factor⟩]
          ∧ expr s = some [foldRuns (runs c links).1 (runs c links).2] := by
  obtain hnil | ⟨a, r, hc, -⟩ := settles_rule .factor s
  · exact .inl ⟨hnil, term_of_factor_nil hnil, expr_of_factor_nil hnil⟩
  · obtain ⟨links, hlinks⟩ := exists_unrolls r
    have hfolded : Folded (a, r) _ _ := Unrolls.folded hlinks
    refine .inr ⟨(a, r), links, hc, hlinks, fun links' => hlinks.unique, ?_,
      hfolded.expr_eq hc⟩
    rw [← runs_fst]
    exact hfolded.term_eq hc

/-- A product that is no word is not taken, and what stands in front of it is
  the value. -/
example : expr "1 + 2 * 9223372036854775807 - 3".toList
    = some [(3, " * 9223372036854775807 - 3".toList)] := by decide +kernel

end Arithmetic

end CommittedChoice
