import CommittedChoice.Grammar.Remainder
import CommittedChoice.Parser.Approximation

/-!
# How deep the rules of a grammar nest

The parser of a grammar nests its rules only so deep. That this is deep enough
is the first result of this module: if the expression has an outcome at *any*
depth, the parser has that outcome (`Grammar.parser_eq_some_iff`). The base
parsers are assumed to read the front of a text, as all of the library do.

The reason is that the outcomes at growing depths grow, and grow on finitely
many pairs: those of a rule and a suffix of the text. Two neighbouring depths
that agree on all of the pairs agree with every greater depth. So each depth up
to this point has a pair more than the one before, and there are no more depths
below it than pairs.

From this follows the equation by which a grammar is understood: its rules stand
for parsers, and an expression means what it means given those parsers
(`Grammar.parser_eq_denote`).
-/

namespace CommittedChoice

open CommittedChoice.Parser (LeavesSuffix Keeps LeOn)
open Expression (Env)

variable {ρ : Type} {τ : ρ → Type} {α : Type}

/-! ## Greater depths -/

/-- **An expression respects approximation of the rules**, on a set of texts
  that its parts do not leave. -/
theorem Expression.leOn_denote {S : Text → Prop} {env env' : Env τ}
    {P : (α : Type) → Parser α → Prop}
    (hkeep : ∀ {α : Type} (e : Expression τ α), e.OverBases P →
      Keeps S (e.denote env))
    (henv : ∀ r, LeOn S (env r) (env' r)) {e : Expression τ α}
    (he : e.OverBases P) :
    LeOn S (e.denote env) (e.denote env') := by
  induction e with
  | base p => exact .refl p
  | pure a => exact .refl _
  | fail => exact .refl _
  | map f e ih => exact .map f (ih he)
  | seq ef ex ihf ihx => exact .seq (hkeep ef he.1) (ihf he.1) (ihx he.2)
  | bind e k ih ihk =>
    exact .bind (hkeep e he.1) (ih he.1) fun a => ihk a (he.2 a)
  | choice e₁ e₂ ih₁ ih₂ => exact .orElse (ih₁ he.1) (ih₂ he.2)
  | many e ih => exact .many (hkeep e he) (ih he)
  | lazy e ih => exact ih () he
  | rule r => exact henv r

namespace Grammar

variable {g : Grammar τ}

/-- A greater depth changes no outcome. -/
theorem leOn_atDepth_add (S : Text → Prop) (m n : Nat) (r : ρ) :
    LeOn S (g.atDepth m r) (g.atDepth (m + n) r) := by
  suffices h : LeOn (fun _ => True) (g.atDepth m r) (g.atDepth (m + n) r) from
    fun _ _ _ he => h trivial he
  induction m generalizing r with
  | zero => exact .diverge _
  | succ m ih =>
    rw [Nat.add_right_comm]
    exact Expression.leOn_denote (P := fun _ _ => True)
      (fun _ _ _ _ _ _ _ _ => trivial) ih
      (Expression.overBases_of_forall (fun _ _ => trivial) _)

theorem leOn_atDepth (S : Text → Prop) {m n : Nat} (h : m ≤ n) (r : ρ) :
    LeOn S (g.atDepth m r) (g.atDepth n r) := by
  obtain ⟨k, rfl⟩ := Nat.exists_eq_add_of_le h
  exact leOn_atDepth_add S m k r

/-! ## Pairs that have an outcome -/

/-- The pairs of a rule and a suffix of a text on which the rules have an
  outcome at a depth. -/
private def ended (g : Grammar τ) (s : Text) (n : Nat) : List (ρ × Text) :=
  (g.rules.flatMap fun r =>
      (List.range (s.length + 1)).map fun k => (r, s.drop k)).filter
    fun c => (g.atDepth n c.1 c.2).isSome

private theorem mem_ended {s : Text} {n : Nat} {r : ρ} {t : Text} :
    (r, t) ∈ ended g s n ↔ t <:+ s ∧ ∃ cs, g.atDepth n r t = some cs := by
  simp only [ended, List.mem_filter, List.mem_flatMap, List.mem_map,
    List.mem_range, Prod.mk.injEq, Option.isSome_iff_exists]
  refine and_congr_left fun _ => ⟨?_, fun h => ?_⟩
  · rintro ⟨_, -, k, -, -, rfl⟩
    exact List.drop_suffix k s
  · exact ⟨r, g.mem_rules r, s.length - t.length, by omega, rfl,
      (List.suffix_iff_eq_drop.1 h).symm⟩

/-- There are no more of them than pairs, … -/
private theorem length_ended_le (s : Text) (n : Nat) :
    (ended g s n).length ≤ g.rules.length * (s.length + 1) := by
  refine Nat.le_trans (List.length_filter_le _ _) (Nat.le_of_eq ?_)
  simp only [List.length_flatMap, List.length_map, List.length_range,
    List.map_const', List.sum_replicate_nat]

/-- … and a greater depth loses none. -/
private theorem ended_sublist (s : Text) (n : Nat) :
    (ended g s n).Sublist (ended g s (n + 1)) := by
  have : ended g s n = (ended g s (n + 1)).filter fun c =>
      (g.atDepth n c.1 c.2).isSome := by
    rw [ended, ended, List.filter_filter]
    refine List.filter_congr fun c _ => ?_
    cases h : g.atDepth n c.1 c.2 with
    | none => rfl
    | some cs =>
      -- the outcome is still there one entry deeper
      have := leOn_atDepth_add (g := g) (fun _ => True) n 1 c.1 trivial h
      simp [this]
  rw [this]
  exact List.filter_sublist

/-- **Some depth that is no greater than the number of pairs is stable**: the
  next one agrees with it. -/
private theorem exists_stable (s : Text) :
    ∃ n ≤ g.rules.length * (s.length + 1),
      ∀ r, LeOn (· <:+ s) (g.atDepth (n + 1) r) (g.atDepth n r) := by
  -- the lists of pairs grow, so with fewer pairs than depths two of them
  -- are equal
  have repeated : ∀ n, (ended g s n).length < n →
      ∃ m < n, ended g s m = ended g s (m + 1) := by
    intro n
    induction n with
    | zero => intro h; omega
    | succ n ih =>
      intro h
      by_cases hn : (ended g s n).length < n
      · obtain ⟨m, hm, he⟩ := ih hn
        exact ⟨m, by omega, he⟩
      · have hle := (ended_sublist (g := g) s n).length_le
        exact ⟨n, by omega, (ended_sublist s n).eq_of_length (by omega)⟩
  obtain ⟨n, hn, he⟩ := repeated (g.rules.length * (s.length + 1) + 1)
    (Nat.lt_succ_of_le (length_ended_le s _))
  refine ⟨n, by omega, fun r t ht cs h => ?_⟩
  -- a pair that has an outcome at the next depth has had it before
  have hmem : (r, t) ∈ ended g s n := he ▸ mem_ended.2 ⟨ht, cs, h⟩
  obtain ⟨-, cs', h'⟩ := mem_ended.1 hmem
  have := leOn_atDepth_add (g := g) (fun _ => True) n 1 r trivial h'
  rw [h', ← this, h]

/-! ## Enough depth -/

variable (hg : ∀ r, (g.body r).ReadsFront)
include hg

/-- At a depth whose outcomes on the suffixes of a text are those of the next
  depth, they are those of every depth. -/
theorem leOn_atDepth_of_stable {s : Text} {n : Nat}
    (h : ∀ r, LeOn (· <:+ s) (g.atDepth (n + 1) r) (g.atDepth n r))
    (m : Nat) (r : ρ) :
    LeOn (· <:+ s) (g.atDepth m r) (g.atDepth n r) := by
  induction m generalizing r with
  | zero => exact .diverge _
  | succ m ih =>
    refine LeOn.trans ?_ (h r)
    exact Expression.leOn_denote (P := fun _ => LeavesSuffix)
      (fun e he =>
        (Expression.leavesSuffix_denote (leavesSuffix_atDepth hg m) he).keeps s)
      ih (hg r)

/-- **The unrolled rules are deep enough** for every suffix of the text. -/
theorem leOn_unroll (s : Text) (m : Nat) (r : ρ) :
    LeOn (· <:+ s) (g.atDepth m r) (g.unroll s r) := by
  obtain ⟨n, hn, h⟩ := exists_stable (g := g) s
  have : g.unroll s r = g.atDepth (g.rules.length * (s.length + 1)) r :=
    congrFun (unroll_eq_atDepth g s) r
  rw [this]
  exact (leOn_atDepth_of_stable hg h m r).trans (leOn_atDepth _ hn r)

/-! ## The parser of a grammar -/

/-- **The parser of a grammar has every outcome that some depth has**, and no
  others. -/
theorem parser_eq_some_iff {e : Expression τ α} (he : e.ReadsFront) {s : Text}
    {cs : List (Candidate α)} :
    g.parser e s = some cs ↔ ∃ n, e.denote (g.atDepth n) s = some cs := by
  constructor
  · intro h
    refine ⟨g.rules.length * (s.length + 1), ?_⟩
    rwa [parser_apply, unroll_eq_atDepth] at h
  · rintro ⟨n, h⟩
    exact Expression.leOn_denote (P := fun _ => LeavesSuffix) (S := (· <:+ s))
      (fun e he =>
        (Expression.leavesSuffix_denote (leavesSuffix_atDepth hg n) he).keeps s)
      (leOn_unroll hg s n) he (List.suffix_refl s) h

/-- On a suffix of the text, the unrolled rules are the parsers of the rules. -/
theorem unroll_apply_of_suffix {s t : Text} (ht : t <:+ s) (r : ρ) :
    g.unroll s r t = g.parser (.rule r) t := by
  refine Option.ext fun cs => ⟨fun h => ?_, fun h => ?_⟩
  · rw [unroll_eq_atDepth] at h
    exact (parser_eq_some_iff hg (e := .rule r) trivial).2 ⟨_, h⟩
  · obtain ⟨n, h⟩ := (parser_eq_some_iff hg (e := .rule r) trivial).1 h
    exact leOn_unroll hg s n r ht h

/-- **The meaning of an expression given the parsers of the rules** is its
  parser. With the body of a rule for the expression, this is the equation of
  the rule (`Grammar.parser_rule`). -/
theorem parser_eq_denote {e : Expression τ α} (he : e.ReadsFront) :
    g.parser e = e.denote fun r => g.parser (.rule r) := by
  funext s
  have hs : s <:+ s := List.suffix_refl s
  have hunroll : ∀ r, LeavesSuffix (g.unroll s r) := by
    rw [unroll_eq_atDepth]
    exact leavesSuffix_atDepth hg _
  have hrule : ∀ r, LeavesSuffix (g.parser (.rule r)) := fun r =>
    parser_leavesSuffix hg (e := .rule r) trivial
  have heq : ∀ r t, t <:+ s → g.unroll s r t = g.parser (.rule r) t :=
    fun r t ht => unroll_apply_of_suffix hg ht r
  rw [parser_apply]
  refine LeOn.antisymm (S := (· <:+ s)) ?_ ?_ hs
  · exact Expression.leOn_denote (P := fun _ => LeavesSuffix)
      (fun e he => (Expression.leavesSuffix_denote hunroll he).keeps s)
      (fun r t ht cs h => heq r t ht ▸ h) he
  · exact Expression.leOn_denote (P := fun _ => LeavesSuffix)
      (fun e he => (Expression.leavesSuffix_denote hrule he).keeps s)
      (fun r t ht cs h => (heq r t ht).symm ▸ h) he

/-- **The equation of a rule**: it is its body, given the parsers of the
  rules. -/
theorem parser_rule (r : ρ) :
    g.parser (.rule r) = (g.body r).denote fun r => g.parser (.rule r) := by
  rw [← parser_eq_denote hg (hg r)]
  funext s
  refine Option.ext fun cs => ?_
  rw [parser_eq_some_iff hg (e := .rule r) trivial,
    parser_eq_some_iff hg (hg r)]
  constructor
  · rintro ⟨n, h⟩
    exact ⟨n, leOn_atDepth_add (fun _ => True) n 1 r trivial h⟩
  · rintro ⟨n, h⟩
    exact ⟨n + 1, h⟩

end Grammar

end CommittedChoice
