import CommittedChoice.Complete
import CommittedChoice.Grammar.Depth
import CommittedChoice.Proofs.OrderedChoice

/-!
# Only the first candidate counts

The combinators keep and drop candidates in different places. Mapping and choice
keep all of them, a sequence keeps those of its last part, a repetition keeps
one. None of this matters for the first candidate of the whole: it is the answer
of the reading by ordered choice, in which every part has one answer at most
(`Grammar.parser_eq_some_reads`). Where the base parsers read the front of a
text, the run ends exactly if that reading does (`Grammar.reads_iff_parser_eq`).

So what a part offers after its first candidate has no influence on the first
candidate of anything around it, nor on what reading the whole text says. To
state this, `Expression.SameFirst` relates two expressions of the same shape in
which some parts were replaced by others with the same first candidates, at any
depth and in the bodies of the rules too.

All of this is said of expressions, and so of the derived ones as well: they are
read as ordered choice has it (`Grammar.readsDerived`), and their parsers are
those of the same name.
-/

namespace CommittedChoice

variable {ρ : Type} {τ : ρ → Type} {α β γ : Type}

/-- **What an answer says about a whole text.** -/
def verdict : Answer α → Except ParseError α
  | none => .error .noMatch
  | some (a, []) => .ok a
  | some (_, c :: r) => .error (.unusedInput (c :: r))

/-- Reading a whole text looks at the first candidate only. -/
theorem Parser.complete_eq_verdict {p : Parser α} {s : Text}
    {cs : List (Candidate α)} (h : p s = some cs) :
    p.complete s = some (verdict cs.head?) := by
  unfold complete
  rw [h]
  match cs with
  | [] => rfl
  | (a, []) :: _ => rfl
  | (_, c :: r) :: _ => rfl

/-! ## The first candidate is the answer -/

/-- Along a chain of successes, a repetition has an answer if its parts have. -/
theorem Grammar.reads_of_chain {g : Grammar τ} {e : Expression τ α}
    {p : Parser α}
    (hp : ∀ {s : Text} {cs : List (Candidate α)},
      p s = some cs → g.Reads e s cs.head?)
    {s t : Text} {as : List α} (hc : Parser.Chain p s as t) :
    g.Reads (.many e) s (some (as, t)) := by
  induction hc with
  | nil h => exact .many_none (hp h)
  | cons h _ ih => exact .many_some (hp h) ih

/-- **The first candidate of an expression is its answer**, if those of the
  rules are theirs. -/
theorem Expression.reads_of_denote {g : Grammar τ} {env : Env τ}
    (henv : ∀ {r : ρ} {s : Text} {cs : List (Candidate (τ r))},
      env r s = some cs → g.Reads (.rule r) s cs.head?)
    {e : Expression τ α} {s : Text} {cs : List (Candidate α)}
    (h : e.denote env s = some cs) :
    g.Reads e s cs.head? := by
  induction e generalizing s with
  | base p => exact .base h
  | pure a =>
    obtain rfl : [(a, s)] = cs := Option.some.inj h
    exact .pure
  | fail =>
    obtain rfl : [] = cs := Option.some.inj h
    exact .fail
  | map f e ih =>
    obtain ⟨cs', he, rfl⟩ := Option.map_eq_some_iff.1 h
    rw [List.head?_map]
    exact .map (ih he)
  | seq ef ex ihf ihx =>
    obtain ⟨hf, rfl⟩ | ⟨f, r, others, hf, hx⟩ := Outcome.commit_eq_some_iff.1 h
    · exact .seq_none (ihf hf)
    · obtain ⟨cs', he, rfl⟩ := Option.map_eq_some_iff.1 hx
      rw [List.head?_map]
      exact .seq_some (ihf hf) (ihx he)
  | bind e k ih ihk =>
    obtain ⟨he, rfl⟩ | ⟨a, r, others, he, ha⟩ := Outcome.commit_eq_some_iff.1 h
    · exact .bind_none (ih he)
    · exact .bind_some (ih he) (ihk a ha)
  | choice e₁ e₂ ih₁ ih₂ =>
    match h₁ : e₁.denote env s with
    | none => simp [denote, h₁] at h
    | some [] =>
      exact .choice_none (ih₁ h₁) (ih₂ (by simpa [denote, h₁] using h))
    | some (c :: cs') =>
      obtain rfl : c :: cs' = cs := by simpa [denote, h₁] using h
      exact .choice_some (ih₁ h₁)
  | many e ih =>
    -- the loop is its chain, so its budget plays no part
    obtain ⟨as, t, hc, -, rfl⟩ := Parser.many_eq_some_iff.1 h
    exact Grammar.reads_of_chain ih hc
  | lazy e ih => exact .lazy (ih () h)
  | rule r => exact henv h

namespace Grammar

variable {g : Grammar τ}

/-- The rules at a depth, by induction on the depth. -/
theorem reads_of_atDepth {n : Nat} {r : ρ} {s : Text}
    {cs : List (Candidate (τ r))} (h : g.atDepth n r s = some cs) :
    g.Reads (.rule r) s cs.head? := by
  induction n generalizing r s with
  | zero => simp at h
  | succ n ih => exact .rule (Expression.reads_of_denote ih h)

theorem reads_of_parser_eq {e : Expression τ α} {s : Text}
    {cs : List (Candidate α)} (h : g.parser e s = some cs) :
    g.Reads e s cs.head? := by
  rw [parser_apply, unroll_eq_atDepth] at h
  exact Expression.reads_of_denote reads_of_atDepth h

end Grammar

/-! ## An answer is a first candidate -/

/-- A repetition goes on behind a success. If the success left the text as it
  was, the repetition would have no end. -/
theorem Parser.many_of_cons {p : Parser α} (hp : LeavesSuffix p)
    {s r t : Text} {a : α} {others : List (Candidate α)} {as : List α}
    (h : p s = some ((a, r) :: others)) (hmany : many p r = some [(as, t)]) :
    many p s = some [(a :: as, t)] := by
  obtain ⟨as', t', hc, hlen, heq⟩ := many_eq_some_iff.1 hmany
  obtain ⟨rfl, rfl⟩ := Prod.mk.inj (List.singleton_inj.1 heq)
  have hsuffix : r <:+ s := hp h (a, r) List.mem_cons_self
  by_cases hr : r.length = s.length
  · obtain rfl := hsuffix.eq_of_length hr
    have has : as = a :: as := (hc.unique (.cons h hc)).1
    exact absurd has (List.cons_ne_self a as).symm
  · have hle := hsuffix.length_le
    exact many_eq_some_iff.2
      ⟨a :: as, t, .cons h hc, by rw [List.length_cons]; omega, rfl⟩

namespace Grammar

/-- **A reading that ends is that of a run that ends**, by induction on its
  derivation. -/
theorem exists_denote_eq_of_reads {g : Grammar τ}
    (hg : ∀ r, (g.body r).ReadsFront) {e : Expression τ α} {s : Text}
    {o : Answer α} (h : g.Reads e s o) (he : e.ReadsFront) :
    ∃ cs, e.denote (fun r => g.parser (.rule r)) s = some cs
      ∧ cs.head? = o := by
  have hfront {β : Type} {e : Expression τ β} (he : e.ReadsFront) :
      Parser.LeavesSuffix (e.denote fun r => g.parser (.rule r)) :=
    Expression.leavesSuffix_denote
      (fun r => parser_leavesSuffix hg (e := .rule r) trivial) he
  induction h with
  | base h => exact ⟨_, h, rfl⟩
  | pure => exact ⟨_, rfl, rfl⟩
  | fail => exact ⟨_, rfl, rfl⟩
  | map _ ih =>
    obtain ⟨cs, hcs, rfl⟩ := ih he
    refine ⟨cs.map _, by rw [Expression.denote, Parser.map_apply, hcs]; rfl, ?_⟩
    rw [List.head?_map]
  | seq_none _ ihf =>
    obtain ⟨cs, hcs, hnone⟩ := ihf he.1
    rw [List.head?_eq_none_iff.1 hnone] at hcs
    exact ⟨[], by rw [Expression.denote, Parser.seq_apply, hcs]; rfl, rfl⟩
  | seq_some _ _ ihf ihx =>
    obtain ⟨cs, hcs, hsome⟩ := ihf he.1
    obtain ⟨others, rfl⟩ := List.head?_eq_some_iff.1 hsome
    obtain ⟨cs', hcs', rfl⟩ := ihx he.2
    refine ⟨cs'.map _, ?_, List.head?_map⟩
    rw [Expression.denote, Parser.seq_apply, hcs, Outcome.commit_cons,
      Parser.map_apply, hcs']
    rfl
  | bind_none _ ih =>
    obtain ⟨cs, hcs, hnone⟩ := ih he.1
    rw [List.head?_eq_none_iff.1 hnone] at hcs
    exact ⟨[], by rw [Expression.denote, Parser.bind_apply, hcs]; rfl, rfl⟩
  | @bind_some _ _ _ _ _ _ a _ _ _ ih ihk =>
    obtain ⟨cs, hcs, hsome⟩ := ih he.1
    obtain ⟨others, rfl⟩ := List.head?_eq_some_iff.1 hsome
    obtain ⟨cs', hcs', ho⟩ := ihk (he.2 a)
    exact ⟨cs', by rw [Expression.denote, Parser.bind_apply, hcs,
      Outcome.commit_cons, hcs'], ho⟩
  | choice_some _ ih =>
    obtain ⟨cs, hcs, hsome⟩ := ih he.1
    obtain ⟨others, rfl⟩ := List.head?_eq_some_iff.1 hsome
    exact ⟨_, by rw [Expression.denote, Parser.orElse_apply, hcs,
      Outcome.orElse_cons], rfl⟩
  | choice_none _ _ ih₁ ih₂ =>
    obtain ⟨cs, hcs, hnone⟩ := ih₁ he.1
    rw [List.head?_eq_none_iff.1 hnone] at hcs
    obtain ⟨cs', hcs', ho⟩ := ih₂ he.2
    exact ⟨cs', by rw [Expression.denote, Parser.orElse_apply, hcs,
      Outcome.orElse_nil, hcs'], ho⟩
  | many_none _ ih =>
    obtain ⟨cs, hcs, hnone⟩ := ih he
    rw [List.head?_eq_none_iff.1 hnone] at hcs
    exact ⟨_, Parser.many_eq_some_iff.2
      ⟨[], _, .nil hcs, Nat.zero_le _, rfl⟩, rfl⟩
  | @many_some _ e _ _ _ _ _ _ _ ih ihrest =>
    obtain ⟨cs, hcs, hsome⟩ := ih he
    obtain ⟨others, rfl⟩ := List.head?_eq_some_iff.1 hsome
    obtain ⟨cs', hcs', hhead⟩ := ihrest he
    -- a repetition has one candidate, so the head is all of it
    obtain ⟨as, t, -, -, rfl⟩ := Parser.many_eq_some_iff.1 hcs'
    obtain ⟨rfl, rfl⟩ := Prod.mk.inj (Option.some.inj hhead)
    exact ⟨_, Parser.many_of_cons (hfront (e := e) he) hcs hcs', rfl⟩
  | lazy _ ih => exact ih he
  | @rule r _ _ _ ih =>
    obtain ⟨cs, hcs, ho⟩ := ih (hg r)
    refine ⟨cs, ?_, ho⟩
    show g.parser (.rule r) _ = _
    rw [parser_rule hg, hcs]

/-- **A run ends exactly if the reading does**, with the answer as its first
  candidate, where the base parsers read the front of a text. -/
theorem reads_iff_parser_eq {g : Grammar τ} (hg : ∀ r, (g.body r).ReadsFront)
    {e : Expression τ α} (he : e.ReadsFront) {s : Text} {o : Answer α} :
    g.Reads e s o ↔ ∃ cs, g.parser e s = some cs ∧ cs.head? = o := by
  constructor
  · intro h
    rw [parser_eq_denote hg he]
    exact exists_denote_eq_of_reads hg h he
  · rintro ⟨cs, h, rfl⟩
    exact reads_of_parser_eq h

end Grammar

/-! ## Later candidates have no influence -/

namespace Parser

/-- The first candidate of a parser, alone. -/
def firstOnly (p : Parser α) : Parser α :=
  fun s => Option.map (List.take 1) (p s)

/-- **The same first candidate** on every text, or the same failure, or neither
  run ends. -/
def SameFirst (p q : Parser α) : Prop :=
  ∀ s, Option.map List.head? (p s) = Option.map List.head? (q s)

namespace SameFirst

variable {p q : Parser α}

theorem refl (p : Parser α) : SameFirst p p := fun _ => rfl

theorem firstOnly (p : Parser α) : SameFirst p p.firstOnly := by
  intro s
  unfold Parser.firstOnly
  match p s with
  | none => rfl
  | some [] => rfl
  | some (c :: cs) => rfl

/-- The three cases for a text. -/
theorem cases (h : SameFirst p q) (s : Text) :
    (p s = none ∧ q s = none) ∨ (p s = some [] ∧ q s = some [])
      ∨ ∃ c cs cs', p s = some (c :: cs) ∧ q s = some (c :: cs') := by
  have hs := h s
  match hp : p s, hq : q s with
  | none, none => exact .inl ⟨rfl, rfl⟩
  | none, some cs' => simp [hp, hq] at hs
  | some cs, none => simp [hp, hq] at hs
  | some [], some [] => exact .inr (.inl ⟨rfl, rfl⟩)
  | some [], some (c' :: cs') => simp [hp, hq] at hs
  | some (c :: cs), some [] => simp [hp, hq] at hs
  | some (c :: cs), some (c' :: cs') =>
    obtain rfl : c = c' := by simpa [hp, hq] using hs
    exact .inr (.inr ⟨c, cs, cs', rfl, rfl⟩)

theorem map (f : α → β) (h : SameFirst p q) :
    SameFirst (f <$> p) (f <$> q) := by
  intro s
  obtain ⟨hp, hq⟩ | ⟨hp, hq⟩ | ⟨c, cs, cs', hp, hq⟩ := h.cases s
  · rw [map_apply, map_apply, hp, hq]
  · rw [map_apply, map_apply, hp, hq]
  · rw [map_apply, map_apply, hp, hq]; rfl

theorem bind {k l : α → Parser β} (h : SameFirst p q)
    (hk : ∀ a, SameFirst (k a) (l a)) :
    SameFirst (p >>= k) (q >>= l) := by
  intro s
  obtain ⟨hp, hq⟩ | ⟨hp, hq⟩ | ⟨⟨a, r⟩, cs, cs', hp, hq⟩ := h.cases s
  · rw [bind_apply, bind_apply, hp, hq]; rfl
  · rw [bind_apply, bind_apply, hp, hq]; rfl
  · rw [bind_apply, bind_apply, hp, hq]
    exact hk a r

theorem seq {pf qf : Parser (α → β)} (hf : SameFirst pf qf)
    (hx : SameFirst p q) :
    SameFirst (pf <*> p) (qf <*> q) :=
  bind hf fun f => map f hx

theorem orElse {p' q' : Parser α} (h : SameFirst p q) (h' : SameFirst p' q') :
    SameFirst (p <|> p') (q <|> q') := by
  intro s
  obtain ⟨hp, hq⟩ | ⟨hp, hq⟩ | ⟨c, cs, cs', hp, hq⟩ := h.cases s
  · rw [orElse_apply, orElse_apply, hp, hq]; rfl
  · rw [orElse_apply, orElse_apply, hp, hq]
    exact h' s
  · rw [orElse_apply, orElse_apply, hp, hq]; rfl

/-- A loop never looks at a later candidate, so the loops are the same. -/
theorem manyLoop_eq (h : SameFirst p q) (budget : Text) (found : List α)
    (s : Text) :
    manyLoop p budget found s = manyLoop q budget found s := by
  induction budget generalizing found s with
  | nil =>
    obtain ⟨hp, hq⟩ | ⟨hp, hq⟩ | ⟨c, cs, cs', hp, hq⟩ := h.cases s <;>
      simp only [manyLoop, hp, hq]
  | cons _ budget ih =>
    obtain ⟨hp, hq⟩ | ⟨hp, hq⟩ | ⟨⟨a, r⟩, cs, cs', hp, hq⟩ := h.cases s
    · simp only [manyLoop, hp, hq]
    · simp only [manyLoop, hp, hq]
    · simp only [manyLoop, hp, hq]
      exact ih (a :: found) r

theorem many (h : SameFirst p q) : SameFirst (many p) (many q) := by
  intro s
  unfold Parser.many
  rw [h.manyLoop_eq]

/-- Whole texts are read with the same result. -/
theorem complete_eq (h : SameFirst p q) (s : Text) :
    p.complete s = q.complete s := by
  obtain ⟨hp, hq⟩ | ⟨hp, hq⟩ | ⟨c, cs, cs', hp, hq⟩ := h.cases s
  · unfold complete
    rw [hp, hq]
  · rw [complete_eq_verdict hp, complete_eq_verdict hq]
  · rw [complete_eq_verdict hp, complete_eq_verdict hq]; rfl

end SameFirst

end Parser

/-- **Expressions that differ in later candidates only.** Any part of an
  expression may be replaced by one with the same first candidates, whatever
  parsers the rules have, and this may be done in many places at once. -/
inductive Expression.SameFirst :
    {α : Type} → Expression τ α → Expression τ α → Prop where
  /-- The part that is replaced. -/
  | part {α : Type} {e e' : Expression τ α}
    (h : ∀ env, Parser.SameFirst (e.denote env) (e'.denote env)) :
    SameFirst e e'
  /-- In what a function is mapped over. -/
  | map {α β : Type} (f : α → β) {e e' : Expression τ α} (h : SameFirst e e') :
    SameFirst (.map f e) (.map f e')
  /-- In a function and its argument. -/
  | seq {α β : Type} {ef ef' : Expression τ (α → β)} {ex ex' : Expression τ α}
    (hf : SameFirst ef ef') (hx : SameFirst ex ex') :
    SameFirst (.seq ef ex) (.seq ef' ex')
  /-- In a sequence, for every value. -/
  | bind {α β : Type} {e e' : Expression τ α} {k k' : α → Expression τ β}
    (h : SameFirst e e') (hk : ∀ a, SameFirst (k a) (k' a)) :
    SameFirst (.bind e k) (.bind e' k')
  /-- In the sides of a choice. -/
  | choice {α : Type} {e₁ e₁' e₂ e₂' : Expression τ α} (h₁ : SameFirst e₁ e₁')
    (h₂ : SameFirst e₂ e₂') : SameFirst (.choice e₁ e₂) (.choice e₁' e₂')
  /-- In what is repeated. -/
  | many {α : Type} {e e' : Expression τ α} (h : SameFirst e e') :
    SameFirst (.many e) (.many e')
  /-- In what is built later. -/
  | lazy {α : Type} {e e' : Unit → Expression τ α}
    (h : SameFirst (e ()) (e' ())) : SameFirst (.lazy e) (.lazy e')

namespace Expression

variable {env env' : Env τ}

/-! A part that is left as it is differs in nothing, and the derived expressions
have their parts where their constructors have them. -/

namespace SameFirst

variable {e e' : Expression τ α}

theorem refl (e : Expression τ α) : e.SameFirst e := .part fun _ => .refl _

theorem token (h : e.SameFirst e') :
    (token e).SameFirst (Expression.token e') :=
  .bind (.refl _) fun _ => h

theorem many1 (h : e.SameFirst e') :
    (many1 e).SameFirst (Expression.many1 e') :=
  .seq (.map _ h) (.many h)

theorem between {opening opening' : Expression τ α}
    {content content' : Expression τ β} {closing closing' : Expression τ γ}
    (ho : opening.SameFirst opening') (hc : content.SameFirst content')
    (hc' : closing.SameFirst closing') :
    (between opening content closing).SameFirst
      (Expression.between opening' content' closing') :=
  .bind ho fun _ => .bind hc fun _ => .bind hc' fun _ => .refl _

theorem sepBy {separator separator' : Expression τ β} (h : e.SameFirst e')
    (hs : separator.SameFirst separator') :
    (sepBy e separator).SameFirst (Expression.sepBy e' separator') :=
  .bind h fun _ => .bind (.many (.bind hs fun _ => h)) fun _ => .refl _

end SameFirst

/-- Only the first candidates of the rules matter to an expression. -/
theorem sameFirst_denote (henv : ∀ r, Parser.SameFirst (env r) (env' r))
    (e : Expression τ α) : Parser.SameFirst (e.denote env) (e.denote env') := by
  induction e with
  | base p => exact .refl p
  | pure a => exact .refl _
  | fail => exact .refl _
  | map f e ih => exact .map f ih
  | seq ef ex ihf ihx => exact .seq ihf ihx
  | bind e k ih ihk => exact .bind ih ihk
  | choice e₁ e₂ ih₁ ih₂ => exact .orElse ih₁ ih₂
  | many e ih => exact .many ih
  | lazy e ih => exact ih ()
  | rule r => exact henv r

theorem SameFirst.denote {e e' : Expression τ α} (h : e.SameFirst e')
    (henv : ∀ r, Parser.SameFirst (env r) (env' r)) :
    Parser.SameFirst (e.denote env) (e'.denote env') := by
  induction h with
  | part h => exact fun s => (sameFirst_denote henv _ s).trans (h env' s)
  | map f _ ih => exact .map f ih
  | seq _ _ ihf ihx => exact .seq ihf ihx
  | bind _ _ ih ihk => exact .bind ih ihk
  | choice _ _ ih₁ ih₂ => exact .orElse ih₁ ih₂
  | many _ ih => exact .many ih
  | lazy _ ih => exact ih

end Expression

namespace Grammar

variable {g : Grammar τ} {body : (r : ρ) → Expression τ (τ r)}

theorem sameFirst_iterate (hg : ∀ r, (g.body r).SameFirst (body r))
    {env env' : Expression.Env τ}
    (henv : ∀ r, Parser.SameFirst (env r) (env' r)) (n : Nat) (r : ρ) :
    Parser.SameFirst (g.iterate env n r)
      ({ g with body := body }.iterate env' n r) := by
  induction n generalizing r with
  | zero => exact henv r
  | succ n ih => exact (hg r).denote ih

/-- Grammars whose bodies differ in later candidates only have the same first
  candidates, and their runs end on the same texts. -/
theorem sameFirst_of_body (hg : ∀ r, (g.body r).SameFirst (body r))
    {e e' : Expression τ α} (h : e.SameFirst e') :
    Parser.SameFirst (g.parser e) ({ g with body := body }.parser e') := by
  intro s
  rw [parser_apply, parser_apply, unroll_eq_atDepth, unroll_eq_atDepth]
  exact h.denote (sameFirst_iterate hg (fun _ => .refl _) _) s

/-- The answer is the first candidate, if the run ends, … -/
theorem reads_iff_eq_head? {e : Expression τ α} {s : Text}
    {cs : List (Candidate α)} (h : g.parser e s = some cs) {o : Answer α} :
    g.Reads e s o ↔ o = cs.head? :=
  ⟨fun ho => ho.unique (reads_of_parser_eq h),
    fun ho => ho ▸ reads_of_parser_eq h⟩

/-- … and it stays so if parts are replaced by others that differ in later
  candidates. -/
theorem exists_parser_eq_of_sameFirst
    (hg : ∀ r, (g.body r).SameFirst (body r)) {e e' : Expression τ α}
    (he : e.SameFirst e') {s : Text} {cs : List (Candidate α)}
    (h : g.parser e s = some cs) :
    ∃ cs', { g with body := body }.parser e' s = some cs'
      ∧ cs'.head? = cs.head? := by
  have hs := sameFirst_of_body hg he s
  rw [h] at hs
  exact Option.map_eq_some_iff.1 hs.symm

/-- **The first candidate is the answer by ordered choice**, for every grammar.

* Where a run ends, its first candidate is the one answer of the reading, and
  nothing else about the candidates matters: neither to the whole text, nor if
  parts of the expression or of the grammar are replaced by others that differ
  in later candidates.
* Where the base parsers read the front of a text, a run ends exactly if the
  reading does.
* Characters and the derived expressions are read as ordered choice has it, and
  the parsers of the derived expressions are those of the same name. -/
theorem parser_eq_some_reads (g : Grammar τ) :
    (∀ (α : Type) (e : Expression τ α) (s : Text) (cs : List (Candidate α)),
        g.parser e s = some cs →
        (∀ o, g.Reads e s o ↔ o = cs.head?)
          ∧ (∀ o, g.Reads e s o →
              (g.parser e).complete s = some (verdict o))
          ∧ ∀ (body : (r : ρ) → Expression τ (τ r)) (e' : Expression τ α),
              (∀ r, (g.body r).SameFirst (body r)) → e.SameFirst e' →
              (∃ cs', { g with body := body }.parser e' s = some cs'
                  ∧ cs'.head? = cs.head?)
                ∧ ({ g with body := body }.parser e').complete s
                    = (g.parser e).complete s)
      ∧ ((∀ r, (g.body r).ReadsFront) →
          ∀ (α : Type) (e : Expression τ α), e.ReadsFront →
          ∀ (s : Text) (o : Answer α),
            g.Reads e s o ↔ ∃ cs, g.parser e s = some cs ∧ cs.head? = o)
      ∧ g.ReadsDerived
      ∧ ∀ (env : Expression.Env τ) (α β γ : Type) (e : Expression τ α)
          (e' : Expression τ β) (e'' : Expression τ γ)
          (optional : Option (Expression τ α)),
          (Expression.ofOption optional).denote env
              = Parser.ofOption (optional.map fun e => e.denote env)
            ∧ (Expression.token e).denote env = Lexer.token (e.denote env)
            ∧ (Expression.many1 e).denote env = Parser.many1 (e.denote env)
            ∧ (Expression.between e e' e'').denote env
                = Parser.between (e.denote env) (e'.denote env)
                    (e''.denote env)
            ∧ (Expression.sepBy e e').denote env
                = Parser.sepBy (e.denote env) (e'.denote env) := by
  refine ⟨fun α e s cs h => ⟨fun o => reads_iff_eq_head? h, fun o ho => ?_,
      fun body e' hg he => ⟨exists_parser_eq_of_sameFirst hg he h, ?_⟩⟩,
    fun hg α e he s o => reads_iff_parser_eq hg he, readsDerived g,
    fun env α β γ e e' e'' optional =>
      ⟨Expression.denote_ofOption env optional, Expression.denote_token env e,
        Expression.denote_many1 env e, Expression.denote_between env e e' e'',
        Expression.denote_sepBy env e e'⟩⟩
  · rw [Parser.complete_eq_verdict h, (reads_iff_eq_head? h).1 ho]
  · exact ((sameFirst_of_body hg he).complete_eq s).symm

/-- A character counts for one. A second candidate does not take it. -/
def oneOrStay : Parser Nat
  | [] => some []
  | c :: s => some [(1, s), (0, c :: s)]

/-- Nothing counts for nothing, or for something. -/
def noneOrMore : Parser Nat := fun s => some [(0, s), (7, s)]

/-- The count of the characters, by what counts one and what counts none. -/
def count (one rest : Parser Nat) : Expression (fun _ : Unit => Nat) Nat :=
  (.base one >>= fun n => Nat.add n <$> Expression.rule ()) <|> .base rest

/-- A grammar that counts characters, with several candidates at every turn. -/
def tally : Grammar fun _ : Unit => Nat := ofBody (count oneOrStay noneOrMore)

/-- A mark. A second candidate does not take it. -/
def markOrStay : Parser Char
  | '#' :: s => some [('#', s), ('#', '#' :: s)]
  | _ => some []

/-- The lengths of runs of marks, in brackets and with separators. -/
def marks (mark : Parser Char) :
    Expression (fun _ : Unit => Nat) (List Nat) :=
  .between (.base (Lexer.symbol ['[']))
    (.sepBy (List.length <$> .token (.many1 (.base mark)))
      (.ofOption (some (.base (Lexer.symbol [','])))))
    (.base (Lexer.symbol [']']))

theorem readsFront_tally (r : Unit) : (tally.body r).ReadsFront := by
  refine ⟨⟨?_, fun _ => trivial⟩, ?_⟩
  · rintro s cs h c hc
    match s with
    | [] =>
      obtain rfl : [] = cs := Option.some.inj h
      simp at hc
    | a :: s =>
      obtain rfl : [(1, s), (0, a :: s)] = cs := Option.some.inj h
      obtain rfl | rfl : c = (1, s) ∨ c = (0, a :: s) := by simpa using hc
      · exact List.suffix_cons a s
      · exact List.suffix_refl _
  · rintro s cs h c hc
    obtain rfl : [(0, s), (7, s)] = cs := Option.some.inj h
    obtain rfl | rfl : c = (0, s) ∨ c = (7, s) := by simpa using hc
    · exact List.suffix_refl s
    · exact List.suffix_refl s

theorem parser_eq_some_reads_tally :
    (tally.parser (.rule ()) ['a', 'b'] = some [(2, []), (9, [])]
        ∧ (∀ o, tally.Reads (.rule ()) ['a', 'b'] o ↔ o = some (2, []))
        ∧ (tally.parser (.rule ())).complete ['a', 'b'] = some (.ok 2)
        ∧ ∀ s o, tally.Reads (.rule ()) s o
            ↔ ∃ cs, tally.parser (.rule ()) s = some cs ∧ cs.head? = o)
      ∧ (tally.parser (marks markOrStay) "[ ##, #]!".toList
            = some [([2, 1], ['!'])]
        ∧ (∀ o, tally.Reads (marks markOrStay) "[ ##, #]!".toList o
            ↔ o = some ([2, 1], ['!']))
        ∧ ({ tally with body := fun _ => count oneOrStay.firstOnly noneOrMore
              }.parser (marks markOrStay.firstOnly)).complete
            "[ ##, #]!".toList = some (.error (.unusedInput ['!'])))
      ∧ (tally.parser (marks markOrStay) "[#,]".toList = some []
        ∧ (∀ o, tally.Reads (marks markOrStay) "[#,]".toList o ↔ o = none)
        ∧ (tally.parser (marks markOrStay)).complete "[#,]".toList
            = some (.error .noMatch))
      ∧ tally.Reads (.many1 (.base markOrStay)) [','] none := by
  obtain ⟨hfirst, hends, hderived, -⟩ := parser_eq_some_reads tally
  have htally :
      tally.parser (.rule ()) ['a', 'b'] = some [(2, []), (9, [])] := by
    rfl
  have hmarks : tally.parser (marks markOrStay) "[ ##, #]!".toList
      = some [([2, 1], ['!'])] := by
    decide +kernel
  have hfails : tally.parser (marks markOrStay) "[#,]".toList = some [] := by
    decide +kernel
  have hnone : tally.Reads (.base markOrStay) [','] none :=
    .base (show markOrStay [','] = some [] from rfl)
  obtain ⟨hreads₁, hcomplete₁, -⟩ := hfirst _ _ _ _ htally
  obtain ⟨hreads₂, hcomplete₂, hsame⟩ := hfirst _ _ _ _ hmarks
  obtain ⟨hreads₃, hcomplete₃, -⟩ := hfirst _ _ _ _ hfails
  refine ⟨⟨htally, hreads₁, hcomplete₁ _ ((hreads₁ _).2 rfl),
      hends readsFront_tally _ (.rule ()) trivial⟩,
    ⟨hmarks, hreads₂, ?_⟩, ⟨hfails, hreads₃, hcomplete₃ _ ((hreads₃ _).2 rfl)⟩,
    (hderived.many1 _ _ _).2 (.inl ⟨hnone, rfl⟩)⟩
  -- the later candidates of the grammar and of the marks are left out
  have hcount : (count oneOrStay noneOrMore).SameFirst
      (count oneOrStay.firstOnly noneOrMore) :=
    .choice (.bind (.part fun _ => .firstOnly _) fun _ => .refl _) (.refl _)
  have hmark : (Expression.base markOrStay).SameFirst
      (.base markOrStay.firstOnly : Expression (fun _ : Unit => Nat) Char) :=
    .part fun _ => .firstOnly _
  rw [(hsame _ (marks markOrStay.firstOnly) (fun _ => hcount)
    (.between (.refl _) (.sepBy (.map _ (.token (.many1 hmark))) (.refl _))
      (.refl _))).2]
  exact hcomplete₂ _ ((hreads₂ _).2 rfl)

end Grammar

end CommittedChoice
