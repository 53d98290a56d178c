import CommittedChoice.Proofs.Supplied

/-!
# One candidate at most

A parser with several candidates may be part of an expression that has only one.
A sequence drops all candidates of its first part but the first one, a
repetition keeps one for the whole of it, and only what comes *last* shows all
that it has. The places of an expression where nothing comes behind are its
tails: the sides of a choice, the argument of a function, whatever a value
chooses to go on with, and the bodies of the rules that are referred to in such
places.

So an expression has at most one candidate if this holds of the base parsers in
its tails, whatever the others have (`Grammar.parser_single`). All parsers that
the library supplies have at most one, and so has everything that is built from
them alone. The repetitions, delimited content and lists with separators have no
tails, and need nothing to have at most one candidate.
-/

namespace CommittedChoice

namespace Parser

variable {α β γ : Type}

/-- **One candidate at most**, on every text on which the run ends. -/
def Single (p : Parser α) : Prop :=
  ∀ ⦃s : Text⦄ ⦃cs : List (Candidate α)⦄, p s = some cs → cs.length ≤ 1

/-- A repetition has one candidate, whatever is repeated. -/
theorem length_many {p : Parser α} {s : Text} {cs : List (Candidate (List α))}
    (h : many p s = some cs) : cs.length = 1 := by
  obtain ⟨as, t, -, -, rfl⟩ := many_eq_some_iff.1 h
  rfl

namespace Single

theorem pure (a : α) : Single (Pure.pure a : Parser α) := by
  rintro s cs h
  obtain rfl : [(a, s)] = cs := Option.some.inj h
  exact Nat.le_refl 1

theorem failure : Single (Alternative.failure : Parser α) := by
  rintro s cs h
  obtain rfl : [] = cs := Option.some.inj h
  exact Nat.zero_le 1

theorem diverge : Single (diverge : Parser α) := by
  rintro s cs h
  simp at h

theorem map (f : α → β) {p : Parser α} (hp : Single p) : Single (f <$> p) := by
  rintro s cs h
  obtain ⟨cs', hs, rfl⟩ := Option.map_eq_some_iff.1 h
  rw [List.length_map]
  exact hp hs

/-- The first part may have many candidates, as only one of them is followed. -/
theorem bind (p : Parser α) {k : α → Parser β} (hk : ∀ a, Single (k a)) :
    Single (p >>= k) := by
  rintro s cs h
  obtain ⟨-, rfl⟩ | ⟨a, r, others, -, ha⟩ := Outcome.commit_eq_some_iff.1 h
  · exact Nat.zero_le 1
  · exact hk a ha

/-- The function may have many candidates, and the argument must not. -/
theorem seq (pf : Parser (α → β)) {px : Parser α} (hx : Single px) :
    Single (pf <*> px) :=
  bind pf fun f => map f hx

theorem orElse {p q : Parser α} (hp : Single p) (hq : Single q) :
    Single (p <|> q) := by
  rintro s cs h
  obtain ⟨-, hs⟩ | ⟨hs, -⟩ := Outcome.orElse_eq_some_iff.1 h
  · exact hq hs
  · exact hp hs

/-- A parser that settles every text has at most one candidate. -/
theorem of_settles {p : Parser α} (hp : ∀ s, Settles p s 0) : Single p := by
  rintro s cs h
  obtain hs | ⟨a, r, hs, -⟩ := hp s
  · obtain rfl : cs = [] := Option.some.inj (h.symm.trans hs)
    exact Nat.zero_le 1
  · obtain rfl : cs = [(a, r)] := Option.some.inj (h.symm.trans hs)
    exact Nat.le_refl 1

/-! ## What has at most one candidate in any case -/

theorem many (p : Parser α) : Single (many p) :=
  fun _ _ h => Nat.le_of_eq (length_many h)

theorem many1 (p : Parser α) : Single (many1 p) := seq _ (many p)

theorem between (opening : Parser β) (content : Parser α) (closing : Parser γ) :
    Single (between opening content closing) :=
  bind opening fun _ => bind content fun a => bind closing fun _ => pure a

theorem sepBy (p : Parser α) (separator : Parser β) :
    Single (sepBy p separator) :=
  bind p fun a => bind (Parser.many (separator >>= fun _ => p)) fun as =>
    pure (a :: as)

end Single

end Parser

open CommittedChoice.Parser (Single)

variable {ρ : Type} {τ : ρ → Type} {α : Type}

/-- All of the supplied parsers have at most one candidate. -/
theorem Supplied.single {p : Parser α} (h : Supplied p) : Single p :=
  .of_settles h.settles

/-! ## Tails -/

namespace Expression

/-- **A property of what stands in the tails** of an expression: one of the base
  parsers there, and one of the rules. Neither the first part of a sequence nor
  anything that is repeated is in a tail. -/
def OverTails (P : (α : Type) → Parser α → Prop) (R : ρ → Prop) {α : Type} :
    Expression τ α → Prop
  | base p => P _ p
  | pure _ => True
  | fail => True
  | map _ e => e.OverTails P R
  | seq _ ex => ex.OverTails P R
  | bind _ k => ∀ a, (k a).OverTails P R
  | choice e₁ e₂ => e₁.OverTails P R ∧ e₂.OverTails P R
  | many _ => True
  | lazy e => (e ()).OverTails P R
  | rule r => R r

/-- What holds of all base parsers holds of those in the tails. -/
theorem OverBases.overTails {P : (α : Type) → Parser α → Prop}
    {e : Expression τ α} (h : e.OverBases P) : e.OverTails P fun _ => True := by
  induction e with
  | base p => exact h
  | pure => trivial
  | fail => trivial
  | map _ _ ih => exact ih h
  | seq _ _ _ ihx => exact ihx h.2
  | bind _ _ _ ihk => exact fun a => ihk a (h.2 a)
  | choice _ _ ih₁ ih₂ => exact ⟨ih₁ h.1, ih₂ h.2⟩
  | many _ _ => trivial
  | lazy _ ih => exact ih () h
  | rule => trivial

section Derived

variable {P : (α : Type) → Parser α → Prop} {R : ρ → Prop} {β γ : Type}

/-- The tails of an expression that may be missing are those of the
  expression, … -/
theorem overTails_ofOption_iff {e : Option (Expression τ α)} :
    (ofOption e).OverTails P R ↔ ∀ e' ∈ e, e'.OverTails P R := by
  cases e with
  | none => exact ⟨fun _ _ h => by simp at h, fun _ => trivial⟩
  | some e => exact ⟨fun h e' he => Option.some.inj he ▸ h, fun h => h e rfl⟩

/-- … those of a token are the tails of what it stands in front of, … -/
theorem overTails_token_iff {e : Expression τ α} :
    (token e).OverTails P R ↔ e.OverTails P R :=
  ⟨fun h => h (), fun h _ => h⟩

/-- … and there are none in a repetition of one time or more, … -/
theorem overTails_many1 (e : Expression τ α) : (many1 e).OverTails P R :=
  trivial

/-- … in delimiters and their content, … -/
theorem overTails_between (opening : Expression τ β) (content : Expression τ α)
    (closing : Expression τ γ) :
    (between opening content closing).OverTails P R :=
  fun _ _ _ => trivial

/-- … or in a list with separators. -/
theorem overTails_sepBy (e : Expression τ α) (separator : Expression τ β) :
    (sepBy e separator).OverTails P R :=
  fun _ _ => trivial

end Derived

/-- **An expression has at most one candidate** if the base parsers and the
  rules in its tails have. -/
theorem single_denote {env : Env τ} {R : ρ → Prop}
    (henv : ∀ r, R r → Single (env r)) {e : Expression τ α}
    (he : e.OverTails (fun _ => Single) R) : Single (e.denote env) := by
  induction e with
  | base p => exact he
  | pure a => exact .pure a
  | fail => exact .failure
  | map f e ih => exact .map f (ih he)
  | seq ef ex _ ihx => exact .seq _ (ihx he)
  | bind e k _ ihk => exact .bind _ fun a => ihk a (he a)
  | choice e₁ e₂ ih₁ ih₂ => exact .orElse (ih₁ he.1) (ih₂ he.2)
  | many e _ => exact .many _
  | lazy e ih => exact ih () he
  | rule r => exact henv r he

end Expression

namespace Grammar

variable {g : Grammar τ} {R : ρ → Prop}

/-- The rules in question at a depth, by induction on the depth. -/
theorem single_atDepth
    (hR : ∀ r, R r → (g.body r).OverTails (fun _ => Single) R) (n : Nat) {r : ρ}
    (hr : R r) : Single (g.atDepth n r) := by
  induction n generalizing r with
  | zero => exact .diverge
  | succ n ih => exact Expression.single_denote (fun _ => ih) (hR r hr)

/-- **The tails decide.** For any set of rules that is closed under reference in
  tails. -/
theorem parser_single_of_overTails
    (hR : ∀ r, R r → (g.body r).OverTails (fun _ => Single) R)
    {e : Expression τ α} (he : e.OverTails (fun _ => Single) R) :
    Single (g.parser e) := by
  rintro s cs h
  rw [parser_apply, unroll_eq_atDepth] at h
  exact Expression.single_denote (fun r => single_atDepth hR _) he h

/-- **At most one candidate survives.** An expression has at most one candidate
  if all base parsers have that stand in its tails, where the tails go on in the
  bodies of the rules referred to there. In particular, an expression over a
  grammar has at most one if both are built from supplied parsers only.
  Repetitions, delimited content and lists with separators have at most one
  whatever they are built from, and a repetition always has one. -/
theorem parser_single (g : Grammar τ) :
    (∀ (R : ρ → Prop) (α : Type) (e : Expression τ α),
        (∀ r, R r → (g.body r).OverTails (fun _ => Single) R) →
        e.OverTails (fun _ => Single) R →
        ∀ s cs, g.parser e s = some cs → cs.length ≤ 1)
      ∧ ((∀ r, (g.body r).OverBases fun _ => Supplied) →
          ∀ (α : Type) (e : Expression τ α), (e.OverBases fun _ => Supplied) →
          ∀ s cs, g.parser e s = some cs → cs.length ≤ 1)
      ∧ ∀ (α β γ : Type) (p : Parser α) (q : Parser β) (q' : Parser γ)
          (s : Text),
          (∀ cs, Parser.many p s = some cs → cs.length = 1)
            ∧ (∀ cs, Parser.many1 p s = some cs → cs.length ≤ 1)
            ∧ (∀ cs, Parser.between q p q' s = some cs → cs.length ≤ 1)
            ∧ ∀ cs, Parser.sepBy p q s = some cs → cs.length ≤ 1 := by
  refine ⟨fun R α e hR he s cs h => parser_single_of_overTails hR he h,
    fun hg α e he s cs h => ?_, fun α β γ p q q' s =>
      ⟨fun _ => Parser.length_many, fun _ h => Single.many1 p h,
        fun _ h => Single.between q p q' h, fun _ h => Single.sepBy p q h⟩⟩
  have hsingle {β : Type} {e : Expression τ β}
      (he : e.OverBases fun _ => Supplied) :
      e.OverTails (fun _ => Single) fun _ => True :=
    (Expression.OverBases.mono (fun _ _ => Supplied.single) he).overTails
  exact parser_single_of_overTails (fun r _ => hsingle (hg r)) (hsingle he) h

/-! ### A rule that is not in a tail -/

/-- The rules of the grammar of stuttered words. -/
inductive Stuttered where
  /-- A character, taken or not. -/
  | letter
  /-- All characters. -/
  | word

/-- A character, which a second candidate leaves in the text. -/
def stutter : Parser Text
  | [] => some []
  | c :: s => some [([c], s), ([c], c :: s)]

/-- A grammar of words, whose letters have two candidates. -/
def stuttered : Grammar fun _ : Stuttered => Text where
  body
    | .letter => .base stutter
    | .word =>
      (Expression.rule .letter >>= fun l => (l ++ ·) <$> Expression.rule .word)
        <|> Pure.pure []
  rules := [.letter, .word]
  mem_rules r := by cases r <;> simp

/-- Ways to read letters or words such that no letter is in a tail. -/
def spellings : List (Expression (fun _ : Stuttered => Text) Text) :=
  [.between (.base (Lexer.char '(')) (.rule .letter) (.base (Lexer.char ')')),
    List.flatten <$> .sepBy (.rule .letter) (.base (Lexer.char ',')),
    List.flatten <$> .many1 (.rule .letter),
    .token (.ofOption (some (.rule .word)))]

theorem overTails_spellings :
    ∀ e ∈ spellings, e.OverTails (fun _ => Single) (· = Stuttered.word) := by
  have hword : ∀ e ∈ some (Expression.rule Stuttered.word),
      e.OverTails (τ := fun _ : Stuttered => Text) (fun _ => Single)
        (· = Stuttered.word) :=
    fun e he => Option.some.inj he ▸ rfl
  simp only [spellings, List.forall_mem_cons]
  exact ⟨Expression.overTails_between _ _ _, Expression.overTails_sepBy _ _,
    Expression.overTails_many1 _,
    Expression.overTails_token_iff.2
      (Expression.overTails_ofOption_iff.2 hword), by simp⟩

theorem parser_single_stuttered :
    (stuttered.parser (.rule .letter) ['a', 'b']
          = some [(['a'], ['b']), (['a'], ['a', 'b'])]
        ∧ stuttered.parser (.rule .word) ['a', 'b'] = some [(['a', 'b'], [])]
        ∧ ∀ s cs, stuttered.parser (.rule .word) s = some cs → cs.length ≤ 1)
      ∧ spellings.map (stuttered.parser · "(a)b".toList)
          = [some [(['a'], ['b'])], some [(['('], ['a', ')', 'b'])],
            some [("(a)b".toList, [])], some [("(a)b".toList, [])]]
      ∧ ∀ e ∈ spellings, ∀ s cs,
          stuttered.parser e s = some cs → cs.length ≤ 1 := by
  have hword : ∀ r, r = .word →
      (stuttered.body r).OverTails (fun _ => Single) (· = .word) := by
    rintro r rfl
    exact ⟨fun c => rfl, trivial⟩
  obtain ⟨htails, -⟩ := parser_single stuttered
  exact ⟨⟨by rfl, by rfl, htails (· = .word) _ _ hword rfl⟩, by decide +kernel,
    fun e he => htails (· = .word) _ e hword (overTails_spellings e he)⟩

end Grammar

end CommittedChoice
