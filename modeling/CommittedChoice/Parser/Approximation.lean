import CommittedChoice.Parser.Remainder

/-!
# Approximations of a parser

One parser approximates another if the other has the same outcome wherever the
first one has any. A run that never ends is approximated by nothing but such
runs, and approximates everything. All combinators respect the order
(`Parser.LeOn.bind` and its neighbours).

The order is taken on a set of texts, because what a parser does on a text
depends only on the outcomes of its parts on what is left of that text. For
sequencing, the set has to hold what the first part leaves, and this is what
`Parser.Keeps` says.
-/

namespace CommittedChoice

namespace Parser

variable {α β : Type} {S : Text → Prop}

/-- **Staying in a set of texts**: what a candidate leaves of a text in the set
  is in the set. -/
def Keeps (S : Text → Prop) (p : Parser α) : Prop :=
  ∀ ⦃s : Text⦄, S s → ∀ ⦃cs : List (Candidate α)⦄, p s = some cs →
    ∀ c ∈ cs, S c.2

/-- **Approximation** on a set of texts: the second parser has the outcome of
  the first one wherever that ends. -/
def LeOn (S : Text → Prop) (p q : Parser α) : Prop :=
  ∀ ⦃s : Text⦄, S s → ∀ ⦃cs : List (Candidate α)⦄, p s = some cs → q s = some cs

/-- A parser that reads the front of a text stays among the suffixes of any
  text. -/
theorem LeavesSuffix.keeps {p : Parser α} (hp : LeavesSuffix p) (s : Text) :
    Keeps (· <:+ s) p :=
  fun _ ht _ h c hc => (hp h c hc).trans ht

namespace LeOn

theorem refl (p : Parser α) : LeOn S p p := fun _ _ _ h => h

theorem trans {p q r : Parser α} (h₁ : LeOn S p q) (h₂ : LeOn S q r) :
    LeOn S p r :=
  fun _ hs _ h => h₂ hs (h₁ hs h)

/-- Two parsers that approximate each other are equal on the set. -/
theorem antisymm {p q : Parser α} (h₁ : LeOn S p q) (h₂ : LeOn S q p) {s : Text}
    (hs : S s) : p s = q s :=
  Option.ext fun _ => ⟨fun h => h₁ hs h, fun h => h₂ hs h⟩

theorem diverge (p : Parser α) : LeOn S diverge p := by
  rintro s - cs h
  simp at h

theorem map (f : α → β) {p q : Parser α} (h : LeOn S p q) :
    LeOn S (f <$> p) (f <$> q) := by
  rintro s hs cs he
  obtain ⟨cs', hp, rfl⟩ := Option.map_eq_some_iff.1 he
  exact Option.map_eq_some_iff.2 ⟨cs', h hs hp, rfl⟩

theorem bind {p q : Parser α} {k l : α → Parser β} (hkeep : Keeps S p)
    (h : LeOn S p q) (hk : ∀ a, LeOn S (k a) (l a)) :
    LeOn S (p >>= k) (q >>= l) := by
  rintro s hs cs he
  rw [bind_apply, Outcome.commit_eq_some_iff] at he ⊢
  obtain ⟨hp, rfl⟩ | ⟨a, r, others, hp, ha⟩ := he
  · exact .inl ⟨h hs hp, rfl⟩
  · exact .inr
      ⟨a, r, others, h hs hp, hk a (hkeep hs hp (a, r) List.mem_cons_self) ha⟩

theorem seq {pf qf : Parser (α → β)} {px qx : Parser α} (hkeep : Keeps S pf)
    (hf : LeOn S pf qf) (hx : LeOn S px qx) : LeOn S (pf <*> px) (qf <*> qx) :=
  fun _ hs _ he => bind hkeep hf (fun f => map f hx) hs he

theorem orElse {p₁ q₁ p₂ q₂ : Parser α} (h₁ : LeOn S p₁ q₁)
    (h₂ : LeOn S p₂ q₂) :
    LeOn S (p₁ <|> p₂) (q₁ <|> q₂) := by
  rintro s hs cs he
  rw [orElse_apply, Outcome.orElse_eq_some_iff] at he ⊢
  obtain ⟨hp, hq⟩ | ⟨hp, hne⟩ := he
  · exact .inl ⟨h₁ hs hp, h₂ hs hq⟩
  · exact .inr ⟨h₁ hs hp, hne⟩

/-- A chain of the first parser is one of the second. -/
theorem chain {p q : Parser α} (hkeep : Keeps S p) (h : LeOn S p q) {s t : Text}
    {as : List α} (hs : S s) (hc : Chain p s as t) : Chain q s as t := by
  induction hc with
  | nil he => exact .nil (h hs he)
  | cons he _ ih =>
    exact .cons (h hs he) (ih (hkeep hs he _ List.mem_cons_self))

theorem many {p q : Parser α} (hkeep : Keeps S p) (h : LeOn S p q) :
    LeOn S (many p) (many q) := by
  rintro s hs cs he
  obtain ⟨as, t, hc, hlen, rfl⟩ := many_eq_some_iff.1 he
  exact many_eq_some_iff.2 ⟨as, t, h.chain hkeep hs hc, hlen, rfl⟩

end LeOn

end Parser

end CommittedChoice
