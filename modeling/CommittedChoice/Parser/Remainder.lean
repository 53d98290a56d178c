import CommittedChoice.Parser.Chain

/-!
# What is left of a text

A parser reads the *front* of a text: the text left by any of its candidates is
a suffix of the text it was run on. This is not so for every function from texts
to outcomes, but it is so for `item`, and every combinator keeps it, all
candidates included.
-/

namespace CommittedChoice

namespace Parser

variable {α β γ : Type}

/-- **Reading the front**: every candidate leaves a suffix of the text. -/
def LeavesSuffix (p : Parser α) : Prop :=
  ∀ ⦃s : Text⦄ ⦃cs : List (Candidate α)⦄, p s = some cs → ∀ c ∈ cs, c.2 <:+ s

namespace LeavesSuffix

theorem pure (a : α) : LeavesSuffix (Pure.pure a : Parser α) := by
  rintro s cs h c hc
  obtain rfl : [(a, s)] = cs := by simpa using h
  obtain rfl : c = (a, s) := by simpa using hc
  exact List.suffix_refl s

theorem failure : LeavesSuffix (Alternative.failure : Parser α) := by
  rintro s cs h c hc
  obtain rfl : [] = cs := by simpa using h
  simp at hc

theorem diverge : LeavesSuffix (diverge : Parser α) := by
  rintro s cs h
  simp at h

theorem item : LeavesSuffix item := by
  rintro s cs h c hc
  cases s with
  | nil =>
    obtain rfl : [] = cs := by simpa using h
    simp at hc
  | cons a s =>
    obtain rfl : [(a, s)] = cs := by simpa using h
    obtain rfl : c = (a, s) := by simpa using hc
    exact List.suffix_cons a s

theorem map (f : α → β) {p : Parser α} (hp : LeavesSuffix p) :
    LeavesSuffix (f <$> p) := by
  rintro s cs h c hc
  obtain ⟨cs', hs, rfl⟩ := Option.map_eq_some_iff.1 h
  obtain ⟨c', hc', rfl⟩ := List.mem_map.1 hc
  exact hp hs c' hc'

/-- Going on from the first candidate reads on in a suffix. -/
theorem bind {p : Parser α} {k : α → Parser β} (hp : LeavesSuffix p)
    (hk : ∀ a, LeavesSuffix (k a)) : LeavesSuffix (p >>= k) := by
  rintro s cs h c hc
  obtain ⟨-, rfl⟩ | ⟨a, r, others, hs, ha⟩ := Outcome.commit_eq_some_iff.1 h
  · simp at hc
  · have hr : r <:+ s := hp hs (a, r) List.mem_cons_self
    exact (hk a ha c hc).trans hr

theorem seq {pf : Parser (α → β)} {px : Parser α} (hf : LeavesSuffix pf)
    (hx : LeavesSuffix px) : LeavesSuffix (pf <*> px) :=
  fun _ _ h => bind hf (fun f => map f hx) h

theorem orElse {p q : Parser α} (hp : LeavesSuffix p) (hq : LeavesSuffix q) :
    LeavesSuffix (p <|> q) := by
  rintro s cs h c hc
  obtain ⟨-, hs⟩ | ⟨hs, -⟩ := Outcome.orElse_eq_some_iff.1 h
  · exact hq hs c hc
  · exact hp hs c hc

theorem lazy {p : Unit → Parser α} (hp : LeavesSuffix (p ())) :
    LeavesSuffix (Parser.lazy p) := hp

theorem ofOption {p : Option (Parser α)} (hp : ∀ q ∈ p, LeavesSuffix q) :
    LeavesSuffix (Parser.ofOption p) := by
  cases p with
  | none => exact failure
  | some q => exact hp q rfl

theorem sat (q : Char → Bool) : LeavesSuffix (sat q) :=
  bind item fun c => by
    split
    · exact pure c
    · exact failure

end LeavesSuffix

/-- A chain ends in a suffix of the text it starts on. -/
theorem Chain.suffix {p : Parser α} (hp : LeavesSuffix p) {s t : Text}
    {as : List α} (h : Chain p s as t) : t <:+ s := by
  induction h with
  | nil => exact List.suffix_refl _
  | cons h _ ih => exact ih.trans (hp h _ List.mem_cons_self)

namespace LeavesSuffix

theorem many {p : Parser α} (hp : LeavesSuffix p) : LeavesSuffix (many p) := by
  rintro s cs h c hc
  obtain ⟨as, t, hchain, -, rfl⟩ := many_eq_some_iff.1 h
  obtain rfl : c = (as, t) := by simpa using hc
  exact hchain.suffix hp

theorem many1 {p : Parser α} (hp : LeavesSuffix p) : LeavesSuffix (many1 p) :=
  seq (map _ hp) (many hp)

theorem between {opening : Parser α} {content : Parser β} {closing : Parser γ}
    (ho : LeavesSuffix opening) (hc : LeavesSuffix content)
    (hc' : LeavesSuffix closing) :
    LeavesSuffix (between opening content closing) :=
  bind ho fun _ => bind hc fun b => bind hc' fun _ => pure b

theorem sepBy {p : Parser α} {separator : Parser β} (hp : LeavesSuffix p)
    (hs : LeavesSuffix separator) : LeavesSuffix (sepBy p separator) :=
  bind hp fun a => bind (many (bind hs fun _ => hp)) fun as => pure (a :: as)

end LeavesSuffix

end Parser

end CommittedChoice
