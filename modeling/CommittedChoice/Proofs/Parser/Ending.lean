import CommittedChoice.Complete
import CommittedChoice.Parser.Remainder
import CommittedChoice.Proofs.Parser.Offer

/-!
# Runs that end

Whether the run of a composed parser ends on a text depends on its parts, and on
whether these take something. A sequence runs its second part on the very same
text if the first one took nothing, and on less text otherwise
(`Parser.EndsOn.bind`). A repetition runs the same parser again, so it needs
progress to end (`Parser.EndsOn.many`).
-/

namespace CommittedChoice

namespace Parser

variable {α β : Type} {p : Parser α} {s t : Text}

/-- **The run ends** on a text. -/
def EndsOn (p : Parser α) (s : Text) : Prop := ∃ cs, p s = some cs

/-- **Taking something**: every candidate leaves less text than there was. -/
def Consumes (p : Parser α) : Prop :=
  ∀ ⦃s : Text⦄ ⦃a : α⦄ ⦃r : Text⦄, Offers p s a r → r.length < s.length

/-- What is left of a text is no longer than the text. -/
theorem LeavesSuffix.length_le (hp : LeavesSuffix p) {a : α}
    (h : Offers p s a t) :
    t.length ≤ s.length := by
  obtain ⟨cs, hs, hmem⟩ := h
  exact (hp hs _ hmem).length_le

/-! ## Taking something -/

namespace Consumes

theorem shrinks (hp : Consumes p) : Shrinks p :=
  fun _ _ _ _ h => hp ⟨_, h, List.mem_cons_self⟩

theorem failure : Consumes (Alternative.failure : Parser α) :=
  fun _ _ _ h => absurd h not_offers_failure

theorem diverge : Consumes (diverge : Parser α) :=
  fun _ _ _ h => absurd h not_offers_diverge

theorem map (f : α → β) (hp : Consumes p) : Consumes (f <$> p) := by
  rintro s b t h
  obtain ⟨a, ha⟩ := offers_map h
  exact hp ha

/-- A sequence takes something if its first part does, … -/
theorem bind_left {k : α → Parser β} (hp : Consumes p)
    (hk : ∀ a, LeavesSuffix (k a)) :
    Consumes (p >>= k) := by
  rintro s b t h
  obtain ⟨a, r, ha, hb⟩ := offers_bind h
  exact Nat.lt_of_le_of_lt ((hk a).length_le hb) (hp ha)

/-- … and if what follows does, for every value. -/
theorem bind_right {k : α → Parser β} (hp : LeavesSuffix p)
    (hk : ∀ a, Consumes (k a)) :
    Consumes (p >>= k) := by
  rintro s b t h
  obtain ⟨a, r, ha, hb⟩ := offers_bind h
  exact Nat.lt_of_lt_of_le (hk a hb) (hp.length_le ha)

theorem seq_left {pf : Parser (α → β)} (hf : Consumes pf)
    (hp : LeavesSuffix p) :
    Consumes (pf <*> p) :=
  fun _ _ _ h => bind_left hf (fun f => .map f hp) h

theorem seq_right {pf : Parser (α → β)} (hf : LeavesSuffix pf)
    (hp : Consumes p) :
    Consumes (pf <*> p) :=
  fun _ _ _ h => bind_right hf (fun f => map f hp) h

theorem orElse {q : Parser α} (hp : Consumes p) (hq : Consumes q) :
    Consumes (p <|> q) := by
  rintro s a t h
  obtain h | h := offers_orElse h
  · exact hp h
  · exact hq h

end Consumes

/-! ## Ending -/

/-- A whole text is answered exactly if the run ends. -/
theorem exists_complete_iff :
    (∃ answer, p.complete s = some answer) ↔ EndsOn p s := by
  rw [EndsOn, ← Option.ne_none_iff_exists',
    ← Option.ne_none_iff_exists', Ne, Ne, complete_eq_none_iff]

/-- A chain has an end if every success leaves less text, and the runs end. -/
theorem exists_chain (hp : Shrinks p) (s : Text) (hs : EndsOn p s)
    (hlater : ∀ t : Text, t.length < s.length → EndsOn p t) :
    ∃ as t, Chain p s as t := by
  induction hn : s.length using Nat.strongRecOn generalizing s with
  | ind n ih =>
    subst hn
    match hs with
    | ⟨[], h⟩ => exact ⟨[], s, .nil h⟩
    | ⟨(a, r) :: others, h⟩ =>
      have hr := hp h
      obtain ⟨as, t, hc⟩ :=
        ih _ hr r (hlater r hr) (fun t ht => hlater t (by omega)) rfl
      exact ⟨a :: as, t, .cons h hc⟩

namespace EndsOn

theorem map (f : α → β) (h : EndsOn p s) : EndsOn (f <$> p) s := by
  obtain ⟨cs, hs⟩ := h
  exact ⟨_, by rw [map_apply, hs]; rfl⟩

theorem orElse {q : Parser α} (hp : EndsOn p s) (hq : EndsOn q s) :
    EndsOn (p <|> q) s := by
  match hp with
  | ⟨[], hs⟩ =>
    obtain ⟨cs, hs'⟩ := hq
    exact ⟨cs, by rw [orElse_apply, hs, Outcome.orElse_nil, hs']⟩
  | ⟨c :: cs, hs⟩ =>
    exact ⟨c :: cs, by rw [orElse_apply, hs, Outcome.orElse_cons]⟩

/-- **A sequence ends** on a text if its first part does, and what follows does
  on all shorter texts, and on the text itself unless the first part takes
  something. -/
theorem bind {k : α → Parser β} (hp : LeavesSuffix p) (h : EndsOn p s)
    (hlater : ∀ a (t : Text), t.length < s.length → EndsOn (k a) t)
    (hnow : Consumes p ∨ ∀ a, EndsOn (k a) s) : EndsOn (p >>= k) s := by
  match h with
  | ⟨[], hs⟩ => exact ⟨[], by rw [bind_apply, hs, Outcome.commit_nil]⟩
  | ⟨(a, r) :: others, hs⟩ =>
    have ha : Offers p s a r := ⟨_, hs, List.mem_cons_self⟩
    have hr : r <:+ s := hp hs (a, r) List.mem_cons_self
    suffices h : EndsOn (k a) r by
      obtain ⟨cs, hcs⟩ := h
      exact ⟨cs, by rw [bind_apply, hs, Outcome.commit_cons, hcs]⟩
    by_cases hlength : r.length < s.length
    · exact hlater a r hlength
    · -- nothing was taken, so the text is the same
      obtain rfl := hr.eq_of_length
        (Nat.le_antisymm hr.length_le (Nat.le_of_not_lt hlength))
      obtain hconsumes | hnow := hnow
      · exact absurd (hconsumes ha) hlength
      · exact hnow a

theorem seq {pf : Parser (α → β)} (hf : LeavesSuffix pf) (h : EndsOn pf s)
    (hlater : ∀ t : Text, t.length < s.length → EndsOn p t)
    (hnow : Consumes pf ∨ EndsOn p s) : EndsOn (pf <*> p) s :=
  bind (k := fun f => f <$> p) hf h (fun f t ht => (hlater t ht).map f)
    (hnow.imp_right fun h f => h.map f)

/-- **A repetition ends** if every success of what is repeated leaves less text,
  and it ends. -/
theorem many (hp : Shrinks p) (h : EndsOn p s)
    (hlater : ∀ t : Text, t.length < s.length → EndsOn p t) :
    EndsOn (many p) s := by
  obtain ⟨as, t, hc⟩ := exists_chain hp s h hlater
  exact ⟨_, many_eq_of_chain hp hc⟩

end EndsOn

end Parser

end CommittedChoice
