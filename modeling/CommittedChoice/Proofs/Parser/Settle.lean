import CommittedChoice.Proofs.Parser.Ending

/-!
# Settled texts

A parser settles a text if its run on the text ends, with one candidate or with
none, and its candidate takes a certain number of characters. What the parts of
a sequence take adds up, and a repetition settles a text if what is repeated
takes something each time. All lexers settle every text, and except for white
space and the empty literal they take something.
-/

namespace CommittedChoice

namespace Parser

variable {α β γ : Type} {s : Text} {k l : Nat}

/-- **A parser settles a text** if its run ends with at most one candidate,
  which takes a number of characters or more. -/
def Settles (p : Parser α) (s : Text) (k : Nat) : Prop :=
  p s = some [] ∨ ∃ a r, p s = some [(a, r)] ∧ r.length + k ≤ s.length

theorem Settles.mono {p : Parser α} (h : Settles p s l) (hkl : k ≤ l) :
    Settles p s k := by
  obtain h | ⟨a, r, h, hr⟩ := h
  · exact .inl h
  · exact .inr ⟨a, r, h, Nat.le_trans (Nat.add_le_add_left hkl _) hr⟩

theorem Settles.endsOn {p : Parser α} (h : Settles p s k) : EndsOn p s := by
  obtain h | ⟨a, r, h, -⟩ := h
  · exact ⟨_, h⟩
  · exact ⟨_, h⟩

theorem consumes_of_settles {p : Parser α} (hp : ∀ s, Settles p s 1) :
    Consumes p := by
  intro s a r h
  obtain hs | ⟨a', r', hs, hr⟩ := hp s
  · exact absurd h (not_offers_of_nil hs)
  · obtain ⟨-, rfl⟩ := eq_of_offers hs h
    exact hr

theorem settles_pure (a : α) (s : Text) : Settles (pure a) s 0 :=
  .inr ⟨a, s, rfl, Nat.le_refl _⟩

theorem settles_ofOption_pure (o : Option α) (s : Text) :
    Settles (ofOption (o.map pure)) s 0 := by
  cases o with
  | none => exact .inl rfl
  | some a => exact settles_pure a s

theorem settles_item (s : Text) : Settles item s 1 := by
  cases s with
  | nil => exact .inl rfl
  | cons c s => exact .inr ⟨c, s, rfl, Nat.le_refl _⟩

/-- What the parts of a sequence take adds up. -/
theorem settles_bind {p : Parser α} {f : α → Parser β} (hp : Settles p s k)
    (hf : ∀ a r, r.length + k ≤ s.length → Settles (f a) r l) :
    Settles (p >>= f) s (l + k) := by
  unfold Settles
  rw [bind_apply]
  obtain hs | ⟨a, r, hs, hr⟩ := hp
  · exact .inl (by rw [hs, Outcome.commit_nil])
  rw [hs, Outcome.commit_cons]
  obtain hs' | ⟨b, r', hs', hr'⟩ := hf a r hr
  · exact .inl hs'
  · exact .inr ⟨b, r', hs', by omega⟩

theorem settles_orElse {p q : Parser α} (hp : Settles p s k)
    (hq : Settles q s k) :
    Settles (p <|> q) s k := by
  unfold Settles
  rw [orElse_apply]
  obtain hs | ⟨a, r, hs, hr⟩ := hp
  · rw [hs, Outcome.orElse_nil]
    exact hq
  · rw [hs, Outcome.orElse_cons]
    exact .inr ⟨a, r, rfl, hr⟩

theorem settles_sat (q : Char → Bool) (s : Text) : Settles (sat q) s 1 :=
  settles_bind (l := 0) (settles_item s) fun c r _ => by
    split
    · exact settles_pure c r
    · exact .inl rfl

/-- A repetition needs progress to settle a text. -/
theorem settles_many {p : Parser α} (hp : ∀ s, Settles p s 1) (s : Text) :
    Settles (many p) s 0 := by
  have hshrinks : Shrinks p := (consumes_of_settles hp).shrinks
  obtain ⟨as, t, hc⟩ := exists_chain hshrinks s (hp s).endsOn fun t _ =>
    (hp t).endsOn
  have hlength := hc.length_add_length_le hshrinks
  exact .inr ⟨as, t, many_eq_of_chain hshrinks hc, by omega⟩

/-- One time or more takes what the first time takes. -/
theorem settles_many1 {p : Parser α} (hp : ∀ s, Settles p s 1) (s : Text) :
    Settles (many1 p) s 1 := by
  unfold Settles many1
  rw [seq_apply, map_apply]
  obtain hs | ⟨a, r, hs, hr⟩ := hp s
  · exact .inl (by rw [hs]; rfl)
  · rw [hs]
    obtain hs' | ⟨as, t, hs', ht⟩ := settles_many hp r
    · exact .inl (by simp [hs'])
    · exact .inr ⟨a :: as, t, by simp [hs'], by omega⟩

/-- Delimiters and their content take what they take together. -/
theorem settles_between {opening : Parser β} {content : Parser α}
    {closing : Parser γ} {i j : Nat} (ho : Settles opening s i)
    (hc : ∀ t : Text, t.length + i ≤ s.length → Settles content t k)
    (hc' : ∀ t, Settles closing t j) :
    Settles (between opening content closing) s (j + k + i) := by
  have hclose (a : α) (t : Text) :
      Settles (closing >>= fun _ => pure a) t (0 + j) :=
    settles_bind (hc' t) fun _ r _ => settles_pure a r
  have hcontent (t : Text) (ht : t.length + i ≤ s.length) :
      Settles (content >>= fun a => closing >>= fun _ => pure a) t
        (0 + j + k) :=
    settles_bind (hc t ht) fun a r _ => hclose a r
  rw [← Nat.zero_add j]
  exact settles_bind ho fun _ t ht => hcontent t ht

/-- A list with separators takes what its first element takes. -/
theorem settles_sepBy {p : Parser α} {separator : Parser β}
    (hp : ∀ s, Settles p s 1) (hseparator : ∀ s, Settles separator s 0)
    (s : Text) :
    Settles (sepBy p separator) s 1 := by
  have hothers (s : Text) : Settles (separator >>= fun _ => p) s 1 :=
    settles_bind (hseparator s) fun _ r _ => hp r
  have hmany (a : α) (s : Text) :
      Settles (many (separator >>= fun _ => p) >>= fun as =>
        pure (a :: as)) s 0 :=
    settles_bind (settles_many hothers s) fun as r _ => settles_pure (a :: as) r
  exact settles_bind (l := 0) (hp s) fun a r _ => hmany a r

end Parser

namespace Lexer

open CommittedChoice.Parser

variable {α : Type} {s : Text} {k : Nat}

/-! ## The lexers -/

theorem length_skipBlanks_le (s : Text) : (skipBlanks s).length ≤ s.length :=
  (skipBlanks_suffix s).length_le

/-- White space may be missing. -/
theorem settles_space (s : Text) : Settles space s 0 :=
  .inr ⟨(), _, space_apply s, length_skipBlanks_le s⟩

theorem settles_token {p : Parser α} (hp : Settles p (skipBlanks s) k) :
    Settles (token p) s k := by
  unfold Settles
  rw [token_apply]
  obtain hs | ⟨a, r, hs, hr⟩ := hp
  · exact .inl hs
  · exact .inr ⟨a, r, hs, Nat.le_trans hr (length_skipBlanks_le s)⟩

/-- A literal takes all of its characters, … -/
theorem settles_literal (l s : Text) : Settles (literal l) s l.length := by
  by_cases h : l <+: s
  · obtain ⟨r, rfl⟩ := h
    refine .inr ⟨l, r, literal_append l r, Nat.le_of_eq ?_⟩
    rw [List.length_append, Nat.add_comm]
  · exact .inl (literal_of_not_isPrefix h)

/-- … and so does a symbol. -/
theorem settles_symbol (l s : Text) : Settles (symbol l) s l.length :=
  settles_token (settles_literal l _)

/-- So a symbol of one character leaves less text. -/
theorem shrinks_symbol (c : Char) : Shrinks (symbol [c]) :=
  (consumes_of_settles (settles_symbol [c])).shrinks

/-- A number takes a digit or more. -/
theorem settles_digits (read : Nat → Int) (s : Text) :
    Settles (digits read) s 1 :=
  settles_bind (l := 0) (settles_many1 (settles_sat _) s) fun ds r _ =>
    settles_ofOption_pure (Word.ofInt? (read (Decimal.value ds))) r

theorem settles_int (s : Text) : Settles int s 1 := by
  have hminus : Settles (char '-' >>= fun _ => digits fun n => -n) s (1 + 1) :=
    settles_bind (settles_sat _ s) fun _ r _ => settles_digits _ r
  exact settles_orElse (hminus.mono (by decide)) (settles_digits _ s)

theorem settles_ident (s : Text) : Settles ident s 1 := by
  have hothers (c : Char) (r : Text) :
      Settles (many alphanum >>= fun cs => pure (c :: cs)) r 0 :=
    settles_bind (settles_many (settles_sat _) r) fun cs t _ =>
      settles_pure (c :: cs) t
  exact settles_bind (l := 0) (settles_sat _ s) fun c r _ => hothers c r

theorem settles_natural (s : Text) : Settles natural s 1 :=
  settles_token (settles_digits _ _)

/-- A list of numbers takes its brackets, and a number. -/
theorem settles_nats (s : Text) : Settles nats s 3 :=
  settles_between (settles_symbol ['['] s)
    (fun t _ => settles_sepBy settles_natural
      (fun s => (settles_symbol [','] s).mono (Nat.zero_le 1)) t)
    (settles_symbol [']'])

end Lexer

end CommittedChoice
