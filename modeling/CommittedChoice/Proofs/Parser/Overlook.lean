import CommittedChoice.Complete
import CommittedChoice.Proofs.Lexer.Span

/-!
# Text behind

Let a text be continued by another one. Usually this changes what a parser
finds, as it may go on where the first text ended. If it does not, the parser
*overlooks* the text behind: it has the same candidates with the same values,
and each of them leaves the text behind as well.

A parser may overlook a text behind some texts and not behind others. In a
sequence, the last part has to overlook it behind what the first candidate
leaves, and this is all that is needed (`Parser.overlooks_bind`). A choice needs
it of both sides on the very same text: it then falls through in both runs or
in none.

A token needs more, because the white space in front of it may reach over to the
text behind. Where nothing but white space is left, it has to fail, and so it
has to fail on the text behind as well (`Lexer.overlooks_token`).
-/

namespace CommittedChoice

variable {α β γ : Type}

/-- **An outcome in front of a text**: every candidate leaves that text
  as well. -/
def Outcome.inFrontOf (o : Outcome α) (t : Text) : Outcome α :=
  Option.map (List.map fun c => (c.1, c.2 ++ t)) o

namespace Parser

variable {s t : Text}

/-- **Overlooking a text** behind another one: the outcome is that of the run
  without it, in front of it. -/
def Overlooks (p : Parser α) (t s : Text) : Prop :=
  p (s ++ t) = (p s).inFrontOf t

/-- A failed match stays one, … -/
theorem Overlooks.of_nil {p : Parser α} (hp : Overlooks p t s)
    (h : p s = some []) :
    p (s ++ t) = some [] := by
  rw [hp, h]
  rfl

/-- … and the first candidate has the same value. -/
theorem Overlooks.of_cons {p : Parser α} (hp : Overlooks p t s) {a : α}
    {r : Text} {others : List (Candidate α)}
    (h : p s = some ((a, r) :: others)) :
    p (s ++ t) = some ((a, r ++ t) :: others.map fun c => (c.1, c.2 ++ t)) := by
  rw [hp, h]
  rfl

/-! ## Whole texts -/

/-- The text behind is unused input, … -/
theorem Overlooks.complete_of_ok {p : Parser α} (hp : Overlooks p t s)
    (ht : t ≠ []) {a : α} (h : p.complete s = some (.ok a)) :
    p.complete (s ++ t) = some (.error (.unusedInput t)) := by
  obtain ⟨others, hs⟩ := complete_eq_ok_iff.1 h
  exact complete_eq_unusedInput_iff.2 ⟨ht, a, _, hp.of_cons hs⟩

/-- … or the end of it, … -/
theorem Overlooks.complete_of_unusedInput {p : Parser α} (hp : Overlooks p t s)
    {r : Text} (h : p.complete s = some (.error (.unusedInput r))) :
    p.complete (s ++ t) = some (.error (.unusedInput (r ++ t))) := by
  obtain ⟨hr, a, others, hs⟩ := complete_eq_unusedInput_iff.1 h
  exact complete_eq_unusedInput_iff.2 ⟨by simp [hr], a, _, hp.of_cons hs⟩

/-- … unless there is no match, with or without it. -/
theorem Overlooks.complete_of_noMatch {p : Parser α} (hp : Overlooks p t s)
    (h : p.complete s = some (.error .noMatch)) :
    p.complete (s ++ t) = some (.error .noMatch) :=
  complete_eq_noMatch_iff.2 (hp.of_nil (complete_eq_noMatch_iff.1 h))

/-! ## The operations -/

theorem overlooks_pure (a : α) (t s : Text) : Overlooks (pure a) t s := rfl

theorem overlooks_ofOption_pure (o : Option α) (t s : Text) :
    Overlooks (ofOption (o.map pure)) t s := by
  cases o with
  | none => rfl
  | some a => rfl

/-- A character of a class, if the text behind does not begin with one. -/
theorem overlooks_sat {q : Char → Bool} (ht : ∀ c ∈ t.head?, q c = false)
    (s : Text) :
    Overlooks (sat q) t s := by
  unfold Overlooks
  cases s with
  | nil => rw [List.nil_append, sat_of_head ht]; rfl
  | cons c s =>
    rw [List.cons_append, sat_cons, sat_cons]
    split
    · rfl
    · rfl

/-- The longest run of a class stays the same, … -/
theorem takeWhile_append_of_head?_ne {q : Char → Bool}
    (ht : ∀ c ∈ t.head?, q c = false) (s : Text) :
    (s ++ t).takeWhile q = s.takeWhile q
      ∧ (s ++ t).dropWhile q = s.dropWhile q ++ t := by
  have hrun : ∀ c ∈ s.takeWhile q, q c = true :=
    List.all_eq_true.1 List.all_takeWhile
  have hrest : ∀ c ∈ (s.dropWhile q ++ t).head?, q c = false := by
    intro c hc
    match h : s.dropWhile q with
    | [] => exact ht c (by simpa [h] using hc)
    | d :: r =>
      obtain rfl : d = c := by simpa [h] using hc
      exact head_dropWhile q s d (by rw [h]; rfl)
  have hs : s ++ t = s.takeWhile q ++ (s.dropWhile q ++ t) := by
    rw [← List.append_assoc, List.takeWhile_append_dropWhile]
  rw [hs]
  exact ⟨takeWhile_append_of_head hrun hrest,
    dropWhile_append_of_head hrun hrest⟩

/-- … and with it one character of the class or more. -/
theorem overlooks_many1_sat {q : Char → Bool} (ht : ∀ c ∈ t.head?, q c = false)
    (s : Text) :
    Overlooks (many1 (sat q)) t s := by
  obtain ⟨htake, hdrop⟩ := takeWhile_append_of_head?_ne ht s
  unfold Overlooks
  rw [many1_sat, many1_sat, htake, hdrop]
  split
  · rfl
  · rfl

/-- **A sequence overlooks a text** if its last part does, behind the first
  candidate. -/
theorem overlooks_bind {p : Parser α} {k : α → Parser β} (hp : Overlooks p t s)
    (hk : ∀ a r others, p s = some ((a, r) :: others) → Overlooks (k a) t r) :
    Overlooks (p >>= k) t s := by
  unfold Overlooks at hp ⊢
  rw [bind_apply, bind_apply, hp]
  match hs : p s with
  | none => rfl
  | some [] => rfl
  | some ((a, r) :: others) => exact hk a r others hs

/-- **A choice** overlooks a text if both sides do. -/
theorem overlooks_orElse {p q : Parser α} (hp : Overlooks p t s)
    (hq : Overlooks q t s) :
    Overlooks (p <|> q) t s := by
  unfold Overlooks at hp hq ⊢
  rw [orElse_apply, orElse_apply, hp]
  match p s with
  | none => rfl
  | some [] => exact hq
  | some (c :: cs) => rfl

/-- Content in delimiters. -/
theorem overlooks_between {opening : Parser α} {content : Parser β}
    {closing : Parser γ} (ho : Overlooks opening t s)
    (hc : ∀ a r others, opening s = some ((a, r) :: others) →
      Overlooks content t r)
    (hc' : ∀ r, Overlooks closing t r) :
    Overlooks (between opening content closing) t s :=
  overlooks_bind ho fun a r others h =>
    overlooks_bind (hc a r others h) fun b r' _ _ =>
    overlooks_bind (hc' r') fun _ r'' _ _ => overlooks_pure b t r''

end Parser

namespace Lexer

open CommittedChoice.Parser

variable {s t : Text}

/-- **A token** overlooks a text if what it stands for does, and fails at the
  end of a text and on the text behind. -/
theorem overlooks_token {p : Parser α} (hp : Overlooks p t (skipBlanks s))
    (hnil : p [] = some []) (ht : p (skipBlanks t) = some []) :
    Overlooks (token p) t s := by
  unfold Overlooks at hp ⊢
  rw [token_apply, token_apply]
  by_cases hs : skipBlanks s = []
  · -- the white space reaches over to the text behind
    have hblank : skipBlanks (s ++ t) = skipBlanks t := by
      unfold skipBlanks at hs ⊢
      rw [List.dropWhile_append, hs]
      rfl
    rw [hblank, ht, hs, hnil]
    rfl
  · have hfront : skipBlanks (s ++ t) = skipBlanks s ++ t := by
      unfold skipBlanks at hs ⊢
      rw [List.dropWhile_append, if_neg (by simpa using hs)]
    rw [hfront, hp]

/-- A symbol of one character overlooks what does not begin with it. -/
theorem overlooks_symbol {c : Char} (ht : ∀ d ∈ t.head?, d ≠ c)
    (hblank : ∀ d ∈ (skipBlanks t).head?, d ≠ c) (s : Text) :
    Overlooks (symbol [c]) t s := by
  refine overlooks_token ?_ rfl ?_
  · refine overlooks_bind (overlooks_sat (fun d hd => ?_) _) fun _ r _ _ => ?_
    · exact beq_false_of_ne (ht d hd)
    · exact overlooks_bind (overlooks_pure [] t r) fun _ r _ _ =>
        overlooks_pure [c] t r
  · refine literal_of_not_isPrefix fun ⟨r, hr⟩ => hblank c ?_ rfl
    rw [← hr]
    rfl

/-- A number overlooks what does not begin with a digit. -/
theorem overlooks_digits (read : Nat → Int)
    (ht : ∀ c ∈ t.head?, c.isDigit = false) (s : Text) :
    Overlooks (digits read) t s :=
  overlooks_bind (overlooks_many1_sat ht s) fun ds r _ _ =>
    overlooks_ofOption_pure (Word.ofInt? (read (Decimal.value ds))) t r

theorem overlooks_natural (ht : ∀ c ∈ t.head?, c.isDigit = false)
    (hblank : ∀ c ∈ (skipBlanks t).head?, c.isDigit = false) (s : Text) :
    Overlooks natural t s := by
  refine overlooks_token (overlooks_digits _ ht _) rfl ?_
  have hnone : (skipBlanks t).takeWhile Char.isDigit = [] :=
    (takeWhile_append_of_head?_ne hblank []).1
  unfold nat
  rw [digits_apply, if_pos hnone]

end Lexer

end CommittedChoice
