import CommittedChoice.Proofs.Lexer.Span
import CommittedChoice.Proofs.Parser.Choice

/-!
# Literals

A literal is read character by character, and its value is put together behind
the last one. All the same it is a test for a prefix: it has one candidate, the
literal and the text behind it, if the text begins with the literal, and none
otherwise. A partial match is a failed match, so a choice has its second side on
the text as it was.

Two consequences say how literals are combined. Reading one literal and then
another is reading both as one (`Lexer.literal_append_eq`). And of two literals
in a choice, the second is out of reach exactly if the first is a prefix of it
(`Lexer.literal_orElse_eq_iff`): the longer literal has to stand in front.
-/

namespace CommittedChoice

namespace Lexer

open CommittedChoice.Parser

variable {α : Type} {l s : Text}

/-- **A text begins with a literal**, and that is its only candidate, **or it
  does not**. -/
theorem literal_cases (l s : Text) :
    (∃ r, s = l ++ r ∧ literal l s = some [(l, r)])
      ∨ (¬ l <+: s ∧ literal l s = some []) := by
  by_cases h : l <+: s
  · obtain ⟨r, rfl⟩ := h
    exact .inl ⟨r, rfl, literal_append l r⟩
  · exact .inr ⟨h, literal_of_not_isPrefix h⟩

/-- A literal fails exactly on the texts that do not begin with it. -/
theorem literal_eq_nil_iff : literal l s = some [] ↔ ¬ l <+: s := by
  refine ⟨fun h hl => ?_, literal_of_not_isPrefix⟩
  obtain ⟨r, rfl⟩ := hl
  exact absurd ((literal_append l r).symm.trans h) (by simp)

/-- **A partial match leaves no trace**, also of what would have come
  behind it. -/
theorem literal_bind_orElse (h : ¬ l <+: s) (k : Text → Parser α)
    (q : Parser α) :
    (literal l >>= k <|> q) s = q s :=
  orElse_of_nil
    (by rw [bind_apply, literal_of_not_isPrefix h, Outcome.commit_nil]) q

/-- **One literal behind another** is a literal, with their values put
  together. -/
theorem literal_append_eq (a b : Text) :
    literal (a ++ b) = literal a >>= fun x => (x ++ ·) <$> literal b := by
  ext1 s
  rw [bind_apply]
  obtain ⟨t, rfl, ha⟩ | ⟨hs, ha⟩ := literal_cases a s
  · rw [ha, Outcome.commit_cons, map_apply]
    -- what comes behind the first literal decides
    obtain ⟨r, rfl, hb⟩ | ⟨ht, hb⟩ := literal_cases b t
    · rw [hb, ← List.append_assoc, literal_append]
      rfl
    · rw [hb, literal_of_not_isPrefix
        (mt (List.prefix_append_right_inj a).1 ht)]
      rfl
  · have hab : ¬ a ++ b <+: s := fun h => hs ((List.prefix_append a b).trans h)
    rw [ha, literal_of_not_isPrefix hab, Outcome.commit_nil]

/-- **A second literal is out of reach** exactly if the first one is a prefix
  of it. -/
theorem literal_orElse_eq_iff {a b : Text} :
    (literal a <|> literal b) = literal a ↔ a <+: b := by
  constructor
  · intro h
    by_cases hab : a <+: b
    · exact hab
    · -- on the second literal itself, the choice has it
      have hb : (literal a <|> literal b) b = some [(b, [])] := by
        rw [orElse_of_nil (literal_of_not_isPrefix hab)]
        simpa using literal_append b []
      rw [h, literal_of_not_isPrefix hab] at hb
      exact absurd hb (by simp)
  · intro hab
    ext1 s
    obtain ⟨r, -, ha⟩ | ⟨hs, ha⟩ := literal_cases a s
    · exact orElse_of_ne_nil (by rw [ha]; simp) _
    · have hb : ¬ b <+: s := fun h => hs (hab.trans h)
      rw [orElse_of_nil ha, ha, literal_of_not_isPrefix hb]

/-- **A literal is the test for a prefix.** On a text that begins with the
  literal, it has the literal and the text behind it for its only candidate; on
  all other texts it fails, and a choice, whatever was to come behind the
  literal, has its second side. One literal behind another is both of them as
  one, and behind a literal in a choice, a longer one that begins with it is out
  of reach, and no others are. -/
theorem literal_tests_prefix (l : Text) :
    (∀ s r, s = l ++ r → literal l s = some [(l, r)])
      ∧ (∀ s, ¬ l <+: s → literal l s = some []
          ∧ (∀ q : Parser Text, (literal l <|> q) s = q s)
          ∧ ∀ {α : Type} (k : Text → Parser α) (q : Parser α),
              (literal l >>= k <|> q) s = q s)
      ∧ (∀ s, literal l s = some [] ↔ ¬ l <+: s)
      ∧ (∀ b, literal (l ++ b)
          = literal l >>= fun x => (fun y => x ++ y) <$> literal b)
      ∧ (∀ b, (literal l <|> literal (l ++ b)) = literal l)
      ∧ ∀ b, (literal l <|> literal b) = literal l ↔ l <+: b := by
  refine ⟨?_, fun s h =>
      ⟨literal_of_not_isPrefix h, orElse_of_nil (literal_of_not_isPrefix h),
        literal_bind_orElse h⟩,
    fun s => literal_eq_nil_iff, literal_append_eq l,
    fun b => literal_orElse_eq_iff.2 (List.prefix_append l b),
    fun b => literal_orElse_eq_iff⟩
  rintro s r rfl
  exact literal_append l r

/-- A text that differs from the literal in its last character. -/
theorem literal_tests_prefix_accent :
    ("hélène !".toList = "hélène".toList ++ " !".toList
        ∧ literal "hélène".toList "hélène !".toList
            = some [("hélène".toList, " !".toList)])
      ∧ ¬ "hélène".toList <+: "hélèna".toList
      ∧ literal "hélène".toList "hélèna".toList = some []
      ∧ (literal "hélène".toList <|> literal "hél".toList) "hélèna".toList
          = some [("hél".toList, "èna".toList)] := by
  obtain ⟨htake, hfail, -⟩ := literal_tests_prefix "hélène".toList
  have hprefix : ¬ "hélène".toList <+: "hélèna".toList := by decide +kernel
  obtain ⟨hnil, hsecond, -⟩ := hfail _ hprefix
  exact ⟨⟨rfl, htake _ _ rfl⟩, hprefix, hnil,
    (hsecond _).trans (by decide +kernel)⟩

end Lexer

end CommittedChoice
