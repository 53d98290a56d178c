import CommittedChoice.Proofs.Lexer.Span

/-!
# The longest run, and identifiers

A repeated class takes the longest prefix of the text that has characters of the
class only. What longest means is a statement on all prefixes
(`Parser.LongestRun`), but one look is enough to see it: a run is the longest
one if it does not go on, that is if the text behind it is at its end or has a
character of another kind in front (`Parser.longestRun_iff`). This character is
still there when the run is taken.

Behind its first letter an identifier is such a run. So the text behind an
identifier never starts with a letter or a digit, and an identifier is read back
from any text in which something else comes behind it (`Lexer.ident_eq_iff`).
Which letters and digits these are is a matter of code points: those of ASCII,
and no others.
-/

namespace CommittedChoice

namespace Parser

variable {q : Char → Bool} {s run run' rest rest' : Text}

/-! ## The longest run of a class -/

/-- **The longest run of a class**: a prefix of the text with characters of the
  class only, that no other such prefix exceeds, and the text behind it. -/
structure LongestRun (q : Char → Bool) (s run rest : Text) : Prop where
  /-- Nothing is lost. -/
  text_eq : s = run ++ rest
  /-- All characters of the run are of the class. -/
  of_class : ∀ c ∈ run, q c = true
  /-- No prefix of such characters has more of them. -/
  longest : ∀ front, front <+: s → (∀ c ∈ front, q c = true) →
    front.length ≤ run.length

/-- **The longest run is determined** by the class and the text. -/
theorem LongestRun.unique (h : LongestRun q s run rest)
    (h' : LongestRun q s run' rest') :
    run' = run ∧ rest' = rest := by
  have hprefix : run <+: s := ⟨rest, h.text_eq.symm⟩
  have hprefix' : run' <+: s := ⟨rest', h'.text_eq.symm⟩
  have hle : run'.length ≤ run.length := h.longest run' hprefix' h'.of_class
  have hge : run.length ≤ run'.length := h'.longest run hprefix h.of_class
  obtain rfl : run' = run :=
    (List.prefix_of_prefix_length_le hprefix' hprefix hle).eq_of_length_le hge
  exact ⟨rfl, List.append_cancel_left (h'.text_eq.symm.trans h.text_eq)⟩

/-- With a character of the class behind it, a run is not the longest one. -/
theorem LongestRun.head_rest (h : LongestRun q s run rest) :
    ∀ c ∈ rest.head?, q c = false := by
  intro c hc
  obtain ⟨t, rfl⟩ : ∃ t, rest = c :: t := List.head?_eq_some_iff.1 hc
  cases hq : q c with
  | false => rfl
  | true =>
    have hprefix : run ++ [c] <+: s :=
      ⟨t, by rw [h.text_eq, List.append_assoc]; rfl⟩
    have hclass : ∀ d ∈ run ++ [c], q d = true := by
      intro d hd
      obtain hd | hd := List.mem_append.1 hd
      · exact h.of_class d hd
      · rw [List.mem_singleton.1 hd, hq]
    have hlength := h.longest _ hprefix hclass
    rw [List.length_append, List.length_singleton] at hlength
    omega

/-- **The longest run is the one that does not go on.** -/
theorem longestRun_iff :
    LongestRun q s run rest
      ↔ s = run ++ rest ∧ (∀ c ∈ run, q c = true)
          ∧ ∀ c ∈ rest.head?, q c = false := by
  refine ⟨fun h => ⟨h.text_eq, h.of_class, h.head_rest⟩, ?_⟩
  rintro ⟨rfl, hrun, hrest⟩
  refine ⟨rfl, hrun, fun front hfront hclass => ?_⟩
  obtain ⟨t, ht⟩ := hfront
  -- either the prefix ends within the run, or it starts with the whole of it
  obtain ⟨u, rfl, -⟩ | ⟨u, rfl, hu⟩ := List.append_eq_append_iff.1 ht
  · rw [List.length_append]
    omega
  · match u with
    | [] => exact Nat.le_of_eq (congrArg List.length (List.append_nil run))
    | c :: u =>
      have hc : q c = true :=
        hclass c (List.mem_append_right run List.mem_cons_self)
      have hc' : q c = false := hrest c (by rw [hu]; rfl)
      exact absurd (hc'.symm.trans hc) Bool.false_ne_true

/-- Taking characters while they are of the class finds it. -/
theorem longestRun_takeWhile (q : Char → Bool) (s : Text) :
    LongestRun q s (s.takeWhile q) (s.dropWhile q) := by
  have hclass : ∀ c ∈ s.takeWhile q, q c = true :=
    List.all_eq_true.1 List.all_takeWhile
  exact longestRun_iff.2
    ⟨List.takeWhile_append_dropWhile.symm, hclass, head_dropWhile q s⟩

/-- **A repeated class takes the longest run.** -/
theorem LongestRun.many_sat (h : LongestRun q s run rest) :
    many (sat q) s = some [(run, rest)] := by
  obtain ⟨rfl, rfl⟩ := (longestRun_takeWhile q s).unique h
  exact Parser.many_sat q s

/-- One character or more is the same run, unless there is none. -/
theorem LongestRun.many1_sat (h : LongestRun q s run rest) :
    many1 (sat q) s = if run = [] then some [] else some [(run, rest)] := by
  obtain ⟨rfl, rfl⟩ := (longestRun_takeWhile q s).unique h
  exact Parser.many1_sat q s

end Parser

namespace Lexer

open CommittedChoice.Parser

variable {s t w name : Text} {c : Char}

/-! ## Letters and digits by their code points -/

/-- **A small letter** of ASCII. -/
def IsSmallLetter (c : Char) : Prop := 0x61 ≤ c.toNat ∧ c.toNat ≤ 0x7A

/-- **A letter or a digit** of ASCII: a digit, a capital letter or a
  small one. -/
def IsLetterOrDigit (c : Char) : Prop :=
  (0x30 ≤ c.toNat ∧ c.toNat ≤ 0x39) ∨ (0x41 ≤ c.toNat ∧ c.toNat ≤ 0x5A)
    ∨ IsSmallLetter c

/-- The class of the first letter is that of the small letters, … -/
theorem isLower_iff : c.isLower = true ↔ IsSmallLetter c :=
  Bool.and_eq_true_iff.trans (and_congr decide_eq_true_iff decide_eq_true_iff)

/-- … and the class of what comes behind it that of letters and digits. -/
theorem isAlphanum_iff : c.isAlphanum = true ↔ IsLetterOrDigit c := by
  have hupper : c.isUpper = true ↔ 0x41 ≤ c.toNat ∧ c.toNat ≤ 0x5A :=
    decide_eq_true_iff
  calc c.isAlphanum = true
      ↔ c.isAlpha = true ∨ c.isDigit = true := Bool.or_eq_true_iff
    _ ↔ (c.isUpper = true ∨ c.isLower = true) ∨ c.isDigit = true :=
        or_congr_left Bool.or_eq_true_iff
    _ ↔ c.isDigit = true ∨ c.isUpper = true ∨ c.isLower = true := or_comm
    _ ↔ IsLetterOrDigit c :=
      or_congr Char.isDigit_iff_toNat (or_congr hupper isLower_iff)

theorem isAlphanum_eq_false_iff :
    c.isAlphanum = false ↔ ¬ IsLetterOrDigit c := by
  rw [← isAlphanum_iff, Bool.not_eq_true]

/-! ## Identifiers -/

/-- **The spelling of an identifier**: a small letter, then letters and
  digits. -/
inductive IsIdentifier : Text → Prop where
  | intro {c : Char} {w : Text} (hc : IsSmallLetter c)
    (hw : ∀ d ∈ w, IsLetterOrDigit d) :
      IsIdentifier (c :: w)

/-- What comes behind the first letter is the longest run of letters and
  digits. -/
theorem longestRun_alphanum_iff :
    LongestRun Char.isAlphanum s w t
      ↔ s = w ++ t ∧ (∀ d ∈ w, IsLetterOrDigit d)
          ∧ ∀ d ∈ t.head?, ¬ IsLetterOrDigit d := by
  rw [longestRun_iff]
  simp only [isAlphanum_iff, isAlphanum_eq_false_iff]

/-- No identifier starts without a small letter, … -/
theorem ident_of_head (h : ∀ c ∈ s.head?, ¬ IsSmallLetter c) :
    ident s = some [] := by
  have hlower : lower s = some [] := sat_of_head fun c hc =>
    Bool.eq_false_iff.2 (mt isLower_iff.1 (h c hc))
  unfold ident
  rw [bind_apply, hlower, Outcome.commit_nil]

/-- … and any small letter starts one. -/
theorem ident_cons (hc : IsSmallLetter c)
    (h : LongestRun Char.isAlphanum s w t) :
    ident (c :: s) = some [(c :: w, t)] := by
  have hlower : lower (c :: s) = some [(c, s)] := by
    unfold lower
    rw [sat_cons, if_pos (isLower_iff.2 hc)]
  have hmany : many alphanum s = some [(w, t)] := h.many_sat
  unfold ident
  rw [bind_apply, hlower, Outcome.commit_cons, bind_apply, hmany]
  rfl

/-- **An identifier is read back** from any text in which no letter and no digit
  comes behind it. -/
theorem ident_append (hname : IsIdentifier name)
    (ht : ∀ d ∈ t.head?, ¬ IsLetterOrDigit d) :
    ident (name ++ t) = some [(name, t)] := by
  obtain ⟨hc, hw⟩ := hname
  exact ident_cons hc (longestRun_alphanum_iff.2 ⟨rfl, hw, ht⟩)

/-- A text that starts with a small letter is an identifier and a text
  behind it. -/
theorem exists_identifier (h : ∃ c ∈ s.head?, IsSmallLetter c) :
    ∃ name t, s = name ++ t ∧ IsIdentifier name
      ∧ ∀ d ∈ t.head?, ¬ IsLetterOrDigit d := by
  obtain ⟨c, hc, hsmall⟩ := h
  obtain ⟨s, rfl⟩ := List.head?_eq_some_iff.1 hc
  obtain ⟨htext, hw, ht⟩ := longestRun_alphanum_iff.1 (longestRun_takeWhile _ s)
  exact ⟨c :: s.takeWhile Char.isAlphanum, s.dropWhile Char.isAlphanum,
    congrArg (List.cons c) htext, .intro hsmall hw, ht⟩

/-- **A text has an identifier in front** exactly if it starts with a small
  letter, … -/
theorem exists_ident_iff :
    (∃ name t, ident s = some [(name, t)])
      ↔ ∃ c ∈ s.head?, IsSmallLetter c := by
  constructor
  · rintro ⟨name, t, hs⟩
    by_cases h : ∃ c ∈ s.head?, IsSmallLetter c
    · exact h
    · rw [ident_of_head fun c hc hsmall => h ⟨c, hc, hsmall⟩] at hs
      simp at hs
  · intro h
    obtain ⟨name, t, rfl, hname, ht⟩ := exists_identifier h
    exact ⟨name, t, ident_append hname ht⟩

/-- … and has none in all other cases. -/
theorem ident_eq_nil_iff :
    ident s = some [] ↔ ¬ ∃ c ∈ s.head?, IsSmallLetter c := by
  constructor
  · intro hs h
    obtain ⟨name, t, hs'⟩ := exists_ident_iff.2 h
    simp [hs] at hs'
  · intro h
    exact ident_of_head fun c hc hsmall => h ⟨c, hc, hsmall⟩

/-- **The identifier in front of a text** ends where no letter and no digit
  follows. -/
theorem ident_eq_iff :
    ident s = some [(name, t)]
      ↔ s = name ++ t ∧ IsIdentifier name
          ∧ ∀ d ∈ t.head?, ¬ IsLetterOrDigit d := by
  constructor
  · intro hs
    obtain ⟨name', t', rfl, hname, ht⟩ :=
      exists_identifier (exists_ident_iff.1 ⟨name, t, hs⟩)
    obtain ⟨rfl, rfl⟩ : name' = name ∧ t' = t := by
      simpa using (ident_append hname ht).symm.trans hs
    exact ⟨rfl, hname, ht⟩
  · rintro ⟨rfl, hname, ht⟩
    exact ident_append hname ht

/-! ## Runs and identifiers -/

/-- **Runs and identifiers are the longest ones.** For every class, a text has
  one longest prefix with characters of the class only. The repeated class has
  this run and the text behind it for its only candidate; one character or more
  has the same candidate, unless the run is empty: then it fails. An identifier
  is found exactly where a text starts with a small letter of ASCII. It is the
  only candidate, and it is what the text splits into: a small letter with
  letters and digits behind it, and a text that goes on with neither. So an
  identifier is read back from in front of all such texts. -/
theorem runs_longest :
    (∀ (q : Char → Bool) (s : Text), ∃ run rest,
        (∀ run' rest', LongestRun q s run' rest' ↔ run' = run ∧ rest' = rest)
          ∧ many (sat q) s = some [(run, rest)]
          ∧ many1 (sat q) s = if run = [] then some [] else some [(run, rest)])
      ∧ (∀ s, (∃ name t, ident s = some [(name, t)])
          ↔ ∃ c ∈ s.head?, IsSmallLetter c)
      ∧ (∀ s, ident s = some [] ↔ ¬ ∃ c ∈ s.head?, IsSmallLetter c)
      ∧ (∀ s name t, ident s = some [(name, t)]
          ↔ s = name ++ t ∧ IsIdentifier name
              ∧ ∀ d ∈ t.head?, ¬ IsLetterOrDigit d)
      ∧ ∀ name t, IsIdentifier name → (∀ d ∈ t.head?, ¬ IsLetterOrDigit d) →
          ident (name ++ t) = some [(name, t)] := by
  refine ⟨fun q s => ?_, fun s => exists_ident_iff, fun s => ident_eq_nil_iff,
    fun s name t => ident_eq_iff, fun name t => ident_append⟩
  have h := longestRun_takeWhile q s
  refine ⟨s.takeWhile q, s.dropWhile q, fun run rest => ⟨h.unique, ?_⟩,
    h.many_sat, h.many1_sat⟩
  rintro ⟨rfl, rfl⟩
  exact h

/-- A letter with an accent goes on with no identifier, and starts none. -/
theorem runs_longest_accent :
    IsIdentifier "fooBar9".toList
      ∧ (∀ d ∈ "éa".toList.head?, ¬ IsLetterOrDigit d)
      ∧ ident ("fooBar9".toList ++ "éa".toList)
          = some [("fooBar9".toList, "éa".toList)]
      ∧ ident "éa".toList = some [] := by
  obtain ⟨-, -, hnil, -, hread⟩ := runs_longest
  have hname : IsIdentifier "fooBar9".toList :=
    .intro (isLower_iff.1 rfl) fun d hd =>
      isAlphanum_iff.1 (List.all_eq_true.1
        (by decide +kernel : "ooBar9".toList.all Char.isAlphanum = true) d hd)
  have haccent : ¬ IsLetterOrDigit 'é' := isAlphanum_eq_false_iff.1 rfl
  have hrest : ∀ d ∈ "éa".toList.head?, ¬ IsLetterOrDigit d := by
    rintro d ⟨⟩
    exact haccent
  refine ⟨hname, hrest, hread _ _ hname hrest, (hnil _).2 ?_⟩
  rintro ⟨d, ⟨⟩, hsmall⟩
  exact haccent (.inr (.inr hsmall))

end Lexer

end CommittedChoice
