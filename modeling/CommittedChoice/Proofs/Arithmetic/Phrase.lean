import CommittedChoice.Arithmetic
import CommittedChoice.Proofs.Lexer.Span

/-!
# Phrases of arithmetic

The grammar of arithmetic, without any parser: a *phrase* is a derivation tree,
and has a text and an exact value, an integer. White space may stand in front of
every character that is not part of a number, and in front of every number. A
phrase *fits* if the value of every number and of every operation in it is in
the range of words.

A text that may follow a phrase does not go on with a digit, nor with an
operator that the phrase could take (`Rule.Ends`). In front of such texts,
phrases are read in one way only (`Phrase.append_inj`); and a phrase that is
part of a larger one is in front of such a text.
-/

namespace CommittedChoice

namespace Word

/-- **The range of words.** -/
def InRange (z : Int) : Prop := least ≤ z ∧ z ≤ greatest

/-- It is what words have for values. -/
theorem inRange_iff {z : Int} : InRange z ↔ ∃ w : Word, w.toInt = z := by
  constructor
  · intro hz
    match h : ofInt? z with
    | none =>
      exact absurd (ofInt?_eq_none_iff.1 h) (by unfold InRange at hz; omega)
    | some w => exact ⟨w, ofInt?_eq_some_iff.1 h⟩
  · rintro ⟨w, rfl⟩
    exact w.toInt_mem_range

end Word

namespace Arithmetic

/-- **White space**, maybe none. -/
@[ext] structure Blanks where
  /-- The characters. -/
  text : Text
  /-- All of them are white space. -/
  isBlank_of_mem : ∀ c ∈ text, isBlank c = true

/-- Behind white space, something else comes next. -/
theorem Blanks.skipBlanks_append_cons (w : Blanks) {c : Char}
    (hc : isBlank c = false) (t : Text) :
    skipBlanks (w.text ++ c :: t) = c :: t := by
  rw [skipBlanks_append w.isBlank_of_mem, skipBlanks_cons hc]

/-- **The digits of a number**: at least one, and zeros in front if one
  likes. -/
@[ext] structure Numeral where
  /-- The characters. -/
  text : Text
  /-- There is one. -/
  ne_nil : text ≠ []
  /-- All of them are digits. -/
  isDigit_of_mem : ∀ c ∈ text, c.isDigit = true

/-- **A phrase of a rule**: a derivation tree of the grammar. -/
inductive Phrase : Rule → Type where
  /-- An expression that is a term. -/
  | term (a : Phrase .term) : Phrase .expr
  /-- A term, a plus sign and an expression. -/
  | sum (a : Phrase .term) (w : Blanks) (b : Phrase .expr) : Phrase .expr
  /-- A term, a minus sign and an expression. -/
  | difference (a : Phrase .term) (w : Blanks) (b : Phrase .expr) : Phrase .expr
  /-- A term that is a factor. -/
  | factor (a : Phrase .factor) : Phrase .term
  /-- A factor, an asterisk and a term. -/
  | product (a : Phrase .factor) (w : Blanks) (b : Phrase .term) : Phrase .term
  /-- An expression in parentheses. -/
  | parentheses (w : Blanks) (a : Phrase .expr) (w' : Blanks) : Phrase .factor
  /-- A number. -/
  | number (w : Blanks) (d : Numeral) : Phrase .factor

namespace Phrase

/-- **The text of a phrase.** -/
def text {r : Rule} : Phrase r → Text
  | term a => a.text
  | sum a w b => a.text ++ (w.text ++ '+' :: b.text)
  | difference a w b => a.text ++ (w.text ++ '-' :: b.text)
  | factor a => a.text
  | product a w b => a.text ++ (w.text ++ '*' :: b.text)
  | parentheses w a w' => w.text ++ '(' :: (a.text ++ (w'.text ++ [')']))
  | number w d => w.text ++ d.text

/-- **The exact value of a phrase.** Operators of one rank group to the
  right. -/
def value {r : Rule} : Phrase r → Int
  | term a => a.value
  | sum a _ b => a.value + b.value
  | difference a _ b => a.value - b.value
  | factor a => a.value
  | product a _ b => a.value * b.value
  | parentheses _ a _ => a.value
  | number _ d => Decimal.value d.text

/-- **Every value in a phrase is in range**: those of its numbers, and those of
  its sums, differences and products. -/
def Fits {r : Rule} : Phrase r → Prop
  | term a => a.Fits
  | sum a _ b => a.Fits ∧ b.Fits ∧ Word.InRange (a.value + b.value)
  | difference a _ b => a.Fits ∧ b.Fits ∧ Word.InRange (a.value - b.value)
  | factor a => a.Fits
  | product a _ b => a.Fits ∧ b.Fits ∧ Word.InRange (a.value * b.value)
  | parentheses _ a _ => a.Fits
  | number _ d => Word.InRange (Decimal.value d.text)

end Phrase

/-! ## What may follow a phrase -/

/-- **The operators that a rule takes**, outside of parentheses. -/
def Rule.operators : Rule → List Char
  | expr => ['*', '+', '-']
  | term => ['*']
  | factor => []

/-- **A phrase of the rule may end in front of the text.** -/
structure Rule.Ends (r : Rule) (t : Text) : Prop where
  /-- No digit comes next. -/
  digit : ∀ c ∈ t.head?, c.isDigit = false
  /-- No operator of the rule comes next, white space apart. -/
  operator : ∀ c ∈ (skipBlanks t).head?, c ∉ r.operators

namespace Rule

variable {r : Rule} {t : Text}

/-- The end of the text may follow every phrase. -/
theorem ends_nil (r : Rule) : r.Ends [] := ⟨by simp, by simp⟩

theorem Ends.term (h : Ends expr t) : Ends term t :=
  ⟨h.digit, fun c hc hop =>
    h.operator c hc (by simp [operators] at hop; simp [operators, hop])⟩

theorem Ends.factor (h : r.Ends t) : Ends factor t :=
  ⟨h.digit, by simp [operators]⟩

/-- Other characters may follow, too. -/
theorem ends_blanks_append (w : Blanks) {c : Char} (hb : isBlank c = false)
    (hd : c.isDigit = false) (hc : c ∉ r.operators) (t : Text) :
    r.Ends (w.text ++ c :: t) := by
  constructor
  · intro d hmem
    match hw : w.text with
    | [] =>
      obtain rfl : c = d := by simpa [hw] using hmem
      exact hd
    | b :: w' =>
      obtain rfl : b = d := by simpa [hw] using hmem
      have hblank : isBlank b = true :=
        w.isBlank_of_mem b (by rw [hw]; exact List.mem_cons_self)
      exact isDigit_eq_false_of_isBlank hblank
  · intro d hmem
    rw [w.skipBlanks_append_cons hb] at hmem
    obtain rfl : c = d := by simpa using hmem
    exact hc

/-- So a term may end in front of a plus sign or a minus sign, … -/
theorem ends_plus (w : Blanks) (t : Text) : Ends term (w.text ++ '+' :: t) :=
  ends_blanks_append w (by decide) (by decide) (by decide) t

theorem ends_minus (w : Blanks) (t : Text) : Ends term (w.text ++ '-' :: t) :=
  ends_blanks_append w (by decide) (by decide) (by decide) t

/-- … a factor in front of an asterisk, … -/
theorem ends_times (w : Blanks) (t : Text) : Ends factor (w.text ++ '*' :: t) :=
  ends_blanks_append w (by decide) (by decide) (by decide) t

/-- … and everything in front of a closing parenthesis. -/
theorem ends_close (w : Blanks) (t : Text) : Ends expr (w.text ++ ')' :: t) :=
  ends_blanks_append w (by decide) (by decide) (by decide) t

/-- An operator of the rule may not follow. -/
theorem Ends.ne_blanks_append (h : r.Ends t) (w : Blanks) {c : Char}
    (hb : isBlank c = false) (hc : c ∈ r.operators) (t' : Text) :
    t ≠ w.text ++ c :: t' := by
  rintro rfl
  refine h.operator c ?_ hc
  rw [w.skipBlanks_append_cons hb]
  rfl

/-- So neither a plus sign nor a minus sign follows an expression, … -/
theorem Ends.ne_plus (h : Ends expr t) (w : Blanks) (t' : Text) :
    t ≠ w.text ++ '+' :: t' :=
  h.ne_blanks_append w (by decide) (by decide) t'

theorem Ends.ne_minus (h : Ends expr t) (w : Blanks) (t' : Text) :
    t ≠ w.text ++ '-' :: t' :=
  h.ne_blanks_append w (by decide) (by decide) t'

/-- … and no asterisk a term. -/
theorem Ends.ne_times (h : Ends Rule.term t) (w : Blanks) (t' : Text) :
    t ≠ w.text ++ '*' :: t' :=
  h.ne_blanks_append w (by decide) (by decide) t'

end Rule

/-! ## The parts of a text -/

/-- White space ends where something else begins. -/
theorem Blanks.append_cons_inj {w w' : Blanks} {c c' : Char} {t t' : Text}
    (hc : isBlank c = false) (hc' : isBlank c' = false)
    (h : w.text ++ c :: t = w'.text ++ c' :: t') :
    w = w' ∧ c = c' ∧ t = t' := by
  have hskip := congrArg skipBlanks h
  rw [w.skipBlanks_append_cons hc, w'.skipBlanks_append_cons hc'] at hskip
  obtain ⟨rfl, rfl⟩ := List.cons.inj hskip
  exact ⟨Blanks.ext (List.append_cancel_right h), rfl, rfl⟩

/-- Digits end where something else begins. -/
theorem Numeral.takeWhile_append (d : Numeral) {t : Text}
    (ht : ∀ c ∈ t.head?, c.isDigit = false) :
    (d.text ++ t).takeWhile Char.isDigit = d.text
      ∧ (d.text ++ t).dropWhile Char.isDigit = t :=
  ⟨Parser.takeWhile_append_of_head d.isDigit_of_mem ht,
    Parser.dropWhile_append_of_head d.isDigit_of_mem ht⟩

/-- A numeral begins with a digit, which is no white space. -/
theorem Numeral.exists_eq_cons (d : Numeral) :
    ∃ c l, d.text = c :: l ∧ c.isDigit = true ∧ isBlank c = false := by
  match hd : d.text with
  | [] => exact absurd hd d.ne_nil
  | c :: l =>
    have hc : c.isDigit = true :=
      d.isDigit_of_mem c (by rw [hd]; exact List.mem_cons_self)
    exact ⟨c, l, rfl, hc, isBlank_eq_false_of_isDigit hc⟩

/-- A number behind white space is where the white space ends. -/
theorem Numeral.skipBlanks_append (w : Blanks) (d : Numeral) (t : Text) :
    skipBlanks (w.text ++ (d.text ++ t)) = d.text ++ t := by
  obtain ⟨c, l, hd, -, hc⟩ := d.exists_eq_cons
  rw [CommittedChoice.skipBlanks_append w.isBlank_of_mem, hd, List.cons_append,
    skipBlanks_cons hc]

/-- No number begins like parentheses. -/
theorem Numeral.append_ne_parenthesis (w w' : Blanks) (d : Numeral)
    (t t' : Text) :
    w.text ++ (d.text ++ t) ≠ w'.text ++ '(' :: t' := by
  obtain ⟨c, l, hd, hdigit, hc⟩ := d.exists_eq_cons
  intro h
  rw [hd, List.cons_append] at h
  obtain ⟨-, rfl, -⟩ := Blanks.append_cons_inj hc (by decide) h
  exact absurd hdigit (by decide)

/-- White space, a number and what follows it are told apart. -/
theorem Numeral.append_inj {w w' : Blanks} {d d' : Numeral} {t t' : Text}
    (ht : ∀ c ∈ t.head?, c.isDigit = false)
    (ht' : ∀ c ∈ t'.head?, c.isDigit = false)
    (h : w.text ++ (d.text ++ t) = w'.text ++ (d'.text ++ t')) :
    w = w' ∧ d = d' ∧ t = t' := by
  have hskip := congrArg skipBlanks h
  rw [d.skipBlanks_append, d'.skipBlanks_append] at hskip
  obtain ⟨hd, htail⟩ := d.takeWhile_append ht
  obtain ⟨hd', htail'⟩ := d'.takeWhile_append ht'
  obtain rfl : d = d' := Numeral.ext (by rw [← hd, hskip, hd'])
  obtain rfl : t = t' := by rw [← htail, hskip, htail']
  exact ⟨Blanks.ext (List.append_cancel_right h), rfl, rfl⟩

/-! ## Reading in one way only -/

/-- **What stands in front of a text that may follow is read in one way
  only.** -/
theorem Phrase.append_inj {r : Rule} (e e' : Phrase r) {t t' : Text}
    (ht : r.Ends t) (ht' : r.Ends t') (h : e.text ++ t = e'.text ++ t') :
    e = e' ∧ t = t' := by
  have hplus : isBlank '+' = false := by decide
  have hminus : isBlank '-' = false := by decide
  have htimes : isBlank '*' = false := by decide
  have hopen : isBlank '(' = false := by decide
  have hclose : isBlank ')' = false := by decide
  -- the first operand ends where its rule lets it, and tells what comes
  -- behind it
  induction e generalizing t t' with
  | term a ih =>
    cases e' with
    | term a' =>
      obtain ⟨rfl, rfl⟩ := ih a' ht.term ht'.term h
      exact ⟨rfl, rfl⟩
    | sum a' w' b' =>
      simp only [text, List.append_assoc, List.cons_append] at h
      exact absurd (ih a' ht.term (Rule.ends_plus w' _) h).2 (ht.ne_plus w' _)
    | difference a' w' b' =>
      simp only [text, List.append_assoc, List.cons_append] at h
      exact absurd (ih a' ht.term (Rule.ends_minus w' _) h).2 (ht.ne_minus w' _)
  | sum a w b iha ihb =>
    simp only [text, List.append_assoc, List.cons_append] at h
    cases e' with
    | term a' =>
      exact absurd (iha a' (Rule.ends_plus w _) ht'.term h).2.symm
        (ht'.ne_plus w _)
    | sum a' w' b' =>
      simp only [text, List.append_assoc, List.cons_append] at h
      obtain ⟨rfl, h₂⟩ := iha a' (Rule.ends_plus w _) (Rule.ends_plus w' _) h
      obtain ⟨rfl, -, h₃⟩ := Blanks.append_cons_inj hplus hplus h₂
      obtain ⟨rfl, rfl⟩ := ihb b' ht ht' h₃
      exact ⟨rfl, rfl⟩
    | difference a' w' b' =>
      simp only [text, List.append_assoc, List.cons_append] at h
      have h₂ := (iha a' (Rule.ends_plus w _) (Rule.ends_minus w' _) h).2
      exact absurd (Blanks.append_cons_inj hplus hminus h₂).2.1 (by decide)
  | difference a w b iha ihb =>
    simp only [text, List.append_assoc, List.cons_append] at h
    cases e' with
    | term a' =>
      exact absurd (iha a' (Rule.ends_minus w _) ht'.term h).2.symm
        (ht'.ne_minus w _)
    | sum a' w' b' =>
      simp only [text, List.append_assoc, List.cons_append] at h
      have h₂ := (iha a' (Rule.ends_minus w _) (Rule.ends_plus w' _) h).2
      exact absurd (Blanks.append_cons_inj hminus hplus h₂).2.1 (by decide)
    | difference a' w' b' =>
      simp only [text, List.append_assoc, List.cons_append] at h
      obtain ⟨rfl, h₂⟩ := iha a' (Rule.ends_minus w _) (Rule.ends_minus w' _) h
      obtain ⟨rfl, -, h₃⟩ := Blanks.append_cons_inj hminus hminus h₂
      obtain ⟨rfl, rfl⟩ := ihb b' ht ht' h₃
      exact ⟨rfl, rfl⟩
  | factor a ih =>
    cases e' with
    | factor a' =>
      obtain ⟨rfl, rfl⟩ := ih a' ht.factor ht'.factor h
      exact ⟨rfl, rfl⟩
    | product a' w' b' =>
      simp only [text, List.append_assoc, List.cons_append] at h
      exact absurd (ih a' ht.factor (Rule.ends_times w' _) h).2
        (ht.ne_times w' _)
  | product a w b iha ihb =>
    simp only [text, List.append_assoc, List.cons_append] at h
    cases e' with
    | factor a' =>
      exact absurd (iha a' (Rule.ends_times w _) ht'.factor h).2.symm
        (ht'.ne_times w _)
    | product a' w' b' =>
      simp only [text, List.append_assoc, List.cons_append] at h
      obtain ⟨rfl, h₂⟩ := iha a' (Rule.ends_times w _) (Rule.ends_times w' _) h
      obtain ⟨rfl, -, h₃⟩ := Blanks.append_cons_inj htimes htimes h₂
      obtain ⟨rfl, rfl⟩ := ihb b' ht ht' h₃
      exact ⟨rfl, rfl⟩
  | parentheses w a w' ih =>
    simp only [text, List.append_assoc, List.cons_append, List.nil_append] at h
    cases e' with
    | parentheses v a' v' =>
      simp only [text, List.append_assoc, List.cons_append,
        List.nil_append] at h
      obtain ⟨rfl, -, h₂⟩ := Blanks.append_cons_inj hopen hopen h
      obtain ⟨rfl, h₃⟩ := ih a' (Rule.ends_close w' _) (Rule.ends_close v' _) h₂
      obtain ⟨rfl, -, rfl⟩ := Blanks.append_cons_inj hclose hclose h₃
      exact ⟨rfl, rfl⟩
    | number v d =>
      rw [text, List.append_assoc] at h
      exact absurd h.symm (d.append_ne_parenthesis v w _ _)
  | number w d =>
    cases e' with
    | parentheses v a' v' =>
      simp only [text, List.append_assoc, List.cons_append] at h
      exact absurd h (d.append_ne_parenthesis w v _ _)
    | number v d' =>
      simp only [text, List.append_assoc] at h
      obtain ⟨rfl, rfl, rfl⟩ := Numeral.append_inj ht.digit ht'.digit h
      exact ⟨rfl, rfl⟩

/-- **A text is that of one phrase at most.** -/
theorem Phrase.text_injective {r : Rule} {e e' : Phrase r}
    (h : e.text = e'.text) : e = e' :=
  (append_inj e e' r.ends_nil r.ends_nil (by rw [h])).1

end Arithmetic

end CommittedChoice
