import CommittedChoice.Parser.Remainder
import CommittedChoice.Text
import CommittedChoice.Word

/-!
# Characters, literals, tokens and numbers

The character classes are those of ASCII: a letter is one of `a` to `z` or `A`
to `Z`, and a letter of any other alphabet is none. White space is that of
Unicode.

A token skips the white space in front of it and nothing after it. White space
behind the last token of a text is therefore left in the text.

A number is the whole run of digits at the front of the text, or the run behind
a minus sign. Its value has to be a word. A run that stands for a larger number
fails as a whole: no shorter part of it is taken, and no digit is left over. A
negative number is read together with its sign, so the smallest word can be
written although its negation is no word.

All lexers read the front of a text.
-/

namespace CommittedChoice

namespace Lexer

open CommittedChoice.Parser

variable {α : Type}

/-! ## Classes -/

/-- A digit from `0` to `9`. -/
def digit : Parser Char := sat Char.isDigit

/-- A letter from `a` to `z`. -/
def lower : Parser Char := sat Char.isLower

/-- A letter from `A` to `Z`. -/
def upper : Parser Char := sat Char.isUpper

/-- A letter from `a` to `z` or from `A` to `Z`. -/
def letter : Parser Char := sat Char.isAlpha

/-- A letter or a digit. -/
def alphanum : Parser Char := sat Char.isAlphanum

/-- A given character. -/
def char (c : Char) : Parser Char := sat (· == c)

/-! ## Literals and names -/

/-- **A literal.** All of it has to match; its value is the literal itself. -/
def literal : Text → Parser Text
  | [] => pure []
  | c :: l => do
    let _ ← char c
    let _ ← literal l
    pure (c :: l)

/-- **An identifier**: a small letter, then letters and digits. -/
def ident : Parser Text := do
  let first ← lower
  let others ← many alphanum
  pure (first :: others)

/-! ## Tokens -/

/-- **White space**, as much as there is. Never fails. -/
def space : Parser Unit := do
  let _ ← many (sat isBlank)
  pure ()

/-- **A token**: white space, then what it stands in front of. -/
def token (p : Parser α) : Parser α := space >>= fun _ => p

/-- A literal as a token. -/
def symbol (l : Text) : Parser Text := token (literal l)

/-- An identifier as a token. -/
def identifier : Parser Text := token ident

/-! ## Numbers -/

/-- **A run of digits**, read as an integer that has to be a word. -/
def digits (read : Nat → Int) : Parser Word := do
  let ds ← many1 digit
  ofOption ((Word.ofInt? (read (Decimal.value ds))).map pure)

/-- **A natural number.** -/
def nat : Parser Word := digits fun n => n

/-- **An integer**: a minus sign directly followed by digits, or a natural
  number. -/
def int : Parser Word := (char '-' >>= fun _ => digits fun n => -n) <|> nat

/-- A natural number as a token. -/
def natural : Parser Word := token nat

/-- An integer as a token. -/
def integer : Parser Word := token int

/-- **A list of natural numbers** in square brackets, separated by commas, with
  one element or more. -/
def nats : Parser (List Word) :=
  between (symbol ['[']) (sepBy natural (symbol [','])) (symbol [']'])

/-! ## What is left of a text -/

theorem leavesSuffix_char (c : Char) : LeavesSuffix (char c) := .sat _

theorem leavesSuffix_literal (l : Text) : LeavesSuffix (literal l) := by
  induction l with
  | nil => exact .pure []
  | cons c l ih =>
    exact .bind (leavesSuffix_char c) fun _ => .bind ih fun _ => .pure (c :: l)

theorem leavesSuffix_ident : LeavesSuffix ident :=
  .bind (.sat _) fun c => .bind (.many (.sat _)) fun cs => .pure (c :: cs)

theorem leavesSuffix_space : LeavesSuffix space :=
  .bind (.many (.sat _)) fun _ => .pure ()

theorem leavesSuffix_token {p : Parser α} (hp : LeavesSuffix p) :
    LeavesSuffix (token p) :=
  .bind leavesSuffix_space fun _ => hp

theorem leavesSuffix_symbol (l : Text) : LeavesSuffix (symbol l) :=
  leavesSuffix_token (leavesSuffix_literal l)

theorem leavesSuffix_identifier : LeavesSuffix identifier :=
  leavesSuffix_token leavesSuffix_ident

theorem leavesSuffix_digits (read : Nat → Int) : LeavesSuffix (digits read) :=
  .bind (.many1 (.sat _)) fun ds => .ofOption fun q hq => by
    obtain ⟨w, -, rfl⟩ := Option.map_eq_some_iff.1 hq
    exact .pure w

theorem leavesSuffix_nat : LeavesSuffix nat := leavesSuffix_digits _

theorem leavesSuffix_int : LeavesSuffix int :=
  .orElse (.bind (leavesSuffix_char _) fun _ => leavesSuffix_digits _)
    leavesSuffix_nat

theorem leavesSuffix_natural : LeavesSuffix natural :=
  leavesSuffix_token leavesSuffix_nat

theorem leavesSuffix_integer : LeavesSuffix integer :=
  leavesSuffix_token leavesSuffix_int

theorem leavesSuffix_nats : LeavesSuffix nats :=
  .between (leavesSuffix_symbol _)
    (.sepBy leavesSuffix_natural (leavesSuffix_symbol _))
    (leavesSuffix_symbol _)

end Lexer

end CommittedChoice
