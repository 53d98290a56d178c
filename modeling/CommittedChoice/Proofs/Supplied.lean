import CommittedChoice.Proofs.Arithmetic.Progress
import CommittedChoice.Proofs.Consumption

/-!
# The supplied parsers settle every text

The run of a parser that the library supplies ends on every text, with one
candidate at most (`Supplied.settles`), and all of them but white space and the
empty literal take something (`SuppliedTaking.settles`). The first fact is about
each of these parsers alone; what it says of expressions that are built from
them is a matter of the modules that follow.
-/

namespace CommittedChoice

open CommittedChoice.Parser (Settles)

variable {α : Type}

/-- **The supplied parsers that take something** whenever they succeed. -/
inductive SuppliedTaking : {α : Type} → Parser α → Prop where
  | item : SuppliedTaking Parser.item
  /-- Classes, and single characters, are among these. -/
  | sat (q : Char → Bool) : SuppliedTaking (Parser.sat q)
  | literal {l : Text} (hl : l ≠ []) : SuppliedTaking (Lexer.literal l)
  | symbol {l : Text} (hl : l ≠ []) : SuppliedTaking (Lexer.symbol l)
  | nat : SuppliedTaking Lexer.nat
  | int : SuppliedTaking Lexer.int
  | ident : SuppliedTaking Lexer.ident
  | natural : SuppliedTaking Lexer.natural
  | integer : SuppliedTaking Lexer.integer
  | identifier : SuppliedTaking Lexer.identifier
  | nats : SuppliedTaking Lexer.nats
  | expr : SuppliedTaking Arithmetic.expr
  | term : SuppliedTaking Arithmetic.term
  | factor : SuppliedTaking Arithmetic.factor

/-- They take a character or more. -/
theorem SuppliedTaking.settles {p : Parser α} (h : SuppliedTaking p)
    (s : Text) :
    Settles p s 1 := by
  cases h with
  | item => exact Parser.settles_item s
  | sat q => exact Parser.settles_sat q s
  | literal hl =>
    exact (Lexer.settles_literal _ s).mono (List.length_pos_iff.2 hl)
  | symbol hl =>
    exact (Lexer.settles_symbol _ s).mono (List.length_pos_iff.2 hl)
  | nat => exact Lexer.settles_digits _ s
  | int => exact Lexer.settles_int s
  | ident => exact Lexer.settles_ident s
  | natural => exact Lexer.settles_natural s
  | integer => exact Lexer.settles_token (Lexer.settles_int _)
  | identifier => exact Lexer.settles_token (Lexer.settles_ident _)
  | nats => exact (Lexer.settles_nats s).mono (by decide)
  | expr => exact Arithmetic.settles_rule .expr s
  | term => exact Arithmetic.settles_rule .term s
  | factor => exact Arithmetic.settles_rule .factor s

/-- The others are white space, and what matches the empty literal. -/
theorem Supplied.taking_or_settles {p : Parser α} (h : Supplied p) :
    SuppliedTaking p ∨ ∀ s, Settles p s 0 := by
  cases h with
  | space => exact .inr Lexer.settles_space
  | literal l =>
    exact .inr fun s => (Lexer.settles_literal l s).mono (Nat.zero_le _)
  | symbol l =>
    exact .inr fun s => (Lexer.settles_symbol l s).mono (Nat.zero_le _)
  | item => exact .inl .item
  | sat q => exact .inl (.sat q)
  | nat => exact .inl .nat
  | int => exact .inl .int
  | ident => exact .inl .ident
  | natural => exact .inl .natural
  | integer => exact .inl .integer
  | identifier => exact .inl .identifier
  | nats => exact .inl .nats
  | expr => exact .inl .expr
  | term => exact .inl .term
  | factor => exact .inl .factor

/-- **Every supplied parser settles every text.** -/
theorem Supplied.settles {p : Parser α} (h : Supplied p) (s : Text) :
    Settles p s 0 := by
  obtain htaking | hs := h.taking_or_settles
  · exact (htaking.settles s).mono (Nat.zero_le 1)
  · exact hs s

end CommittedChoice
