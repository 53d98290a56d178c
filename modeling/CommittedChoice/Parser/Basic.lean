import CommittedChoice.Outcome

/-!
# Parsers

The operations on parsers are those of the functor, applicative, monad and
alternative classes, with one twist: sequencing is *committed*. Only the first
candidate of an earlier part is followed, and a choice that has taken a side
never comes back for the other. All candidates of the *last* part of a sequence
survive, so a parser with several candidates shows them as long as nothing is
sequenced after it.

The classes are used for their notation. Committing costs two of their laws:
`p >>= pure` is `p` cut to its first candidate, and `u <*> pure y` is likewise
the first candidate of `u` alone, applied to `y`.
-/

namespace CommittedChoice

namespace Parser

variable {α β γ : Type}

/-- Parsers are equal when they have the same outcome on every text. -/
@[ext] theorem ext {p q : Parser α} (h : ∀ s, p s = q s) : p = q := funext h

/-- **Sequencing.** The first candidate of the earlier part decides where the
  later part starts, and the later part keeps all of its candidates. A function
  mapped over a parser reaches all of them too. -/
instance : Monad Parser where
  pure a := fun s => some [(a, s)]
  bind p k := fun s => (p s).commit k
  map f p := fun s => (p s).map f
  seq pf px := fun s => (pf s).commit fun f r => (px () r).map f

/-- **Committed choice.** The second side is run, on the same text, only when
  the first one is a failed match. -/
instance : Alternative Parser where
  failure := fun _ => some []
  orElse p q := fun s => (p s).orElse fun _ => q () s

/-! ## The operations on a text -/

@[simp] theorem pure_apply (a : α) (s : Text) :
    (pure a : Parser α) s = some [(a, s)] := rfl

@[simp] theorem map_apply (f : α → β) (p : Parser α) (s : Text) :
    (f <$> p) s = (p s).map f := rfl

@[simp] theorem seq_apply (pf : Parser (α → β)) (px : Parser α) (s : Text) :
    (pf <*> px) s = (pf s).commit fun f => f <$> px := rfl

@[simp] theorem bind_apply (p : Parser α) (k : α → Parser β) (s : Text) :
    (p >>= k) s = (p s).commit k := rfl

@[simp] theorem failure_apply (s : Text) :
    (failure : Parser α) s = some [] := rfl

@[simp] theorem orElse_apply (p q : Parser α) (s : Text) :
    (p <|> q) s = (p s).orElse fun _ => q s := rfl

/-! ## Single characters, and parsers known only later -/

/-- **Any character.** The parser that takes the text apart; it fails at
  its end. -/
def item : Parser Char
  | [] => some []
  | c :: s => some [(c, s)]

/-- **A parser that may be missing.** A missing one fails. -/
def ofOption : Option (Parser α) → Parser α
  | none => failure
  | some p => p

/-- **A character of a class.** -/
def sat (q : Char → Bool) : Parser Char :=
  item >>= fun c => if q c then pure c else failure

/-- **A deferred parser**, built anew whenever it is run. -/
def lazy (p : Unit → Parser α) : Parser α := fun s => p () s

/-- **A run that never ends**, whatever the text. -/
def diverge : Parser α := fun _ => none

@[simp] theorem item_nil : item [] = some [] := rfl

@[simp] theorem item_cons (c : Char) (s : Text) :
    item (c :: s) = some [(c, s)] := rfl

@[simp] theorem ofOption_none :
    ofOption (none : Option (Parser α)) = failure := rfl

@[simp] theorem ofOption_some (p : Parser α) : ofOption (some p) = p := rfl

@[simp] theorem lazy_apply (p : Unit → Parser α) (s : Text) :
    lazy p s = p () s := rfl

@[simp] theorem diverge_apply (s : Text) : (diverge : Parser α) s = none := rfl

@[simp] theorem sat_nil (q : Char → Bool) : sat q [] = some [] := rfl

@[simp] theorem sat_cons (q : Char → Bool) (c : Char) (s : Text) :
    sat q (c :: s) = if q c then some [(c, s)] else some [] := by
  cases h : q c <;> simp [sat, h]

/-! ## Repetition

A repetition follows first candidates: it runs the parser, goes on from the text
that the first candidate leaves, and stops at the first failed match. It never
fails itself, and has exactly one candidate, the values in order.

If some run of the parser succeeds and leaves as much text as it got, nothing
makes the next run different, so the repetition has no end. The loop
therefore carries a budget of one success for each character of the text it
starts on. A parser whose first candidate always leaves less text never uses the
budget up, and an exhausted budget shows that some step made no progress. -/

/-- **The loop of a repetition.** The budget allows one more success for each of
  its characters; the values found so far come last one first. -/
def manyLoop (p : Parser α) : (budget : Text) → List α → Parser (List α)
  | [], found, s =>
    match p s with
    | some [] => some [(found.reverse, s)]
    | _ => none
  | _ :: budget, found, s =>
    match p s with
    | none => none
    | some [] => some [(found.reverse, s)]
    | some ((a, r) :: _) => manyLoop p budget (a :: found) r

/-- **Zero or more times.** -/
def many (p : Parser α) : Parser (List α) := fun s => manyLoop p s [] s

/-- **One or more times.** Only the first run can make it fail. -/
def many1 (p : Parser α) : Parser (List α) := List.cons <$> p <*> many p

/-- **Content in delimiters.** The value is that of the content. -/
def between (opening : Parser α) (content : Parser β) (closing : Parser γ) :
    Parser β := do
  let _ ← opening
  let b ← content
  let _ ← closing
  pure b

/-- **A list with separators**, of one element or more. A separator with no
  element after it is left in the text. -/
def sepBy (p : Parser α) (separator : Parser β) : Parser (List α) := do
  let first ← p
  let others ← many (separator >>= fun _ => p)
  pure (first :: others)

end Parser

end CommittedChoice
