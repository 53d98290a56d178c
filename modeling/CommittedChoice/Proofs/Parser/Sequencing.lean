import CommittedChoice.Parser.Basic

/-!
# The laws of sequencing

Parsers are sequenced in three ways: a function is mapped over a parser, a
parser of functions is applied to a parser of arguments, and a value chooses the
parser behind it. For parsers with many candidates it is not clear that the
usual laws hold, as the two sides of a law drop candidates at different places.
But the candidates that are dropped are those of an earlier part, and a part is
the earlier one on both sides of a law. What comes last keeps all of its
candidates on both sides.

This fails where one side ends with a parser of a single candidate that the
other side does not have. There are two such laws: `p >>= pure` is not `p`, and
`u <*> pure a` is not the value `a` handed to what `u` reads. In both of them
the side that ends with `pure` is the first candidate of the other one
(`Outcome.first`), so they hold on a text exactly if there is one candidate at
most (`Parser.sequencing_laws`).
-/

namespace CommittedChoice

namespace Outcome

variable {α β γ : Type}

/-- **The first candidate alone.** -/
def first (o : Outcome α) : Outcome α := Option.map (List.take 1) o

@[simp] theorem first_none : first (none : Outcome α) = none := rfl

@[simp] theorem first_nil : first (some [] : Outcome α) = some [] := rfl

@[simp] theorem first_cons (c : Candidate α) (cs : List (Candidate α)) :
    first (some (c :: cs)) = some [c] := rfl

/-- An outcome is its first candidate exactly if it has no other. -/
theorem first_eq_self_iff {o : Outcome α} :
    o.first = o ↔ ∀ cs, o = some cs → cs.length ≤ 1 := by
  match o with
  | none => simp
  | some [] => simp
  | some [c] => simp
  | some (c :: d :: cs) => simp

theorem map_id (o : Outcome α) : o.map id = o := by
  match o with
  | none => rfl
  | some cs => exact congrArg some (List.map_id cs)

theorem map_map (f : β → γ) (g : α → β) (o : Outcome α) :
    (o.map g).map f = o.map (f ∘ g) := by
  match o with
  | none => rfl
  | some cs => exact congrArg some List.map_map

/-- Going on from a function of the value is going on from the value, … -/
theorem commit_map (f : α → β) (o : Outcome α) (k : β → Parser γ) :
    (o.map f).commit k = o.commit fun a => k (f a) := by
  match o with
  | none => rfl
  | some [] => rfl
  | some (c :: cs) => rfl

/-- … a function of what is found there may be handed on, … -/
theorem map_commit (f : β → γ) (o : Outcome α) (k : α → Parser β) :
    (o.commit k).map f = o.commit fun a => f <$> k a := by
  match o with
  | none => rfl
  | some [] => rfl
  | some (c :: cs) => rfl

/-- … and so may whatever goes on from there. -/
theorem commit_commit (o : Outcome α) (k : α → Parser β) (l : β → Parser γ) :
    (o.commit k).commit l = o.commit fun a => k a >>= l := by
  match o with
  | none => rfl
  | some [] => rfl
  | some (c :: cs) => rfl

/-- Going on with nothing but the value leaves the first candidate. -/
theorem commit_pure (o : Outcome α) : o.commit pure = o.first := by
  match o with
  | none => rfl
  | some [] => rfl
  | some (c :: cs) => rfl

end Outcome

namespace Parser

variable {α β γ : Type}

/-- **Mapping obeys the laws of a functor**, as it keeps all candidates. -/
instance : LawfulFunctor Parser where
  map_const := rfl
  id_map p := ext fun s => (p s).map_id
  comp_map g f p := ext fun s => ((p s).map_map f g).symm

/-- An application is a sequence in which the function is mapped over the
  argument. -/
theorem seq_eq_bind (pf : Parser (α → β)) (px : Parser α) :
    pf <*> px = pf >>= fun f => f <$> px := rfl

/-- A function that is just there is mapped over the argument. -/
theorem pure_seq (f : α → β) (p : Parser α) : pure f <*> p = f <$> p := rfl

/-- A value that is just there chooses at once. -/
theorem pure_bind (a : α) (k : α → Parser β) : pure a >>= k = k a := rfl

/-- A function of the value chooses by the value, … -/
theorem bind_map_left (f : α → β) (p : Parser α) (k : β → Parser γ) :
    (f <$> p) >>= k = p >>= fun a => k (f a) :=
  ext fun s => (p s).commit_map f k

/-- … and a function of a sequence is one of its last part. -/
theorem map_bind (f : β → γ) (p : Parser α) (k : α → Parser β) :
    f <$> (p >>= k) = p >>= fun a => f <$> k a :=
  ext fun s => (p s).map_commit f k

/-- **Sequences may be grouped as one likes.** -/
theorem bind_assoc (p : Parser α) (k : α → Parser β) (l : β → Parser γ) :
    p >>= k >>= l = p >>= fun a => k a >>= l :=
  ext fun s => (p s).commit_commit k l

/-- **Applications may be grouped as one likes**, if the functions are
  composed. -/
theorem seq_assoc (u : Parser (β → γ)) (v : Parser (α → β)) (w : Parser α) :
    pure Function.comp <*> u <*> v <*> w = u <*> (v <*> w) := by
  have hmap (f : β → γ) : (f ∘ ·) <$> v >>= (· <$> w) = f <$> (v <*> w) := by
    rw [bind_map_left, seq_eq_bind, map_bind]
    exact congrArg (v >>= ·) (funext fun g => comp_map g f w)
  calc pure Function.comp <*> u <*> v <*> w
      = Function.comp <$> u >>= (· <$> v) >>= (· <$> w) := rfl
    _ = u >>= fun f => (f ∘ ·) <$> v >>= (· <$> w) := by
      rw [bind_map_left, bind_assoc]
    _ = u <*> (v <*> w) := congrArg (u >>= ·) (funext hmap)

/-- A sequence that ends with the value has the first candidate alone, … -/
theorem bind_pure_apply (p : Parser α) (s : Text) :
    (p >>= pure) s = (p s).first :=
  (p s).commit_pure

/-- … and so has a function that is applied to a value that is just there. -/
theorem seq_pure_apply (u : Parser (α → β)) (a : α) (s : Text) :
    (u <*> pure a) s = (((· a) <$> u) s).first := by
  have h : (· a) <$> u >>= pure = u <*> pure a := bind_map_left (· a) u pure
  rw [← h, bind_pure_apply]

/-- **The laws of sequencing and their limits.** For parsers with any number of
  candidates, mapping respects the identity and composition; applying a function
  that is just there is mapping it; applying is a sequence in which the function
  is mapped over the argument; applications and sequences may be grouped as one
  likes; and a value that is just there chooses at once. A sequence that ends
  with its value has the first candidate of what comes before, which is all of
  it exactly if there is one candidate at most, and a function that is applied
  to a value that is just there has the first candidate of the value handed to
  the function, with the same exception. -/
theorem sequencing_laws {α β γ : Type} :
    ((∀ p : Parser α, id <$> p = p)
        ∧ ∀ (f : β → γ) (g : α → β) (p : Parser α),
            (f ∘ g) <$> p = f <$> g <$> p)
      ∧ ((∀ (f : α → β) (p : Parser α), pure f <*> p = f <$> p)
        ∧ (∀ (pf : Parser (α → β)) (px : Parser α),
            pf <*> px = pf >>= fun f => f <$> px)
        ∧ ∀ (u : Parser (β → γ)) (v : Parser (α → β)) (w : Parser α),
            pure Function.comp <*> u <*> v <*> w = u <*> (v <*> w))
      ∧ ((∀ (a : α) (k : α → Parser β), pure a >>= k = k a)
        ∧ ∀ (p : Parser α) (k : α → Parser β) (l : β → Parser γ),
            p >>= k >>= l = p >>= fun a => k a >>= l)
      ∧ (∀ (p : Parser α) (s : Text), (p >>= pure) s = (p s).first
          ∧ ((p >>= pure) s = p s ↔ ∀ cs, p s = some cs → cs.length ≤ 1))
      ∧ ∀ (u : Parser (α → β)) (a : α) (s : Text),
          (u <*> pure a) s = ((pure (fun f => f a) <*> u) s).first
            ∧ ((u <*> pure a) s = (pure (fun f => f a) <*> u) s
                ↔ ∀ cs, u s = some cs → cs.length ≤ 1) := by
  refine ⟨⟨id_map, fun f g p => comp_map g f p⟩,
    ⟨pure_seq, seq_eq_bind, seq_assoc⟩,
    ⟨pure_bind, bind_assoc⟩, fun p s => ⟨bind_pure_apply p s, ?_⟩,
    fun u a s => ⟨seq_pure_apply u a s, ?_⟩⟩
  · rw [bind_pure_apply, Outcome.first_eq_self_iff]
  · rw [seq_pure_apply, pure_seq, Outcome.first_eq_self_iff, map_apply]
    match u s with
    | none => simp
    | some cs => simp

/-- Of two candidates, the first one is left. -/
example (p : Parser Char) (h : p [] = some [('a', []), ('b', [])]) :
    (p >>= pure) [] = some [('a', [])] := by
  rw [bind_apply, h, Outcome.commit_cons, pure_apply]

end Parser

end CommittedChoice
