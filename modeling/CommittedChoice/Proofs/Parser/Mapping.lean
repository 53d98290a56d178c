import CommittedChoice.Proofs.Parser.Separated
import CommittedChoice.Proofs.Parser.Sequencing

/-!
# Mapping before and after

A function may be mapped over the elements before they are repeated, listed, put
in delimiters or read as tokens, or over the result afterwards. It makes no
difference, for parsers with any number of candidates (`Parser.mapping_laws`).
Nor is progress needed: a repetition that has no end has none with other values
either, as the two repetitions have the same chains of successes, values apart
(`Parser.chain_map_iff`).

So the values of the elements decide neither where a repetition stops nor how
many elements it has. The values of separators and delimiters decide nothing
at all.
-/

namespace CommittedChoice

namespace Parser

open CommittedChoice.Lexer (token)

variable {α α' β β' γ γ' : Type}

/-- **The chains of a mapped parser** are those of the parser, with mapped
  values. -/
theorem chain_map_iff {f : α → β} {p : Parser α} {s t : Text} {bs : List β} :
    Chain (f <$> p) s bs t ↔ ∃ as, Chain p s as t ∧ as.map f = bs := by
  constructor
  · intro h
    induction h with
    | nil h => exact ⟨[], .nil (Outcome.map_eq_nil_iff.1 h), rfl⟩
    | cons h _ ih =>
      obtain ⟨a, others, hs, rfl⟩ := Outcome.map_eq_cons h
      obtain ⟨as, hc, rfl⟩ := ih
      exact ⟨a :: as, .cons hs hc, rfl⟩
  · rintro ⟨as, h, rfl⟩
    induction h with
    | nil h => exact .nil (Outcome.map_eq_nil_iff.2 h)
    | cons h _ ih => exact .cons (by rw [map_apply, h]; rfl) ih

/-- **A repetition of a mapped parser** is a mapped repetition. The chains have
  the same length, and so either both of them are the outcome or none. -/
theorem many_map (f : α → β) (p : Parser α) :
    many (f <$> p) = List.map f <$> many p := by
  refine ext fun s => Option.ext fun cs => ?_
  rw [many_eq_some_iff, map_apply, Outcome.map, Option.map_eq_some_iff]
  constructor
  · rintro ⟨bs, t, h, hlength, rfl⟩
    obtain ⟨as, hc, rfl⟩ := chain_map_iff.1 h
    rw [List.length_map] at hlength
    exact ⟨_, many_eq_some_iff.2 ⟨as, t, hc, hlength, rfl⟩, rfl⟩
  · rintro ⟨cs', h, rfl⟩
    obtain ⟨as, t, hc, hlength, rfl⟩ := many_eq_some_iff.1 h
    exact ⟨as.map f, t, chain_map_iff.2 ⟨as, hc, rfl⟩,
      by rwa [List.length_map], rfl⟩

/-- A mapped value stands in front of mapped values. -/
theorem map_cons_map (f : α → β) (a : α) (m : Parser (List α)) :
    List.cons (f a) <$> List.map f <$> m
      = List.map f <$> List.cons a <$> m := by
  rw [← comp_map, ← comp_map]
  rfl

/-- The same of one time or more, … -/
theorem many1_map (f : α → β) (p : Parser α) :
    many1 (f <$> p) = List.map f <$> many1 p :=
  calc many1 (f <$> p)
      = List.cons <$> f <$> p >>= (· <$> many (f <$> p)) := rfl
    _ = p >>= fun a => List.cons (f a) <$> List.map f <$> many p := by
      rw [bind_map_left, bind_map_left, many_map]
    _ = p >>= fun a => List.map f <$> List.cons a <$> many p :=
      congrArg (p >>= ·) (funext fun a => map_cons_map f a (many p))
    _ = List.map f <$> many1 p := by
      rw [← map_bind, many1, seq_eq_bind, bind_map_left]

/-- … of a list, whatever is mapped over the separator, … -/
theorem sepBy_map (f : α → α') (g : β → β') (p : Parser α)
    (separator : Parser β) :
    sepBy (f <$> p) (g <$> separator) = List.map f <$> sepBy p separator := by
  have hmany : many (g <$> separator >>= fun _ => f <$> p)
      = List.map f <$> many (separator >>= fun _ => p) := by
    rw [bind_map_left, ← map_bind, many_map]
  unfold sepBy
  rw [hmany, bind_map_left, map_bind]
  refine congrArg (p >>= ·) (funext fun a => ?_)
  rw [bind_map_left, map_bind]
  rfl

/-- … of content, whatever is mapped over the delimiters, … -/
theorem between_map (f : α → α') (g : β → β') (h : γ → γ') (opening : Parser β)
    (p : Parser α) (closing : Parser γ) :
    between (g <$> opening) (f <$> p) (h <$> closing)
      = f <$> between opening p closing := by
  unfold between
  simp only [bind_map_left, map_bind]
  rfl

/-- … and of a token. -/
theorem token_map (f : α → β) (p : Parser α) :
    token (f <$> p) = f <$> token p :=
  (map_bind f Lexer.space fun _ => p).symm

/-! ## Values apart -/

/-- **What a parser takes**, without the values it has for it. -/
def outline (p : Parser α) : Parser Unit := (fun _ => ()) <$> p

/-- **As many elements, and the same text**: an operation that mapping commutes
  with counts the same with any values, as all of them may be mapped to one. -/
theorem length_congr (op : {α : Type} → Parser α → Parser (List α))
    (hop : ∀ {α β : Type} (f : α → β) (p : Parser α),
      op (f <$> p) = List.map f <$> op p)
    {p : Parser α} {p' : Parser α'} (hp : p.outline = p'.outline) :
    List.length <$> op p = List.length <$> op p' := by
  have hlength {α : Type} (p : Parser α) :
      List.length <$> op p.outline = List.length <$> op p := by
    rw [outline, hop, ← comp_map]
    exact congrArg (· <$> op p) (funext fun as => List.length_map _)
  rw [← hlength p, hp, hlength]

/-- In a list, mapping goes over the elements alone, … -/
theorem sepBy_map_left (f : α → α') (p : Parser α) (separator : Parser β) :
    sepBy (f <$> p) separator = List.map f <$> sepBy p separator := by
  rw [← sepBy_map f id p separator, id_map]

/-- … or over the separators, whose values are dropped, … -/
theorem sepBy_outline (p : Parser α) (separator : Parser β) :
    sepBy p separator.outline = sepBy p separator := by
  have h := sepBy_map id (fun _ => ()) p separator
  rwa [id_map, List.map_id_fun, id_map] at h

/-- … as those of delimiters are. -/
theorem between_outline (opening : Parser β) (p : Parser α)
    (closing : Parser γ) :
    between opening.outline p closing.outline = between opening p closing := by
  have h := between_map id (fun _ => ()) (fun _ => ()) opening p closing
  rwa [id_map, id_map] at h

/-- **Mapping commutes with repetition and structure.** A function that is
  mapped over the elements of a repetition or a list, over the content of
  delimiters, or over what a token stands for may be mapped over the result
  instead, whatever is mapped over separators and delimiters. So parsers that
  take the same have as many elements in the same repetitions and lists and
  leave the same text, and separators and delimiters that take the same are as
  good as each other. -/
theorem mapping_laws (f : α → α') (g : β → β') (h : γ → γ') (p : Parser α)
    (separator opening : Parser β) (closing : Parser γ) :
    many (f <$> p) = List.map f <$> many p
      ∧ many1 (f <$> p) = List.map f <$> many1 p
      ∧ sepBy (f <$> p) (g <$> separator) = List.map f <$> sepBy p separator
      ∧ between (g <$> opening) (f <$> p) (h <$> closing)
          = f <$> between opening p closing
      ∧ token (f <$> p) = f <$> token p
      ∧ (∀ (δ : Type) (p' : Parser δ), p.outline = p'.outline →
          List.length <$> many p = List.length <$> many p'
            ∧ List.length <$> many1 p = List.length <$> many1 p'
            ∧ List.length <$> sepBy p separator
                = List.length <$> sepBy p' separator)
      ∧ (∀ (δ : Type) (separator' : Parser δ),
          separator.outline = separator'.outline →
          sepBy p separator = sepBy p separator')
      ∧ ∀ (δ ε : Type) (opening' : Parser δ) (closing' : Parser ε),
          opening.outline = opening'.outline →
          closing.outline = closing'.outline →
          between opening p closing = between opening' p closing' := by
  refine ⟨many_map f p, many1_map f p, sepBy_map f g p separator,
    between_map f g h opening p closing, token_map f p,
    fun δ p' hp =>
      ⟨length_congr many many_map hp, length_congr many1 many1_map hp,
        length_congr (sepBy · separator)
          (fun f p => sepBy_map_left f p separator) hp⟩,
    fun δ separator' hs => ?_, fun δ ε opening' closing' ho hc => ?_⟩
  · rw [← sepBy_outline, hs, sepBy_outline]
  · rw [← between_outline, ho, hc, between_outline]

/-- Capital letters, from a parser of two candidates, with commas whose values
  differ. -/
theorem mapping_laws_letters :
    sepBy (Char.toUpper <$> letterOrStay) commaOrNothing
          ['a', 'b', ',', 'c', '1']
        = some [(['A', 'B', 'C'], ['1'])]
      ∧ commaOrNothing.outline = ((fun _ => false) <$> commaOrNothing).outline
      ∧ sepBy letterOrStay commaOrNothing
          = sepBy letterOrStay ((fun _ => false) <$> commaOrNothing) := by
  have houtline :
      commaOrNothing.outline = ((fun _ => false) <$> commaOrNothing).outline :=
    comp_map (fun _ : Unit => false) (fun _ : Bool => ()) commaOrNothing
  obtain ⟨-, -, hlist, -, -, -, hseparator, -⟩ :=
    mapping_laws Char.toUpper id id letterOrStay commaOrNothing commaOrNothing
      commaOrNothing
  refine ⟨?_, houtline, hseparator Bool _ houtline⟩
  rw [id_map] at hlist
  rw [hlist]
  rfl

end Parser

end CommittedChoice
