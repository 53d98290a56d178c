import Mathlib.Algebra.Group.Int.Defs
import CommittedChoice.Proofs.Arithmetic.Language
import CommittedChoice.Proofs.Parser.Separated
import CommittedChoice.Proofs.Parser.Settle

/-!
# Lists of numbers

A list of numbers has a grammar without any parser: a bracket, one element or
more with commas between them, and a bracket, where an element is a numeral with
white space around it. The parser takes the lists of this grammar in which every
number is a word, and nothing else (`Lexer.nats_exact`).

The loop inside leaves an element that it cannot read, and the comma in front of
it. This would give a shorter list, if it were not for the closing bracket,
which has to come next. So one bad element is enough for the list to fail as a
whole. What the text up to the first closing bracket has between its commas
decides: the list is read if each of these cells is an element that fits, and
there is none if one of them is not, be it empty, out of range or anything else.
-/

namespace CommittedChoice

namespace Lexer

open CommittedChoice.Parser CommittedChoice.Arithmetic

/-! ## The grammar -/

/-- **An element of a list**: a numeral with white space around it. -/
structure Element where
  /-- The white space in front. -/
  before : Blanks
  /-- The numeral, with any number of zeros in front. -/
  numeral : Numeral
  /-- The white space behind. -/
  after : Blanks

namespace Element

/-- The text of an element. -/
def text (e : Element) : Text :=
  e.before.text ++ (e.numeral.text ++ e.after.text)

/-- **The exact value of an element.** -/
def value (e : Element) : Int := Decimal.value e.numeral.text

/-- **An element fits** if its value is that of a word, which it can only fail
  to be by being too large. -/
def Fits (e : Element) : Prop := e.value ≤ 2 ^ 63 - 1

end Element

/-- The text of elements with commas between them. -/
def elementsText (elements : List Element) : Text :=
  [','].intercalate (elements.map Element.text)

/-- **A list in brackets**, of one element or more. -/
structure Listing where
  /-- The white space in front of the opening bracket. -/
  before : Blanks
  /-- The elements. -/
  elements : List Element
  /-- There is one. -/
  ne_nil : elements ≠ []

/-- **The text of a list.** It ends with its closing bracket. -/
def Listing.text (l : Listing) : Text :=
  l.before.text ++ '[' :: (elementsText l.elements ++ [']'])

/-! ## Elements -/

variable {s t r : Text} {v : Word} {vs : List Word}

theorem elementsText_singleton (e : Element) : elementsText [e] = e.text :=
  List.intercalate_singleton

theorem elementsText_cons_cons (e e' : Element) (es : List Element) :
    elementsText (e :: e' :: es)
      = e.text ++ ',' :: elementsText (e' :: es) := by
  unfold elementsText
  rw [List.map_cons, List.map_cons, List.intercalate_cons_cons,
    List.append_assoc]
  rfl

/-- An element fits exactly if its value is that of a word. -/
theorem Element.fits_iff {e : Element} :
    e.Fits ↔ ∃ v : Word, v.toInt = e.value := by
  rw [← Word.inRange_iff]
  unfold Fits Word.InRange Word.least Word.greatest value
  omega

/-- So elements that fit have the values of words. -/
theorem exists_values {es : List Element} (h : ∀ e ∈ es, e.Fits) :
    ∃ vs : List Word, es.map Element.value = vs.map Int64.toInt := by
  induction es with
  | nil => exact ⟨[], rfl⟩
  | cons e es ih =>
    obtain ⟨v, hv⟩ := Element.fits_iff.1 (h e List.mem_cons_self)
    obtain ⟨vs, hvs⟩ := ih fun e' he => h e' (List.mem_cons_of_mem e he)
    exact ⟨v :: vs, by rw [List.map_cons, List.map_cons, hv, hvs]⟩

theorem fits_of_values {es : List Element}
    (h : es.map Element.value = vs.map Int64.toInt) :
    ∀ e ∈ es, e.Fits := by
  intro e he
  have hmem : e.value ∈ vs.map Int64.toInt := h ▸ List.mem_map_of_mem he
  obtain ⟨v, -, hv⟩ := List.mem_map.1 hmem
  exact Element.fits_iff.2 ⟨v, hv⟩

/-- There is nothing but white space and digits in an element. -/
theorem Element.not_mem_text {c : Char} (hb : isBlank c = false)
    (hd : c.isDigit = false) (e : Element) : c ∉ e.text := by
  unfold text
  rw [List.mem_append, List.mem_append]
  rintro (h | h | h)
  · simp [e.before.isBlank_of_mem c h] at hb
  · simp [e.numeral.isDigit_of_mem c h] at hd
  · simp [e.after.isBlank_of_mem c h] at hb

theorem not_mem_elementsText {c : Char} (hb : isBlank c = false)
    (hd : c.isDigit = false) (hc : c ≠ ',') (es : List Element) :
    c ∉ elementsText es := by
  induction es with
  | nil => simp [elementsText]
  | cons e es ih =>
    match es with
    | [] =>
      rw [elementsText_singleton]
      exact e.not_mem_text hb hd
    | e' :: es =>
      rw [elementsText_cons_cons, List.mem_append, List.mem_cons]
      rintro (h | h | h)
      · exact e.not_mem_text hb hd h
      · exact hc h
      · exact ih h

/-- The cells between the commas are the elements. -/
theorem splitOn_elementsText {es : List Element} (h : es ≠ []) :
    (elementsText es).splitOn ',' = es.map Element.text := by
  refine List.splitOn_intercalate ',' (fun cell hcell => ?_) (by simpa using h)
  obtain ⟨e, -, rfl⟩ := List.mem_map.1 hcell
  exact e.not_mem_text (by decide) (by decide)

/-! ## From candidates to lists -/

/-- Separators and elements are elements with commas, up to the white space in
  front of a closing bracket. -/
theorem exists_elements_of_listed (h : Listed natural (symbol [',']) s vs t)
    {w : Blanks} (ht : t = w.text ++ ']' :: r) :
    ∃ es : List Element, es ≠ [] ∧ s = elementsText es ++ ']' :: r
      ∧ es.map Element.value = vs.map Int64.toInt := by
  induction h with
  | last h _ =>
    obtain ⟨ds, hne, hds, hskip, hv⟩ :=
      offers_natural ⟨_, h, List.mem_cons_self⟩
    obtain ⟨w', rfl⟩ := exists_blanks_of_skipBlanks hskip
    refine ⟨[⟨w', ⟨ds, hne, hds⟩, w⟩], List.cons_ne_nil _ _, ?_,
      by simp [Element.value, hv]⟩
    simp [elementsText_singleton, Element.text, ht]
  | cons h hsep _ ih =>
    obtain ⟨ds, hne, hds, hskip, hv⟩ :=
      offers_natural ⟨_, h, List.mem_cons_self⟩
    obtain ⟨w', rfl⟩ := exists_blanks_of_skipBlanks hskip
    obtain ⟨w'', rfl⟩ :=
      exists_blanks_of_skipBlanks (offers_symbol ⟨_, hsep, List.mem_cons_self⟩)
    obtain ⟨es, hes, rfl, hvs⟩ := ih ht
    refine ⟨⟨w', ⟨ds, hne, hds⟩, w''⟩ :: es, List.cons_ne_nil _ _, ?_, ?_⟩
    · match es with
      | e :: es => simp [elementsText_cons_cons, Element.text]
    · simp [Element.value, hv, ← hvs]

/-- **A candidate stands for a list.** -/
theorem exists_listing_of_offers (h : Offers nats s vs r) :
    ∃ l : Listing, s = l.text ++ r ∧ l.elements.map Element.value
      = vs.map Int64.toInt := by
  obtain ⟨_, s', t, _, hopen, hlist, hclose⟩ := offers_between h
  obtain ⟨w, rfl⟩ := exists_blanks_of_skipBlanks (offers_symbol hopen)
  obtain ⟨w', ht⟩ := exists_blanks_of_skipBlanks (offers_symbol hclose)
  obtain ⟨es, hes, rfl, hvs⟩ :=
    exists_elements_of_listed (listed_of_offers hlist) ht
  exact ⟨⟨w, es, hes⟩, by simp [Listing.text], hvs⟩

/-! ## From lists to candidates -/

/-- A number ends in front of white space and a comma or a bracket. -/
theorem natural_element (e : Element) (hv : v.toInt = e.value) {c : Char}
    (hb : isBlank c = false) (hd : c.isDigit = false) (t : Text) :
    natural (e.text ++ c :: t) = some [(v, e.after.text ++ c :: t)] := by
  have hends : Rule.factor.Ends (e.after.text ++ c :: t) :=
    Rule.ends_blanks_append e.after hb hd (by simp [Rule.operators]) t
  have h := natural_number e.before e.numeral hends.digit hv
  simpa [Element.text] using h

/-- Elements with commas are separators and elements, in front of a closing
  bracket. -/
theorem exists_listed_of_elements {es : List Element} (hes : es ≠ [])
    (hvs : es.map Element.value = vs.map Int64.toInt) (r : Text) :
    ∃ w : Blanks, Listed natural (symbol [',']) (elementsText es ++ ']' :: r) vs
      (w.text ++ ']' :: r) := by
  induction es generalizing vs with
  | nil => exact absurd rfl hes
  | cons e es ih =>
    match vs with
    | v :: vs =>
      obtain ⟨hv, hvs⟩ := List.cons.inj hvs
      match es with
      | [] =>
        obtain rfl : vs = [] := List.map_eq_nil_iff.1 hvs.symm
        have hclose : skipBlanks (e.after.text ++ ']' :: r) = ']' :: r :=
          e.after.skipBlanks_append_cons (by decide) r
        rw [elementsText_singleton]
        exact ⟨e.after,
          .last (natural_element e hv.symm (by decide) (by decide) r)
            (.inl (symbol_of_head?_ne (by simp [hclose])))⟩
      | e' :: es =>
        obtain ⟨w, hlisted⟩ := ih (List.cons_ne_nil _ _) hvs
        rw [elementsText_cons_cons, List.append_assoc, List.cons_append]
        exact ⟨w, .cons (natural_element e hv.symm (by decide) (by decide) _)
          (symbol_of_skipBlanks (e.after.skipBlanks_append_cons (by decide) _))
          hlisted⟩

/-- **A list whose numbers are words is taken** in front of any text. -/
theorem nats_listing (l : Listing)
    (hvs : l.elements.map Element.value = vs.map Int64.toInt) (r : Text) :
    nats (l.text ++ r) = some [(vs, r)] := by
  have hshrinks : Shrinks (symbol [','] >>= fun _ => natural) :=
    (Consumes.bind_right (leavesSuffix_symbol _) fun _ =>
      consumes_of_settles settles_natural).shrinks
  obtain ⟨w, hlisted⟩ := exists_listed_of_elements l.ne_nil hvs r
  have hopen : symbol ['['] (l.text ++ r)
      = some [(['['], elementsText l.elements ++ ']' :: r)] := by
    refine symbol_of_skipBlanks ?_
    rw [Listing.text, List.append_assoc, List.cons_append, List.append_assoc]
    exact l.before.skipBlanks_append_cons (by decide) _
  have hclose : symbol [']'] (w.text ++ ']' :: r) = some [([']'], r)] :=
    symbol_of_skipBlanks (w.skipBlanks_append_cons (by decide) r)
  unfold nats between
  rw [bind_apply, hopen, Outcome.commit_cons, bind_apply,
    hlisted.sepBy_eq hshrinks, Outcome.commit_cons, bind_apply, hclose]
  rfl

/-! ## The first closing bracket -/

/-- What stands in front of the first closing bracket is told apart. -/
theorem append_bracket_inj {front front' : Text} (h : ']' ∉ front)
    (h' : ']' ∉ front') (heq : front ++ ']' :: t = front' ++ ']' :: r) :
    front = front' ∧ t = r := by
  have hrun {l : Text} (hl : ']' ∉ l) : ∀ c ∈ l, (c != ']') = true := by
    rintro c hc
    rw [bne_iff_ne]
    rintro rfl
    exact hl hc
  have htake := congrArg (List.takeWhile (· != ']')) heq
  rw [takeWhile_append_of_head (hrun h) (by simp),
    takeWhile_append_of_head (hrun h') (by simp)] at htake
  obtain rfl := htake
  exact ⟨rfl, (List.cons.inj (List.append_cancel_left heq)).2⟩

/-- A list in front of a text has its own first closing bracket. -/
theorem Listing.append_inj {l : Listing} {w : Blanks} {front : Text}
    (h : ']' ∉ front)
    (heq : w.text ++ '[' :: (front ++ ']' :: t) = l.text ++ r) :
    front = elementsText l.elements ∧ t = r := by
  have helements : ']' ∉ elementsText l.elements :=
    not_mem_elementsText (by decide) (by decide) (by decide) l.elements
  rw [Listing.text, List.append_assoc, List.cons_append,
    List.append_assoc] at heq
  obtain ⟨-, -, heq⟩ := Blanks.append_cons_inj (by decide) (by decide) heq
  exact append_bracket_inj h helements heq

/-- Cells that are elements are those of a list. -/
theorem exists_elements_of_cells {cells : List Text}
    (h : ∀ cell ∈ cells, ∃ e : Element, e.text = cell ∧ e.Fits) :
    ∃ es : List Element, es.map Element.text = cells ∧ ∀ e ∈ es, e.Fits := by
  induction cells with
  | nil => exact ⟨[], rfl, by simp⟩
  | cons cell cells ih =>
    obtain ⟨e, rfl, hfit⟩ := h cell List.mem_cons_self
    obtain ⟨es, rfl, hfits⟩ :=
      ih fun cell' hcell => h cell' (List.mem_cons_of_mem _ hcell)
    exact ⟨e :: es, rfl, List.forall_mem_cons.2 ⟨hfit, hfits⟩⟩

/-- **A list of numbers, or none.** -/
theorem nats_eq_nil_or (s : Text) :
    nats s = some []
      ∨ ∃ (l : Listing) (vs : List Word) (r : Text), s = l.text ++ r
          ∧ l.elements.map Element.value = vs.map Int64.toInt
          ∧ nats s = some [(vs, r)] := by
  obtain h | ⟨vs, r, h, -⟩ := settles_nats s
  · exact .inl h
  · obtain ⟨l, hs, hvs⟩ := exists_listing_of_offers ⟨_, h, List.mem_cons_self⟩
    exact .inr ⟨l, vs, r, hs, hvs, h⟩

/-- **The cells decide.** Where a bracket is closed, there is no list exactly if
  one of the cells between the commas is not an element that fits. -/
theorem nats_eq_nil_iff_cells (w : Blanks) {front : Text} (hfront : ']' ∉ front)
    (r : Text) :
    nats (w.text ++ '[' :: (front ++ ']' :: r)) = some []
      ↔ ∃ cell ∈ front.splitOn ',',
          ¬ ∃ e : Element, e.text = cell ∧ e.Fits := by
  constructor
  · intro hnil
    refine Classical.byContradiction fun hno => ?_
    have hcells : ∀ cell ∈ front.splitOn ',',
        ∃ e : Element, e.text = cell ∧ e.Fits :=
      fun cell hcell => Classical.byContradiction fun h => hno ⟨cell, hcell, h⟩
    obtain ⟨es, hes, hfits⟩ := exists_elements_of_cells hcells
    obtain ⟨vs, hvs⟩ := exists_values hfits
    have hne : es ≠ [] := by
      rintro rfl
      exact List.splitOn_ne_nil ',' front hes.symm
    have htext : elementsText es = front := by
      rw [elementsText, hes]
      exact List.intercalate_splitOn ','
    have htaken := nats_listing ⟨w, es, hne⟩ hvs r
    simp [Listing.text, htext, hnil] at htaken
  · rintro ⟨cell, hcell, hno⟩
    obtain h | ⟨l, vs, r', hs, hvs, -⟩ :=
      nats_eq_nil_or (w.text ++ '[' :: (front ++ ']' :: r))
    · exact h
    · obtain ⟨rfl, -⟩ := Listing.append_inj hfront hs
      rw [splitOn_elementsText l.ne_nil] at hcell
      obtain ⟨e, he, rfl⟩ := List.mem_map.1 hcell
      exact absurd ⟨e, rfl, fits_of_values hvs e he⟩ hno

/-- **The lists that are taken are those of the grammar**, as far as their
  numbers are words. A text has the numbers of a list for its candidate exactly
  if it is the text of the list and what is left, and otherwise there is no
  candidate. So there is none without an opening bracket, or without a closing
  one; and where there are both, there is none exactly if one of the cells
  between the commas is not an element that fits. -/
theorem nats_exact (s : Text) :
    (∀ vs r, nats s = some [(vs, r)]
        ↔ ∃ l : Listing, s = l.text ++ r ∧ (∀ e ∈ l.elements, e.Fits)
            ∧ l.elements.map Element.value = vs.map Int64.toInt)
      ∧ ((¬ ∃ (l : Listing) (r : Text),
            s = l.text ++ r ∧ ∀ e ∈ l.elements, e.Fits) →
          nats s = some [])
      ∧ ((skipBlanks s).head? ≠ some '[' → nats s = some [])
      ∧ ∀ (w : Blanks) (content : Text), s = w.text ++ '[' :: content →
          (']' ∉ content → nats s = some [])
            ∧ ∀ front r, content = front ++ ']' :: r → ']' ∉ front →
                (nats s = some []
                  ↔ ∃ cell ∈ front.splitOn ',',
                      ¬ ∃ e : Element, e.text = cell ∧ e.Fits) := by
  refine ⟨fun vs r => ⟨fun h => ?_, ?_⟩, fun hno => ?_, fun hopen => ?_,
    fun w content hs => ⟨fun hclose => ?_, ?_⟩⟩
  · obtain ⟨l, hs, hvs⟩ := exists_listing_of_offers ⟨_, h, List.mem_cons_self⟩
    exact ⟨l, hs, fits_of_values hvs, hvs⟩
  · rintro ⟨l, rfl, -, hvs⟩
    exact nats_listing l hvs r
  · obtain h | ⟨l, vs, r, hs, hvs, -⟩ := nats_eq_nil_or s
    · exact h
    · exact absurd ⟨l, r, hs, fits_of_values hvs⟩ hno
  · unfold nats between
    rw [bind_apply, symbol_of_head?_ne hopen, Outcome.commit_nil]
  · obtain h | ⟨l, vs, r, hs', -, -⟩ := nats_eq_nil_or s
    · exact h
    · rw [hs, Listing.text, List.append_assoc, List.cons_append,
        List.append_assoc] at hs'
      obtain ⟨-, -, rfl⟩ := Blanks.append_cons_inj (by decide) (by decide) hs'
      simp at hclose
  · rintro front r rfl hfront
    rw [hs]
    exact nats_eq_nil_iff_cells w hfront r

/-- A sign in one cell is enough to lose the list, and white space and zeros
  are not. -/
theorem nats_exact_signed :
    (']' ∉ "1 , -2".toList ∧ nats "[1 , -2]3".toList = some [])
      ∧ nats " [1 , 02] 3".toList = some [([1, 2], [' ', '3'])]
      ∧ ∃ l : Listing, " [1 , 02] 3".toList = l.text ++ [' ', '3']
          ∧ l.elements.map Element.value = [1, 2] := by
  have hclose : ']' ∉ "1 , -2".toList := by decide
  have hsigned : ¬ ∃ e : Element, e.text = [' ', '-', '2'] ∧ e.Fits := by
    rintro ⟨e, he, -⟩
    exact e.not_mem_text (c := '-') (by decide) (by decide) (by rw [he]; decide)
  have hcells : ∃ cell ∈ "1 , -2".toList.splitOn ',',
      ¬ ∃ e : Element, e.text = cell ∧ e.Fits :=
    ⟨[' ', '-', '2'], by decide, hsigned⟩
  obtain ⟨-, -, -, hbracket⟩ := nats_exact "[1 , -2]3".toList
  have hnil :=
    ((hbracket ⟨[], by simp⟩ _ rfl).2 "1 , -2".toList ['3'] rfl hclose).2 hcells
  have h : nats " [1 , 02] 3".toList = some [([1, 2], [' ', '3'])] := by
    decide +kernel
  obtain ⟨l, hl, -, hvs⟩ := ((nats_exact _).1 _ _).1 h
  exact ⟨⟨hclose, hnil⟩, h, l, hl, hvs⟩

end Lexer

end CommittedChoice
