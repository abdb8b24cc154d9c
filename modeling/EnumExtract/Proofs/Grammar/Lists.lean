/-
  EnumExtract.Proofs.Grammar.Lists
  ────────────────────────────────
  Lists in brackets as they are written, and how they are cut.

  A list has a comma between two elements and may have one behind the last.
  The elements leave no bracket open and no comma of theirs separates, so the
  list is cut at its own commas; what stands behind a last comma is dropped.

  Main results:
    • `Series.cut`      the stretches of a list are those of its elements,
    • `Series.pieces`   a list in brackets is closed by its bracket, and its
                        pieces hold its elements in order.
-/
import EnumExtract.Proofs.Grammar.Spelling

namespace EnumExtract

open Cursor

/-! ## §1. Lists. -/

/-- Elements with a comma behind each, perhaps but the last. -/
inductive Series (α : Type) where
  | nil
  | last (x : α)
  | more (x : α) (rest : Series α)

namespace Series

variable {α : Type}

def elements : Series α → List α
  | nil => []
  | last x => [x]
  | more x rest => x :: rest.elements

def tokens (f : α → List Token) : Series α → List Token
  | nil => []
  | last x => f x
  | more x rest => f x ++ .mark .comma :: rest.tokens f

end Series

/-- The tokens can be the element of a list: not only notes, and none that cuts. -/
structure Token.IsElement (ts : List Token) : Prop where
  filled : ∃ (as : List Note) (tok : Token) (us : List Token),
    ts = as.map .note ++ tok :: us ∧ tok.isNote = false
  track : Opened.start.track ts = some .start

/-- The tokens from the start of the piece to its end. -/
structure Piece.Holds (ts : List Token) (p : Piece) (d : Cursor) : Prop where
  onward : p.start.LeadsTo d
  stop : d.offset = p.stop
  spaced : Spaced d.ahead ts p.start.ahead
  clear : p.start.Clear
  ends : ∃ ch r, d.ahead = ch :: r ∧ (ch = ',' ∨ isCloser ch = true)

/-! ## §2. Pieces of a list. -/

section Pieces

variable {tail : Text} {ts us : List Token} {tok : Token} {c d : Cursor} {p : Piece}

/-- White space in front of a token counts to the tokens before it. -/
theorem Spaced.splitAt {t : Text} (h : Spaced tail (ts ++ tok :: us) t) :
    ∃ w, Spaced (tok.text ++ w) ts t ∧ tok.Apart w ∧ Spaced tail us w := by
  obtain ⟨mid, left, right⟩ := h.split
  obtain ⟨b, _, rfl, blank, ⟨⟨⟩, _⟩ | ⟨_, _, w, ⟨⟩, rfl, apart, rest⟩⟩ := right.exists_gap
  exact ⟨w, left.of_gap blank, apart, rest⟩

/-- Tokens that leave nothing open are read up to the token behind them. -/
theorem Spaced.reads_to (h : Spaced tail (ts ++ tok :: us) c.ahead) (clear : c.Clear)
    (track : Opened.start.track ts = some .start) :
    ∃ code y w, Reads c code y ∧ Carries code .start .start ∧ y.Clear ∧ y.ahead = tok.text ++ w
      ∧ Spaced (tok.text ++ w) ts c.ahead ∧ Spaced tail us w := by
  obtain ⟨w, left, _, right⟩ := h.splitAt
  obtain ⟨code, y, reads, ahead, clear', carries⟩ := left.reads clear track
  exact ⟨code, y, w, reads, carries, clear', ahead, left, right⟩

/-- A token lies before what stands behind it. -/
theorem Spaced.offset_lt {x : Cursor} (h : Spaced d.ahead (tok :: ts) x.ahead) (toToken : c.LeadsTo x)
    (onward : c.LeadsTo d) : x.offset < d.offset := by
  obtain ⟨b, _, eq, _, ⟨⟨⟩, _⟩ | ⟨_, _, w, ⟨⟩, rfl, _, rest⟩⟩ := h.exists_gap
  obtain ⟨u, rfl, _⟩ := rest.exists_text
  have pos := List.length_pos_of_ne_nil tok.text_ne_nil
  have size := congrArg List.length eq
  simp only [List.length_append] at size
  have ends := toToken.end_eq
  have ends' := onward.end_eq
  omega

/-- White space in front of a token is trivia, and a token that is no comment ends it. -/
theorem Spaced.trivia_stop (h : Spaced tail (tok :: ts) c.ahead)
    (stops : ∀ {p : Cursor} {w : Text}, p.ahead = tok.text ++ w → tok.Apart w → p.trivium? false = .ok none) :
    ∃ x, Trivia false c x ∧ Spaced tail (tok :: ts) x.ahead := by
  obtain ⟨b, _, eq, blank, ⟨⟨⟩, _⟩ | ⟨_, _, w, ⟨⟩, rfl, apart, rest⟩⟩ := h.exists_gap
  have ahead := ahead_advance eq
  refine ⟨_, .blanks eq blank (.stop (stops ahead apart)), ?_⟩
  rw [ahead]
  exact .cons IsGap.nil apart rest

/-- A doc comment is a comment. -/
theorem DocComment.comment? {doc : DocComment} {w : Text} (eq : c.ahead = doc.text ++ w) :
    c.comment? = .ok (some doc.text.length) := by
  rcases lexeme?_some_iff.mp (lexeme?_doc eq) with comment | ⟨none, _⟩
  · exact comment
  · exact absurd none (comment?_of_startsDocComment (by rw [eq]; exact doc.startsDocComment w))

/-- A doc comment is trivia for a reader that does not keep it. -/
theorem Spaced.trivia_doc {doc : DocComment} (h : Spaced tail (.note (.doc doc) :: ts) c.ahead) :
    ∃ x, (∀ y, Trivia false x y → Trivia false c y) ∧ Spaced tail ts x.ahead := by
  obtain ⟨b, _, eq, blank, ⟨⟨⟩, _⟩ | ⟨_, _, w, ⟨⟩, rfl, apart, rest⟩⟩ := h.exists_gap
  have ahead : (c.advance b.length).ahead = doc.text ++ w := ahead_advance eq
  have behind := ahead_advance ahead
  have first : (c.advance b.length).ahead.head? = some '/' := by
    rw [ahead]
    rfl
  refine ⟨_, fun y h => .blanks eq blank (.pass ?_ h), by rw [behind]; exact rest⟩
  rw [trivium?_of_notBlank first rfl]
  exact DocComment.comment? ahead

/-- Trivia in front of an element ends in it. -/
theorem Token.IsElement.trivia (h : Token.IsElement ts) (spaced : Spaced d.ahead ts c.ahead)
    (onward : c.LeadsTo d) : ∃ x, Trivia false c x ∧ x.offset < d.offset := by
  obtain ⟨⟨as, tok, us, rfl, plain⟩, track⟩ := h
  clear track
  have comes {tok : Token} {us : List Token} {y : Cursor} (spaced : Spaced d.ahead (tok :: us) y.ahead)
      (stops : ∀ {p : Cursor} {w : Text}, p.ahead = tok.text ++ w → tok.Apart w → p.trivium? false = .ok none)
      (toHere : ∀ x, Trivia false y x → Trivia false c x) :
      ∃ x, Trivia false c x ∧ x.offset < d.offset := by
    obtain ⟨x, trivia, at'⟩ := spaced.trivia_stop stops
    exact ⟨x, toHere x trivia, at'.offset_lt (toHere x trivia).leadsTo onward⟩
  -- doc comments are passed over as trivia, an attribute is not
  have skip : ∀ {as : List Note} {y : Cursor}, (∀ x, Trivia false y x → Trivia false c x) →
      Spaced d.ahead (as.map .note ++ tok :: us) y.ahead →
        ∃ x, Trivia false c x ∧ x.offset < d.offset := by
    intro as
    induction as with
    | nil =>
        intro y toHere spaced
        refine comes spaced (fun eq apart => ?_) toHere
        have still := Token.still plain apart
        rw [← eq] at still
        exact still.trivium?
    | cons a as ih =>
        intro y toHere spaced
        cases a with
        | doc doc =>
            obtain ⟨x, toHere', rest⟩ := Spaced.trivia_doc spaced
            exact ih (fun y trivia => toHere y (toHere' y trivia)) rest
        | bracketed a =>
            exact comes spaced (fun eq _ => trivium?_of_first (by rw [eq]; rfl) rfl (by decide)) toHere
  exact skip (fun _ => id) spaced

theorem Piece.Holds.isFilled (h : p.Holds ts d) (element : Token.IsElement ts) :
    p.isFilled = .ok true := by
  obtain ⟨x, trivia, lt⟩ := element.trivia h.spaced h.onward
  rw [h.stop] at lt
  exact Piece.isFilled_ok_iff.mpr ⟨x, trivia, (decide_eq_true lt).symm⟩

end Pieces

section Commas

variable {w : Text} {code more : List (Cursor × Char)} {c y d : Cursor}

/-- Code that leaves nothing open is one stretch. -/
theorem Carries.uncut (h : Carries code .start .start) (c : Cursor) :
    Cutting.over ⟨[], c, 0, 0⟩ code = ⟨[], c, 0, 0⟩ :=
  h.cuts [] c

theorem Carries.balanced (h : Carries code .start .start) : Balanced code :=
  nest_balanced h.nests

theorem Cursor.Reads.comma (h : Reads c code y) (comma : y.ahead = ',' :: w)
    (h' : Reads (y.advance 1) more d) : Reads c (code ++ (y, ',') :: more) d := by
  have first : y.ahead.head? = some ',' := by rw [comma]; rfl
  have none : y.lexeme? = .ok none := lexeme?_eq_none fun ch here => by
    rw [first] at here
    cases here
    rfl
  exact h.trans (.char none first h')

theorem Balanced.comma (h : Balanced code) (h' : Balanced more) : Balanced (code ++ (y, ',') :: more) := by
  have separator : Balanced [(y, ',')] := .of_plain (by simp [bracketWeight, closer?, isCloser])
  exact h.append (separator.append h')

/-- A comma behind code that leaves nothing open ends a stretch. -/
theorem Carries.pieces_comma (h : Carries code .start .start) (c : Cursor) (stop : Nat) :
    (Cutting.over ⟨[], c, 0, 0⟩ (code ++ (y, ',') :: more)).pieces stop
      = ⟨c, y.offset⟩ :: (Cutting.over ⟨[], y.advance 1, 0, 0⟩ more).pieces stop := by
  rw [Cutting.over_append, h.uncut, Cutting.pieces_comma]

end Commas

/-- The pieces hold the elements in order; the last may hold nothing. -/
inductive Fills {α : Type} (R : α → Piece → Prop) : List α → List Piece → Prop where
  | empty {p : Piece} (h : p.isFilled = .ok false) : Fills R [] [p]
  | last {x : α} {p : Piece} (h : R x p) : Fills R [x] [p]
  | more {x : α} {p : Piece} {xs : List α} {ps : List Piece} (h : R x p) (rest : Fills R xs ps) :
      Fills R (x :: xs) (p :: ps)

namespace Fills

variable {α : Type} {R : α → Piece → Prop} {xs : List α} {ps : List Piece}

/-- The pieces that are filled hold the elements. -/
theorem exists_filter (h : Fills R xs ps) (filled : ∀ x ∈ xs, ∀ p, R x p → p.isFilled = .ok true) :
    (∀ p ∈ ps, p.isFilled = .ok (holds (·.isFilled) p))
      ∧ List.Forall₂ R xs (ps.filter (holds (·.isFilled))) := by
  induction h with
  | @empty p h =>
      have known : holds (·.isFilled) p = false := holds_of_ok h
      refine ⟨fun q mem => ?_, ?_⟩
      · rw [List.mem_singleton] at mem
        rw [mem, known]
        exact h
      · rw [List.filter_cons_of_neg (by rw [known]; decide)]
        exact .nil
  | @last x p h =>
      have isFilled := filled x List.mem_cons_self p h
      have known : holds (·.isFilled) p = true := holds_of_ok isFilled
      refine ⟨fun q mem => ?_, ?_⟩
      · rw [List.mem_singleton] at mem
        rw [mem, known]
        exact isFilled
      · rw [List.filter_cons_of_pos known]
        exact .cons h .nil
  | @more x p xs ps h rest ih =>
      have isFilled := filled x List.mem_cons_self p h
      have known : holds (·.isFilled) p = true := holds_of_ok isFilled
      obtain ⟨all, found⟩ := ih fun x mem => filled x (List.mem_cons_of_mem _ mem)
      refine ⟨fun q mem => ?_, ?_⟩
      · rcases List.mem_cons.mp mem with rfl | mem
        · rw [known]
          exact isFilled
        · exact all q mem
      · rw [List.filter_cons_of_pos known]
        exact .cons h found

/-- A list in brackets is closed by its bracket, and its pieces hold its elements. -/
theorem pieces {opening d : Cursor} {opener closer : Char} {v w : Text} {code : List (Cursor × Char)}
    (opens : opening.ahead = opener :: v) (pair : closer? opener = some closer)
    (reads : Reads (opening.advance 1) code d) (balanced : Balanced code) (ahead : d.ahead = closer :: w)
    (fills : Fills R xs ((Cutting.over ⟨[], opening.advance 1, 0, 0⟩ code).pieces d.offset))
    (filled : ∀ x ∈ xs, ∀ p, R x p → p.isFilled = .ok true) :
    opening.closing = .ok d
      ∧ ∃ ps, (opening.advance 1).pieces d.offset = .ok ps ∧ List.Forall₂ R xs ps := by
  have encloses : Encloses opening code d :=
    ⟨reads, balanced [], opener, closer, by rw [opens]; rfl, pair, by rw [ahead]; rfl⟩
  obtain ⟨known, found⟩ := fills.exists_filter filled
  exact ⟨closing_ok_iff.mpr ⟨code, encloses⟩, _,
    bind_ok_iff.mpr ⟨_, allPieces_of_reads reads, filterM_ok_iff.mpr ⟨known, rfl⟩⟩, found⟩

end Fills

theorem Text.Firm.of_isCloser {ch : Char} {w : Text} (h : isCloser ch = true) : Text.Firm (ch :: w) := by
  rintro _ ⟨⟩
  refine ⟨isBracket_not_blank (.inr h), ?_, ?_⟩ <;> rintro rfl <;> cases h

/-! ## §3. Reading a list. -/

namespace Series

variable {α : Type} {f : α → List Token} {tail : Text} {us : List Token} {close : Token}

/-- What reading a list up to its closing bracket finds. -/
structure IsCut (s : Series α) (f : α → List Token) (c d : Cursor) (code : List (Cursor × Char)) : Prop where
  reads : Reads c code d
  balanced : Balanced code
  fills : Fills (fun ts p => ∃ d, Piece.Holds ts p d) (s.elements.map f)
    ((Cutting.over ⟨[], c, 0, 0⟩ code).pieces d.offset)

/-- **The stretches of a list are those of its elements.** -/
theorem cut {closer : Char} (text : close.text = [closer]) (closes : isCloser closer = true)
    (s : Series α) : ∀ {c : Cursor}, Spaced tail (s.tokens f ++ close :: us) c.ahead → c.Clear →
      (∀ x ∈ s.elements, Token.IsElement (f x)) →
      ∃ code d w, s.IsCut f c d code ∧ d.Clear ∧ d.ahead = closer :: w ∧ Spaced tail us w := by
  induction s with
  | nil =>
      intro c h clear _
      have h : Spaced tail ([] ++ close :: us) c.ahead := h
      obtain ⟨code, y, w, reads, carries, clear', ahead, left, right⟩ := h.reads_to clear rfl
      rw [text] at ahead
      rw [text, ← ahead] at left
      refine ⟨code, y, w, ⟨reads, carries.balanced, ?_⟩, clear', ahead, right⟩
      rw [carries.uncut]
      refine .empty ?_
      have firm : Text.Firm y.ahead := by
        rw [ahead]
        exact .of_isCloser closes
      obtain ⟨x, trivia, at'⟩ := left.trivia clear firm.still
      refine Piece.isFilled_ok_iff.mpr ⟨x, trivia false, ?_⟩
      have ends := (trivia false).leadsTo.end_eq
      have ends' := reads.leadsTo.end_eq
      rw [at'.ahead] at ends
      have notBefore : ¬ x.offset < y.offset := by omega
      exact (decide_eq_false notBefore).symm
  | last x =>
      intro c h clear element
      have isElement := element x List.mem_cons_self
      obtain ⟨code, y, w, reads, carries, clear', ahead, left, right⟩ := h.reads_to clear isElement.track
      rw [text] at ahead
      rw [text, ← ahead] at left
      refine ⟨code, y, w, ⟨reads, carries.balanced, ?_⟩, clear', ahead, right⟩
      rw [carries.uncut]
      exact .last ⟨y, reads.leadsTo, rfl, left, clear, closer, w, ahead, .inr closes⟩
  | more x rest ih =>
      intro c h clear element
      have isElement := element x List.mem_cons_self
      rw [Series.tokens, List.append_assoc] at h
      obtain ⟨code, y, w, reads, carries, clear', ahead, left, right⟩ := h.reads_to clear isElement.track
      have comma : y.ahead = ',' :: w := ahead
      have behind : (y.advance 1).ahead = w := by rw [advance_ahead, comma]; rfl
      rw [← behind] at right
      obtain ⟨more, d, v, ⟨reads', balanced', fills⟩, clear'', ahead', right'⟩ := ih right
        (.behind (u := [',']) (w := w) [] ',' comma rfl rfl)
        fun x mem => element x (List.mem_cons_of_mem _ mem)
      refine ⟨code ++ (y, ',') :: more, d, v, ⟨reads.comma comma reads', carries.balanced.comma balanced', ?_⟩,
        clear'', ahead', right'⟩
      rw [carries.pieces_comma]
      refine .more ⟨y, reads.leadsTo, rfl, ?_, clear, ',', w, comma, .inl rfl⟩ fills
      rwa [ahead]

/-- **A list in brackets is closed by its bracket, and its pieces hold its elements in order.** -/
theorem pieces {opening : Cursor} {opener closer : Char} {v : Text} (s : Series α)
    (opens : opening.ahead = opener :: v) (pair : closer? opener = some closer)
    (text : close.text = [closer]) (h : Spaced tail (s.tokens f ++ close :: us) v)
    (elements : ∀ x ∈ s.elements, Token.IsElement (f x)) :
    ∃ close ps w, opening.closing = .ok close ∧ close.ahead = closer :: w ∧ close.Clear
      ∧ Spaced tail us w ∧ (opening.advance 1).pieces close.offset = .ok ps
      ∧ List.Forall₂ (fun x p => ∃ d, Piece.Holds (f x) p d) s.elements ps := by
  have behind : (opening.advance 1).ahead = v := by rw [advance_ahead, opens]; rfl
  have closes := (isCloser_of_closer? pair).1
  rw [← behind] at h
  obtain ⟨code, d, w, ⟨reads, balanced, fills⟩, clear, ahead, rest⟩ := s.cut text closes h
    (.behind (u := [opener]) (w := v) [] opener opens rfl (isClearing_of_closer? pair)) elements
  obtain ⟨closing, ps, cut, holds⟩ := fills.pieces opens pair reads balanced ahead fun ts mem p ⟨d, hold⟩ => by
    obtain ⟨x, inside, rfl⟩ := List.mem_map.mp mem
    exact hold.isFilled (elements x inside)
  exact ⟨d, ps, w, closing, ahead, clear, rest, cut, List.forall₂_map_left_iff.mp holds⟩

end Series

end EnumExtract
