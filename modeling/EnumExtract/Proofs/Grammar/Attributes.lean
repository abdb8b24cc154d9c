/-
  EnumExtract.Proofs.Grammar.Attributes
  ────────────────────────────────
  Attributes as they are written, and what the reader of attributes makes of them.

      attribute   `#[`, a path, its input, `]`, with blanks in between
      path        names with `::` and blanks between them
      input       none, trees in brackets, or `=` and trees

  The bracket stands right behind the hash; where something parts them no attribute
  is found.

  Main results:
    • `pathLength_written`        a written path is measured,
    • `AttributeSyntax.read`      a written attribute is read as it is written.
-/
import EnumExtract.Proofs.Grammar.Trees
import EnumExtract.Proofs.Paths
import EnumExtract.Schema.Metadata

namespace EnumExtract

open Cursor

/-! ## §1. Gaps. -/

/-- White space between tokens. -/
def IsGap (b : Text) : Prop :=
  ∀ ch ∈ b, isBlank ch = true

theorem IsGap.nil : IsGap [] :=
  nofun

theorem IsGap.space : IsGap " " :=
  List.forall_mem_singleton.mpr rfl

theorem IsGap.feed : IsGap "\n" :=
  List.forall_mem_singleton.mpr rfl

theorem IsGap.append {b b' : Text} (h : IsGap b) (h' : IsGap b') : IsGap (b ++ b') := by
  intro ch mem
  rcases List.mem_append.mp mem with mem | mem
  · exact h ch mem
  · exact h' ch mem

theorem Text.unspaced_append (t u : Text) : Text.unspaced (t ++ u) = t.unspaced ++ u.unspaced :=
  List.filter_append _ _

theorem IsGap.unspaced {b : Text} (h : IsGap b) : Text.unspaced b = [] := by
  rw [Text.unspaced, List.filter_eq_nil_iff]
  intro ch mem
  rw [h ch mem]
  decide

theorem not_isWord_of_isBlank {ch : Char} (h : isBlank ch = true) : isWord ch = false := by
  by_contra word
  rw [Bool.not_eq_false] at word
  rw [not_isBlank_of_isWord word] at h
  cases h

theorem ne_of_isBlank {ch ch' : Char} (h : isBlank ch = true) (h' : isBlank ch' = false) : ch ≠ ch' := by
  rintro rfl
  rw [h] at h'
  cases h'

theorem isTreeMark_of_isBlank {ch : Char} (h : isBlank ch = true) : isTreeMark ch = true := by
  have other (ch' : Char) (h' : isBlank ch' = false) : (ch == ch') = false :=
    beq_eq_false_iff_ne.mpr (ne_of_isBlank h h')
  rw [isTreeMark, not_isWord_of_isBlank h, bracketWeight_of_blank h, other '/' rfl, other '"' rfl,
    other '\'' rfl]
  rfl

theorem IsTrees.gap {b w : Text} (h : IsGap b) (rest : IsTrees w) : IsTrees (b ++ w) := by
  induction b with
  | nil => exact rest
  | cons ch b ih =>
      exact .mark (isTreeMark_of_isBlank (h ch List.mem_cons_self))
        (ih fun ch mem => h ch (List.mem_cons_of_mem _ mem))

theorem IsGap.trees {b : Text} (h : IsGap b) : IsTrees b := by
  have all : IsTrees (b ++ []) := .gap h .nil
  rwa [List.append_nil] at all

/-- A gap in front of a text seals it off. -/
theorem IsGap.sealed {b w : Text} (h : IsGap b) (rest : w.Sealed) : Text.Sealed (b ++ w) := by
  refine head?_append_cases (fun ch first => ?_) rest
  have blank : isBlank ch = true := h ch (List.mem_of_head? first)
  exact ⟨not_isWord_of_isBlank blank, ne_of_isBlank blank rfl, ne_of_isBlank blank rfl,
    ne_of_isBlank blank rfl⟩

theorem sealed_comma {w : Text} : Text.Sealed (',' :: w) := by
  rintro _ ⟨⟩
  decide

/-- No word goes on behind white space. -/
theorem Cursor.Fresh.gap {c : Cursor} {u w : Text} (h : c.Fresh) (blank : IsGap u) (eq : c.ahead = u ++ w) :
    (c.advance u.length).Fresh := by
  rcases List.eq_nil_or_concat u with rfl | ⟨v, ch, rfl⟩
  · simpa using h
  · rw [List.concat_eq_append] at *
    have isBlank := blank ch (by simp)
    rw [List.length_append, List.length_singleton]
    exact .behind (w := w) (by rw [eq]; simp) (not_isWord_of_isBlank isBlank)

/-! ## §2. Paths. -/

/-- What may follow the first name of a path. -/
inductive IsPathTail : Text → Prop where
  | nil : IsPathTail []
  | segment {b b' name w : Text} (before : IsGap b) (after : IsGap b') (h : IsName name)
      (rest : IsPathTail w) : IsPathTail (b ++ "::" ++ b' ++ name ++ w)

/-- A path as it is written. -/
inductive IsWrittenPath : Text → Prop where
  | mk {name w : Text} (h : IsName name) (rest : IsPathTail w) : IsWrittenPath (name ++ w)

theorem IsWrittenPath.exists_first {p : Text} (h : IsWrittenPath p) :
    ∃ ch v, p = ch :: v ∧ isNameStart ch = true := by
  obtain ⟨⟨ch, v, rfl, start, _⟩, _⟩ := h
  exact ⟨ch, v ++ _, rfl, start⟩

theorem IsPathTail.sealed {p w : Text} (h : IsPathTail p) (rest : w.Sealed) : Text.Sealed (p ++ w) := by
  cases h with
  | nil => exact rest
  | @segment b b' name w' before after hn hw =>
      have colons : Text.Sealed ("::" ++ (b' ++ (name ++ (w' ++ w)))) := fun ch first => by
        cases first
        decide
      have eq : b ++ "::" ++ b' ++ name ++ w' ++ w = b ++ ("::" ++ (b' ++ (name ++ (w' ++ w)))) := by
        simp
      rw [eq]
      exact before.sealed colons

theorem IsName.trees {name w : Text} (h : IsName name) (sealed : w.Sealed) (rest : IsTrees w) :
    IsTrees (name ++ w) :=
  .word h.ne_nil h.isWord (fun ch first => (sealed ch first).1) (fun _ => sealed.noRaw) rest

theorem IsPathTail.trees {p w : Text} (h : IsPathTail p) (sealed : w.Sealed) (rest : IsTrees w) :
    IsTrees (p ++ w) := by
  induction h with
  | nil => exact rest
  | @segment b b' name p before after hn hp ih =>
      have eq : b ++ "::" ++ b' ++ name ++ p ++ w = b ++ (':' :: ':' :: (b' ++ (name ++ (p ++ w)))) := by
        simp
      rw [eq]
      exact .gap before (.mark rfl (.mark rfl (.gap after (hn.trees (hp.sealed sealed) ih))))

theorem IsWrittenPath.trees {p w : Text} (h : IsWrittenPath p) (sealed : w.Sealed) (rest : IsTrees w) :
    IsTrees (p ++ w) := by
  obtain ⟨hn, hp⟩ := h
  rw [List.append_assoc]
  exact hn.trees (hp.sealed sealed) (hp.trees sealed rest)

/-- Claimed characters are counted one by one. -/
theorem runLength_go_claimed (piece? : Text → Option Nat) (u w : Text) :
    runLength.go piece? u.length (u ++ w) = u.length + runLength.go piece? 0 w := by
  induction u with
  | nil => simp
  | cons ch u ih =>
      show runLength.go piece? u.length (u ++ w) + 1 = _
      rw [ih, List.length_cons]
      omega

/-- A piece at the front is counted whole. -/
theorem runLength_go_piece {piece? : Text → Option Nat} {u w : Text} (more : u ≠ [])
    (h : piece? (u ++ w) = some u.length) :
    runLength.go piece? 0 (u ++ w) = u.length + runLength.go piece? 0 w := by
  obtain ⟨ch, v, rfl⟩ := List.exists_cons_of_ne_nil more
  rw [List.length_cons] at h ⊢
  rw [List.cons_append] at h ⊢
  rw [runLength.go]
  simp only [h]
  rw [runLength_go_claimed]
  omega

theorem blanks_append {b w : Text} (h : IsGap b) (stop : ∀ ch, w.head? = some ch → isBlank ch = false) :
    Text.blanks (b ++ w) = b.length := by
  rw [Text.blanks, takeWhile_append_stop h stop]

theorem IsName.notBlank {name w : Text} (h : IsName name) :
    ∀ ch, (name ++ w).head? = some ch → isBlank ch = false := by
  obtain ⟨c, v, rfl, start, _⟩ := h
  intro ch first
  cases first
  exact not_isBlank_of_isWord (isWord_of_isNameStart start)

theorem segmentLength?_segment {b b' name w : Text} (before : IsGap b) (after : IsGap b')
    (h : IsName name) (stop : ∀ ch, w.head? = some ch → isWord ch = false) :
    Text.segmentLength? (b ++ "::" ++ b' ++ name ++ w) = some (b ++ "::" ++ b' ++ name).length := by
  have eq : b ++ "::" ++ b' ++ name ++ w = b ++ (':' :: ':' :: (b' ++ (name ++ w))) := by simp
  have skip := blanks_append before (w := ':' :: ':' :: (b' ++ (name ++ w))) fun ch first => by
    cases first
    rfl
  have skip' := blanks_append after h.notBlank (w := name ++ w)
  have found := Text.nameLength_append h stop
  have pos := List.length_pos_of_ne_nil h.ne_nil
  have behind : (':' :: ':' :: (b' ++ (name ++ w))).drop (2 + b'.length) = name ++ w := by
    rw [← List.drop_drop]
    exact List.drop_left
  unfold Text.segmentLength?
  rw [eq]
  simp only [skip, List.drop_left]
  have colons : Text.startsWith (':' :: ':' :: (b' ++ (name ++ w))) "::" = true := rfl
  have two : (':' :: ':' :: (b' ++ (name ++ w))).drop 2 = b' ++ (name ++ w) := rfl
  rw [if_pos colons]
  simp only [two, skip', behind, found]
  rw [if_neg (by omega), List.length_append, List.length_append, List.length_append]
  rfl

/-- **A written path is measured**, if what follows does not carry it on. -/
theorem pathLength_written {p rest : Text} (h : IsWrittenPath p) (sealed : rest.Sealed)
    (ends : Text.segmentLength? rest = none) : Text.pathLength (p ++ rest) = p.length := by
  have run {w : Text} (hw : IsPathTail w) :
      runLength.go Text.segmentLength? 0 (w ++ rest) = w.length := by
    induction hw with
    | nil =>
        cases rest with
        | nil => rfl
        | cons ch rest =>
            rw [List.nil_append, runLength.go]
            simp only [ends]
            rfl
    | @segment b b' name w before after hn hw ih =>
        have found := segmentLength?_segment before after hn
          (fun ch first => (hw.sealed sealed ch first).1)
        have more : (b ++ "::" ++ b' ++ name : Text) ≠ [] := by simp
        rw [List.append_assoc _ w rest, runLength_go_piece more found, ih, ← List.length_append]
  obtain @⟨name, w, hn, hw⟩ := h
  have pos := List.length_pos_of_ne_nil hn.ne_nil
  have found := Text.nameLength_append hn fun ch first => (hw.sealed sealed ch first).1
  rw [List.append_assoc, Text.pathLength, found, if_neg (by omega), List.drop_left, runLength,
    run hw, List.length_append]

/-! ## §3. Written attributes. -/

/-- What a path in an attribute is applied to. -/
inductive AttributeInput where
  | none
  /-- Trees in brackets. -/
  | list (opener closer : Char) (inner gap : Text) (pair : closer? opener = some closer)
      (trees : IsTrees inner) (blank : IsGap gap)
  /-- Trees behind an equals sign. -/
  | value (inner : Text) (trees : IsTrees inner)

namespace AttributeInput

def text : AttributeInput → Text
  | none => []
  | list opener closer inner gap _ _ _ => opener :: inner ++ closer :: gap
  | value inner _ => '=' :: inner

/-- The text between the parentheses, if the input is such a list. -/
def args : AttributeInput → Option Text
  | none => .none
  | list opener _ inner _ _ _ _ => if opener = '(' then some inner else .none
  | value _ _ => .none

theorem trees_args {input : AttributeInput} {w : Text} (h : input.args = some w) : IsTrees w := by
  cases input with
  | none => cases h
  | value inner trees => cases h
  | list opener closer inner gap pair trees blank =>
      rw [args] at h
      split at h
      next =>
        cases h
        exact trees
      next => cases h

theorem trees (input : AttributeInput) : IsTrees input.text := by
  cases input with
  | none => exact .nil
  | list opener closer inner gap pair trees blank =>
      exact .group pair trees blank.trees
  | value inner trees => exact .mark rfl trees

/-- Behind a path, the input seals the path off. -/
theorem sealed (input : AttributeInput) : input.text.Sealed := by
  cases input with
  | none => exact nofun
  | list opener closer inner gap pair trees blank =>
      rintro ch ⟨⟩
      unfold closer? at pair
      split at pair <;> first | decide | cases pair
  | value inner trees =>
      rintro ch ⟨⟩
      decide

/-- An input does not begin with a blank or with a colon. -/
theorem first (input : AttributeInput) : ∀ ch, input.text.head? = some ch →
    isBlank ch = false ∧ ch ≠ ':' ∧ ch ≠ '/' := by
  cases input with
  | none => exact nofun
  | list opener closer inner gap pair trees blank =>
      rintro ch ⟨⟩
      unfold closer? at pair
      split at pair <;> first | decide | cases pair
  | value inner trees =>
      rintro ch ⟨⟩
      decide

/-- The list that the reader of attributes finds behind a path. -/
theorem read {input : AttributeInput} {n : Cursor} {close : Nat} {tail : Text}
    (eq : n.ahead = input.text ++ ']' :: tail) (size : close = n.offset + input.text.length) :
    ((n.offset < close ∧ n.sees "(" = true) ∧ ∃ argsClose, n.closing = .ok argsClose
        ∧ input.args = some ((n.advance 1).upTo argsClose.offset))
      ∨ (¬ (n.offset < close ∧ n.sees "(" = true) ∧ input.args = .none) := by
  have noList {ch : Char} {v : Text} (eq : n.ahead = ch :: v) (other : ch ≠ '(') : n.sees "(" = false := by
    rw [Bool.eq_false_iff]
    intro sees
    have first := first_of_sees sees
    rw [eq] at first
    cases first
    exact other rfl
  cases input with
  | none => exact .inr ⟨fun h => Nat.lt_irrefl _ (size ▸ h.1), rfl⟩
  | value inner trees =>
      refine .inr ⟨fun h => ?_, rfl⟩
      rw [noList eq (by decide)] at h
      cases h.2
  | list opener closer inner gap pair trees blank =>
      have eq' : n.ahead = opener :: inner ++ closer :: (gap ++ ']' :: tail) := by
        rw [eq, text]
        simp
      by_cases paren : opener = '('
      · subst paren
        obtain ⟨code, encloses, _, _⟩ := ReadsBalanced.encloses (IsTrees.reads trees) pair eq'
        refine .inl ⟨⟨by rw [size]; simp [text], sees_iff.mpr ⟨_, eq'⟩⟩, _,
          closing_ok_iff.mpr ⟨code, encloses⟩, ?_⟩
        have content : (n.advance 1).upTo (n.advance (inner.length + 1)).offset = inner := by
          rw [upTo, advance_ahead, eq']
          refine List.take_left' ?_
          rw [advance_offset, advance_offset]
          omega
        rw [content, args, if_pos rfl]
      · refine .inr ⟨fun h => ?_, if_neg paren⟩
        rw [noList eq' paren] at h
        cases h.2

end AttributeInput

/-- An attribute as it is written: `#[` in one, a path, its input, `]`. -/
structure AttributeSyntax where
  before : Text
  path : Text
  between : Text
  input : AttributeInput
  blankBefore : IsGap before
  isPath : IsWrittenPath path
  blankBetween : IsGap between

namespace AttributeSyntax

variable (a : AttributeSyntax)

/-- What stands between the brackets. -/
def inner : Text :=
  a.before ++ (a.path ++ (a.between ++ a.input.text))

def text : Text :=
  "#[" ++ a.inner ++ "]"

/-- The path without blanks. -/
def name : Text :=
  Text.unspaced a.path

/-- The offset of the arguments, counted from the start of the attribute. -/
def argsStart : Nat :=
  2 + a.before.length + a.path.length + a.between.length + 1

/-- The attribute that is read where the text stands at `offset`. -/
def placed (offset : Nat) : Attribute where
  path := a.name
  text := a.text
  start := offset
  stop := offset + a.text.length
  args := a.input.args.map fun args => ⟨args, offset + a.argsStart⟩

theorem sealed_behind : Text.Sealed (a.between ++ a.input.text) :=
  a.blankBetween.sealed a.input.sealed

theorem trees_inner : IsTrees a.inner :=
  .gap a.blankBefore (a.isPath.trees a.sealed_behind (.gap a.blankBetween a.input.trees))

theorem length_text : a.text.length = a.inner.length + 3 := by
  rw [text, List.length_append, List.length_append]
  show 2 + a.inner.length + 1 = _
  omega

theorem pathLength_inner : Text.pathLength (a.path ++ (a.between ++ a.input.text)) = a.path.length := by
  refine pathLength_written a.isPath a.sealed_behind ?_
  have blanks := blanks_append a.blankBetween fun ch first => (a.input.first ch first).1
  unfold Text.segmentLength?
  simp only [blanks, List.drop_left]
  rw [if_neg]
  intro colons
  obtain ⟨rest, eq⟩ := List.isPrefixOf_iff_prefix.mp colons
  exact (a.input.first ':' (by rw [← eq]; rfl)).2.1 rfl

variable {a} {c : Cursor} {tail : Text}

/-- The brackets of a written attribute. -/
theorem encloses (eq : c.ahead = a.text ++ tail) :
    ∃ code, Encloses (c.advance 1) code (c.advance (a.inner.length + 2)) ∧ Balanced code
      ∧ (c.advance (a.inner.length + 2)).ahead = ']' :: tail := by
  have next : (c.advance 1).ahead = '[' :: a.inner ++ ']' :: tail := by
    rw [advance_ahead, eq, text]
    simp
  have found := ReadsBalanced.encloses (IsTrees.reads a.trees_inner) rfl next
  rwa [advance_advance, show 1 + (a.inner.length + 1) = a.inner.length + 2 from by omega] at found

theorem length_inner :
    a.inner.length = a.before.length + (a.path.length + (a.between.length + a.input.text.length)) := by
  rw [inner, List.length_append, List.length_append, List.length_append]

/-- Where the path begins in the attribute at `c`. -/
def pathPlace (a : AttributeSyntax) (c : Cursor) : Cursor :=
  (c.advance 2).advance a.before.length

/-- Where the input begins in the attribute at `c`. -/
def inputPlace (a : AttributeSyntax) (c : Cursor) : Cursor :=
  ((a.pathPlace c).advance a.path.length).advance a.between.length

theorem ahead_inner (eq : c.ahead = a.text ++ tail) :
    (c.advance 2).ahead = a.before ++ (a.path ++ (a.between ++ (a.input.text ++ ']' :: tail))) := by
  rw [advance_ahead, eq, text, inner]
  simp

theorem ahead_pathPlace (eq : c.ahead = a.text ++ tail) :
    (a.pathPlace c).ahead = a.path ++ (a.between ++ (a.input.text ++ ']' :: tail)) :=
  ahead_advance (ahead_inner eq)

theorem ahead_inputPlace (eq : c.ahead = a.text ++ tail) :
    (a.inputPlace c).ahead = a.input.text ++ ']' :: tail :=
  ahead_advance (ahead_advance (ahead_pathPlace eq))

theorem offset_inputPlace (a : AttributeSyntax) (c : Cursor) :
    (c.advance (a.inner.length + 2)).offset = (a.inputPlace c).offset + a.input.text.length := by
  unfold inputPlace pathPlace
  simp only [advance_offset, a.length_inner]
  omega

/-- What stands from the path up to the closing bracket. -/
theorem upTo_pathPlace (eq : c.ahead = a.text ++ tail) :
    (a.pathPlace c).upTo (c.advance (a.inner.length + 2)).offset
      = a.path ++ (a.between ++ a.input.text) := by
  have cut : a.path ++ (a.between ++ (a.input.text ++ ']' :: tail))
      = (a.path ++ (a.between ++ a.input.text)) ++ ']' :: tail := by simp
  rw [upTo, ahead_pathPlace eq, cut]
  refine List.take_left' ?_
  rw [offset_inputPlace]
  unfold inputPlace
  simp only [advance_offset, List.length_append]
  omega

theorem toPath (eq : c.ahead = a.text ++ tail) : Trivia false (c.advance 2) (a.pathPlace c) := by
  obtain ⟨ch, v, path, start⟩ := a.isPath.exists_first
  have first : (a.pathPlace c).ahead.head? = some ch := by
    rw [ahead_pathPlace eq, path]
    rfl
  have noSlash : ch ≠ '/' := by
    rintro rfl
    cases start
  have plain := not_isBlank_of_isWord (isWord_of_isNameStart start)
  exact .blanks (ahead_inner eq) a.blankBefore (.stop (trivium?_of_first first plain noSlash))

theorem toInput (eq : c.ahead = a.text ++ tail) :
    Trivia false ((a.pathPlace c).advance a.path.length) (a.inputPlace c) := by
  obtain ⟨ch, v, cut, plain, noSlash⟩ : ∃ ch v, a.input.text ++ ']' :: tail = ch :: v
      ∧ isBlank ch = false ∧ ch ≠ '/' := by
    cases found : a.input.text with
    | nil => exact ⟨']', tail, rfl, rfl, by decide⟩
    | cons ch v =>
        have first := a.input.first ch (by rw [found]; rfl)
        exact ⟨ch, v ++ ']' :: tail, rfl, first.1, first.2.2⟩
  have first : (a.inputPlace c).ahead.head? = some ch := by
    rw [ahead_inputPlace eq, cut]
    rfl
  exact .blanks (ahead_advance (ahead_pathPlace eq)) a.blankBetween
    (.stop (trivium?_of_first first plain noSlash))

/-- **A written attribute is read as it is written.** -/
theorem read (eq : c.ahead = a.text ++ tail) : c.readAttribute = .ok (a.placed c.offset) := by
  obtain ⟨code, brackets, _, _⟩ := encloses eq
  have length := a.pathLength_inner
  rw [← upTo_pathPlace eq] at length
  have path : a.path ≠ [] := by
    obtain ⟨ch, v, path, _⟩ := a.isPath.exists_first
    rw [path]
    exact List.cons_ne_nil ch v
  have pos := List.length_pos_of_ne_nil path
  refine readAttribute_ok_iff.mpr ⟨c.advance (a.inner.length + 2), a.pathPlace c, a.inputPlace c, ?_⟩
  constructor
  case closing => exact closing_ok_iff.mpr ⟨code, brackets⟩
  case toPath => exact toPath eq
  case named => omega
  case toArgs =>
    rw [length]
    exact toInput eq
  case path =>
    rw [length, ahead_pathPlace eq, List.take_left]
    rfl
  case text =>
    rw [upTo, eq]
    refine (List.take_left' ?_).symm
    show a.text.length = _
    rw [advance_offset, length_text]
    omega
  case start => rfl
  case stop =>
    show c.offset + a.text.length = (c.advance (a.inner.length + 2)).offset + 1
    rw [advance_offset, length_text]
    omega
  case args =>
    have offset : (a.inputPlace c).offset + 1 = c.offset + a.argsStart := by
      unfold inputPlace pathPlace
      simp only [advance_offset, argsStart]
      omega
    rcases AttributeInput.read (ahead_inputPlace eq) (a.offset_inputPlace c) with
      ⟨found, argsClose, closing, args⟩ | ⟨none, args⟩
    · refine .inl ⟨found, argsClose, closing, ?_⟩
      show a.input.args.map _ = _
      rw [args, offset]
      rfl
    · refine .inr ⟨none, ?_⟩
      show a.input.args.map _ = _
      rw [args]
      rfl

/-- An attribute is made of trees itself. -/
theorem trees (a : AttributeSyntax) {w : Text} (rest : IsTrees w) : IsTrees (a.text ++ w) := by
  have eq : a.text ++ w = '#' :: ('[' :: a.inner ++ ']' :: w) := by
    rw [text]
    simp
  rw [eq]
  exact .mark rfl (.group rfl a.trees_inner rest)

end AttributeSyntax

/-! ## §4. The metadata of a written attribute. -/

namespace Cursor

variable {c d : Cursor} {code : List (Cursor × Char)}

theorem trivium?_of_notBlank {ch : Char} (first : c.ahead.head? = some ch) (plain : isBlank ch = false) :
    c.trivium? false = c.comment? := by
  obtain ⟨rest, eq⟩ := List.head?_eq_some_iff.mp first
  rw [trivium?, eq]
  simp only [plain, Bool.false_and]
  rfl

theorem trivium?_of_blank {ch : Char} {keepDocs : Bool} (first : c.ahead.head? = some ch)
    (blank : isBlank ch = true) : c.trivium? keepDocs = .ok (some 1) := by
  obtain ⟨rest, eq⟩ := List.head?_eq_some_iff.mp first
  rw [trivium?, eq]
  simp only [blank, if_true]

/-- Trivia ends at the end of a reading or before it. -/
theorem Reads.exists_trivia (h : Reads c code d) (ends : d.trivium? false = .ok none) :
    ∃ x, Trivia false c x ∧ x.offset ≤ d.offset := by
  induction h with
  | here c => exact ⟨c, .stop ends, Nat.le_refl _⟩
  | @lexeme c d code n h rest ih =>
      obtain ⟨ch, v, eq⟩ := List.exists_cons_of_length_pos (Nat.lt_of_lt_of_le (lexeme?_bounds h).1
        (lexeme?_bounds h).2)
      have first : c.ahead.head? = some ch := by rw [eq]; rfl
      have plain : isBlank ch = false := by
        by_contra blank
        rw [Bool.not_eq_false] at blank
        rw [lexeme?_of_blank first blank] at h
        cases h
      have trivium := trivium?_of_notBlank first plain
      rcases lexeme?_some_iff.mp h with comment | ⟨noComment, _⟩
      · obtain ⟨x, hx, le⟩ := ih ends
        exact ⟨x, .pass (trivium.trans comment) hx, le⟩
      · exact ⟨c, .stop (trivium.trans noComment), (Reads.lexeme h rest).offset_le⟩
  | @char c d code ch h first rest ih =>
      by_cases blank : isBlank ch = true
      · obtain ⟨x, hx, le⟩ := ih ends
        exact ⟨x, .pass (trivium?_of_blank first blank) hx, le⟩
      · rw [Bool.not_eq_true] at blank
        exact ⟨c, .stop ((trivium?_of_notBlank first blank).trans (lexeme?_none_iff.mp h).1),
          (Reads.char h first rest).offset_le⟩

end Cursor

variable {c d : Cursor} {code : List (Cursor × Char)} {ps : List Piece}

/-- Each piece of a list is read to its end. -/
theorem Cuts.reads (h : Cuts c code ps d) (ends : d.trivium? false = .ok none) :
    ∀ p ∈ ps, ∃ inside e, Reads p.start inside e ∧ e.offset = p.stop ∧ e.trivium? false = .ok none := by
  induction h with
  | last r uncut even =>
      intro p mem
      rw [List.mem_singleton] at mem
      subst mem
      exact ⟨_, _, r, rfl, ends⟩
  | cut r uncut plain first rest ih =>
      intro p mem
      rcases List.mem_cons.mp mem with rfl | mem
      · exact ⟨_, _, r, rfl, trivium?_of_first first rfl (by decide)⟩
      · exact ih ends p mem

/-- A map each of whose steps succeeds. -/
theorem exists_mapM_ok {ε α β : Type} {f : α → Except ε β} {xs : List α}
    (h : ∀ x ∈ xs, ∃ y, f x = .ok y) : ∃ ys, xs.mapM f = .ok ys := by
  simp only [mapM_ok_iff]
  induction xs with
  | nil => exact ⟨[], .nil⟩
  | cons x xs ih =>
      obtain ⟨y, hy⟩ := h x List.mem_cons_self
      obtain ⟨ys, hys⟩ := ih fun x mem => h x (List.mem_cons_of_mem _ mem)
      exact ⟨y :: ys, .cons hy hys⟩

/-- What is read in balance can be cut into pieces, and each piece can be looked at. -/
theorem Cursor.Reads.exists_pieces (h : Reads c code d) (balanced : Balanced code)
    (ends : d.trivium? false = .ok none) :
    ∃ ps, c.pieces d.offset = .ok ps ∧ ∀ p ∈ ps, ∃ w, p.withoutComments = .ok w := by
  have even : level (chars code) = 0 := by
    have length := length_of_nest (balanced [])
    simp only [List.length_nil] at length
    omega
  have all := allPieces_of_reads h
  have inside := (Cuts.of_reads h even all).reads ends
  refine ⟨_, bind_ok_iff.mpr ⟨_, all, filterM_ok_iff.mpr ⟨fun p mem => ?_, rfl⟩⟩, fun p mem => ?_⟩
  · obtain ⟨_, e, reads, _, stop⟩ := inside p mem
    obtain ⟨x, hx, _⟩ := reads.exists_trivia stop
    have known := Piece.isFilled_ok_iff.mpr ⟨x, hx, rfl⟩
    rw [holds_of_ok known]
    exact known
  · obtain ⟨_, e, reads, stop, _⟩ := inside p (List.mem_of_mem_filter mem)
    obtain ⟨w, stripped⟩ := reads.stripped
    refine ⟨w, ?_⟩
    have found := withoutComments_of_stripped stripped
    rwa [stop] at found

/-- The traits of a derive are read, where a balanced reading comes to the end of its list. -/
theorem Metadata.exists_traits {w : Text} {stop : Cursor} (reads : Reads (Text.cursor w 0) code stop)
    (balanced : Balanced code) (length : stop.offset = w.length) (atEnd : stop.ahead = []) :
    ∃ ps traits, (Text.cursor w 0).pieces w.length = .ok ps
      ∧ ps.mapM (fun p => do return Text.unspaced (← p.withoutComments)) = Except.ok traits := by
  obtain ⟨ps, cut, inside⟩ := reads.exists_pieces balanced (trivium?_of_end atEnd)
  rw [length] at cut
  have each : ∀ p ∈ ps, ∃ t, (do return Text.unspaced (← p.withoutComments)) = Except.ok t := by
    intro p mem
    obtain ⟨t, ht⟩ := inside p mem
    exact ⟨_, bind_ok_iff.mpr ⟨t, ht, rfl⟩⟩
  obtain ⟨traits, htraits⟩ := exists_mapM_ok each
  exact ⟨ps, traits, cut, htraits⟩

namespace AttributeSyntax

variable (a : AttributeSyntax)

/-- Where an attribute stands says nothing about its metadata. -/
theorem ofAttribute_placed (offset : Nat) :
    Metadata.ofAttribute (a.placed offset) = Metadata.ofAttribute (a.placed 0) := by
  unfold Metadata.ofAttribute placed
  cases a.input.args <;> rfl

/-- What the attribute is for. -/
def category : MetadataCategory :=
  if a.name = "doc" then .doc
  else if a.name = "derive" ∧ a.input.args.isSome then .derive
  else .other

/-- The metadata of a written attribute. -/
theorem exists_metadata :
    ∃ m, Metadata.ofAttribute (a.placed 0) = .ok m ∧ m.text = a.text ∧ m.category = a.category := by
  have path : (a.placed 0).path = a.name := rfl
  have args : (a.placed 0).args = a.input.args.map fun args => ⟨args, 0 + a.argsStart⟩ := rfl
  rw [Metadata.ofAttribute, category, path, args]
  split
  next => exact ⟨_, rfl, rfl, rfl⟩
  next =>
    cases found : a.input.args with
    | none =>
        rw [if_neg (by simp)]
        exact ⟨_, rfl, rfl, rfl⟩
    | some w =>
        by_cases derive : a.name = "derive"
        · rw [if_pos ⟨derive, rfl⟩]
          simp only [Option.map_some, if_pos derive]
          have start : (Text.cursor w 0).ahead = w ++ [] := by simp [Text.cursor]
          have fresh : (Text.cursor w 0).Fresh := fun _ _ _ => rfl
          have closes : Text.Closes [] := by
            intro ch first
            cases first
          obtain ⟨code, reads, balanced⟩ := IsTrees.reads (AttributeInput.trees_args found) start closes fresh
          have length : ((Text.cursor w 0).advance w.length).offset = w.length := by
            simp [Text.cursor]
          obtain ⟨ps, traits, cut, htraits⟩ :=
            Metadata.exists_traits reads balanced length (by rw [ahead_advance start])
          exact ⟨⟨.derive, _, traits⟩,
            bind_ok_iff.mpr ⟨ps, cut, bind_ok_iff.mpr ⟨traits, htraits, rfl⟩⟩, rfl, rfl⟩
        · rw [if_neg fun h => derive h.1]
          simp only [Option.map_some, if_neg derive]
          exact ⟨_, rfl, rfl, rfl⟩

end AttributeSyntax

end EnumExtract
