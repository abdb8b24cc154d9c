/-
  EnumExtract.Proofs.Grammar.Variants
  ────────────────────────────────
  Variants as they are written, and what their reader makes of them.

      variant     attributes, a name, a shape
      attribute   a doc comment, `#[exclude]`, `#[variant_attrs(…)]`, or any
                  other attribute but `#[doc …]`

  Main results:
    • `Note.exists_metadata`   the metadata of a note,
    • `VariantAttribute.fold`        what the attributes of a variant come to,
    • `VariantSyntax.read`           a written variant is read as it is written.
-/
import EnumExtract.Proofs.Grammar.Fields

namespace EnumExtract

open Cursor

/-! ## §1. The metadata of notes. -/

namespace Note

/-- What the note is for. -/
def category : Note → MetadataCategory
  | doc _ => .doc
  | bracketed a => a.category

/-- The metadata is that of the note. -/
structure Means (a : Note) (m : Metadata) : Prop where
  read : Metadata.ofAttribute (a.placed 0) = .ok m
  text : m.text = a.shown
  category : m.category = a.category

theorem exists_metadata (a : Note) : ∃ m, a.Means m := by
  cases a with
  | doc d => exact ⟨⟨.doc, d.shown, []⟩, rfl, rfl, rfl⟩
  | bracketed a =>
      obtain ⟨m, read, text, category⟩ := a.exists_metadata
      exact ⟨m, read, text, category⟩

/-- Where a note stands says nothing about its metadata. -/
theorem ofAttribute_placed (a : Note) (offset : Nat) :
    Metadata.ofAttribute (a.placed offset) = Metadata.ofAttribute (a.placed 0) := by
  cases a with
  | doc d => rfl
  | bracketed a => exact a.ofAttribute_placed offset

theorem ReadAs.exists_metadata {c : Cursor} {a : Note} {attr : Attribute} (h : a.ReadAs c attr) :
    ∃ m, Metadata.ofAttribute attr = .ok m ∧ a.Means m := by
  obtain ⟨p, w, _, _, rfl⟩ := h
  obtain ⟨m, means⟩ := a.exists_metadata
  exact ⟨m, (a.ofAttribute_placed p.offset).trans means.read, means⟩

end Note

/-! ## §2. Listed attributes. -/

/-- `#[variant_attrs(…)]` as it is written. -/
structure ListedSyntax where
  before : Text
  between : Text
  after : Text
  entries : List Note
  inner : Text
  blankBefore : IsGap before
  blankBetween : IsGap between
  blankAfter : IsGap after
  spells : Spaced [] (entries.map .note) inner

/-- Notes are made of trees. -/
theorem Spaced.trees {as : List Note} : ∀ {t : Text}, Spaced [] (as.map .note) t → IsTrees t := by
  induction as with
  | nil =>
      intro t h
      cases h with
      | nil blank => exact .gap blank .nil
  | cons a as ih =>
      intro t h
      obtain ⟨b, _, rfl, blank, ⟨⟨⟩, _⟩ | ⟨_, _, w, ⟨⟩, rfl, _, rest⟩⟩ := h.exists_gap
      refine .gap blank ?_
      cases a with
      | doc d => exact .doc d (ih rest)
      | bracketed a => exact a.trees (ih rest)

/-- Behind notes anything may stand. -/
theorem Spaced.before {as : List Note} (tail : Text) : ∀ {t : Text},
    Spaced [] (as.map .note) t → Spaced tail (as.map .note) (t ++ tail) := by
  induction as with
  | nil =>
      intro t h
      cases h with
      | @nil gap blank =>
          rw [List.append_nil]
          exact .nil blank
  | cons a as ih =>
      intro t h
      obtain ⟨b, _, rfl, blank, ⟨⟨⟩, _⟩ | ⟨_, _, w, ⟨⟩, rfl, _, rest⟩⟩ := h.exists_gap
      rw [List.append_assoc, List.append_assoc]
      exact .cons blank trivial (ih rest)

namespace ListedSyntax

def word : Text := "variant_attrs"

theorem isWrittenPath_word : IsWrittenPath word := by
  have name : IsName word := ⟨'v', "ariant_attrs".toList, rfl, rfl, by decide +kernel⟩
  rw [← List.append_nil word]
  exact .mk name .nil

variable (l : ListedSyntax)

def written : AttributeSyntax where
  before := l.before
  path := word
  between := l.between
  input := .list '(' ')' l.inner l.after rfl l.spells.trees l.blankAfter
  blankBefore := l.blankBefore
  isPath := isWrittenPath_word
  blankBetween := l.blankBetween

variable {l} {source : Text} {p : Cursor} {w : Text}

/-- **The entries of a list are read as they are written.** -/
theorem read (onward : (source.cursor 0).LeadsTo p) (eq : p.ahead = l.written.text ++ w) :
    ∃ ms, Variant.Directives.listedAttrs source (l.written.placed p.offset) = .ok ms
      ∧ List.Forall₂ Note.Means l.entries ms := by
  have args : (l.written.placed p.offset).args = some ⟨l.inner, p.offset + l.written.argsStart⟩ := rfl
  have inside : source.cursor (p.offset + l.written.argsStart) = p.advance l.written.argsStart := by
    rw [← advance_cursor, ← cursor_of_leadsTo onward]
  -- the text in front of the entries, and the text behind them
  obtain ⟨front, hfront⟩ : ∃ front : Text, front = "#[" ++ l.before ++ word ++ l.between := ⟨_, rfl⟩
  obtain ⟨tail, htail⟩ : ∃ tail : Text, tail = ')' :: (l.after ++ ']' :: w) := ⟨_, rfl⟩
  have cut : p.ahead = (front ++ ['(']) ++ (l.inner ++ tail) := by
    rw [eq, hfront, htail]
    simp [written, AttributeSyntax.text, AttributeSyntax.inner, AttributeInput.text]
  have size : (front ++ ['(']).length = l.written.argsStart := by
    rw [hfront]
    simp [written, AttributeSyntax.argsStart]
    omega
  have ahead := ahead_advance cut
  have clear := Clear.behind front '(' cut rfl rfl
  rw [size] at ahead clear
  have still : tail.Still := by
    rw [htail]
    exact (Text.Firm.of_isCloser rfl).still
  have spaced := l.spells.before tail
  rw [← ahead, ← List.append_nil (l.entries.map Token.note)] at spaced
  obtain ⟨attrs, head, prelude, readAs, at'⟩ := spaced.prelude clear still
  -- the prelude takes all of the entries, so that nothing is left in front of the parenthesis
  have notBefore : ¬ head.offset < p.offset + l.written.argsStart + l.inner.length := by
    have ends := prelude.leadsTo.end_eq
    rw [at'.ahead, ahead, List.length_append, advance_offset] at ends
    omega
  obtain ⟨ms, read, means⟩ := exists_mapM_of_forall₂ (f := Metadata.ofAttribute) readAs
    fun h => h.exists_metadata
  refine ⟨ms, ?_, means⟩
  rw [Variant.Directives.listedAttrs, args]
  simp only [inside]
  refine bind_ok_iff.mpr ⟨(attrs, head), readPrelude_ok_iff.mpr prelude, ?_⟩
  refine bind_ok_iff.mpr ⟨head, skipTrivia_ok_iff.mpr (.stop at'.still.trivium?), ?_⟩
  simp only [if_neg notBefore]
  exact read

end ListedSyntax

/-! ## §3. The attributes of a variant. -/

inductive VariantAttribute where
  | doc (d : DocComment)
  | exclude (a : AttributeSyntax) (path : a.name = "exclude")
  | listed (l : ListedSyntax)
  | other (a : AttributeSyntax) (noDoc : a.name ≠ "doc")
      (noDirective : Variant.directivePaths.contains a.name = false)

namespace VariantAttribute

def note : VariantAttribute → Note
  | doc d => .doc d
  | exclude a _ => .bracketed a
  | listed l => .bracketed l.written
  | other a _ _ => .bracketed a

def isExclude : VariantAttribute → Bool
  | exclude _ _ => true
  | _ => false

def isListed : VariantAttribute → Bool
  | listed _ => true
  | _ => false

/-- What the attribute adds to the metadata of the variant. -/
def entries : VariantAttribute → List Note
  | doc d => [.doc d]
  | listed l => l.entries
  | _ => []

variable {source : Text} {c : Cursor}

/-- One attribute. -/
theorem add {a : VariantAttribute} {attr : Attribute} {d : Variant.Directives}
    (onward : (source.cursor 0).LeadsTo c) (h : a.note.ReadAs c attr)
    (first : a.isListed = true → d.listed = false) :
    ∃ d' ms, d.add source attr = .ok d' ∧ d'.excluded = (d.excluded || a.isExclude)
      ∧ d'.listed = (d.listed || a.isListed) ∧ d'.metadata = d.metadata ++ ms
      ∧ List.Forall₂ Note.Means a.entries ms := by
  obtain ⟨p, w, leads, eq, rfl⟩ := h
  cases a with
  | doc doc =>
      obtain ⟨m, read, means⟩ := Note.ReadAs.exists_metadata (a := .doc doc) ⟨p, w, leads, eq, rfl⟩
      exact ⟨_, [m], Variant.Directives.add_ok_iff.mpr (.doc rfl read), (Bool.or_false _).symm,
        (Bool.or_false _).symm, rfl, .cons means .nil⟩
  | exclude a path =>
      exact ⟨_, [], Variant.Directives.add_ok_iff.mpr (.exclude path), (Bool.or_true _).symm,
        (Bool.or_false _).symm, (List.append_nil _).symm, .nil⟩
  | listed l =>
      obtain ⟨ms, read, means⟩ := ListedSyntax.read (onward.trans leads) eq
      exact ⟨_, ms, Variant.Directives.add_ok_iff.mpr (.listed rfl (first rfl) read),
        (Bool.or_false _).symm, (Bool.or_true _).symm, rfl, means⟩
  | other a noDoc noDirective =>
      exact ⟨_, [], Variant.Directives.add_ok_iff.mpr (.other noDirective noDoc), (Bool.or_false _).symm,
        (Bool.or_false _).symm, (List.append_nil _).symm, .nil⟩

/-- **What the attributes of a variant come to.** -/
theorem fold {as : List VariantAttribute} (onward : (source.cursor 0).LeadsTo c) :
    ∀ {attrs : List Attribute} {d : Variant.Directives},
      List.Forall₂ (Note.ReadAs c) (as.map note) attrs →
      d.listed.toNat + as.countP isListed ≤ 1 →
      ∃ d' ms, attrs.foldlM (Variant.Directives.add source) d = .ok d'
        ∧ d'.excluded = (d.excluded || as.any isExclude) ∧ d'.metadata = d.metadata ++ ms
        ∧ List.Forall₂ Note.Means (as.flatMap entries) ms := by
  induction as with
  | nil =>
      intro attrs d h _
      cases h
      exact ⟨d, [], rfl, (Bool.or_false _).symm, (List.append_nil _).symm, .nil⟩
  | cons a as ih =>
      intro attrs d h once
      obtain ⟨attr, rest, first, others, rfl⟩ := List.forall₂_cons_left_iff.mp h
      have unlisted (isListed : a.isListed = true) : d.listed = false := by
        rw [List.countP_cons_of_pos isListed] at once
        cases listed : d.listed with
        | false => rfl
        | true =>
            rw [listed, Bool.toNat_true] at once
            omega
      obtain ⟨d', ms, add, excluded, listed, metadata, means⟩ := a.add onward first unlisted
      have once' : d'.listed.toNat + as.countP isListed ≤ 1 := by
        have le : (d.listed || a.isListed).toNat ≤ d.listed.toNat + if a.isListed = true then 1 else 0 := by
          cases d.listed <;> cases a.isListed <;> decide
        rw [List.countP_cons] at once
        rw [listed]
        omega
      obtain ⟨d'', ms', fold, excluded', metadata', means'⟩ := ih others once'
      refine ⟨d'', ms ++ ms', bind_ok_iff.mpr ⟨d', add, fold⟩, ?_, ?_, ?_⟩
      · rw [excluded', excluded, List.any_cons, Bool.or_assoc]
      · rw [metadata', metadata, List.append_assoc]
      · exact List.rel_append means means'

end VariantAttribute

/-! ## §4. Variants. -/

structure VariantSyntax where
  attributes : List VariantAttribute
  once : attributes.countP (·.isListed) ≤ 1
  name : Identifier
  shape : ShapeSyntax

namespace VariantSyntax

def tokens (v : VariantSyntax) : List Token :=
  (v.attributes.map (·.note)).map .note ++ .name v.name :: v.shape.tokens

/-- The variant is the one that is written. -/
structure IsReadAs (v : VariantSyntax) (variant : Variant) : Prop where
  name : variant.name = v.name.text
  kind : variant.shape.kind = v.shape.kind
  fields : List.Forall₂ (fun x field => x.2.IsReadAs x.1 field) v.shape.fields variant.shape.fields
  excluded : variant.excluded = v.attributes.any (·.isExclude)
  metadata : List.Forall₂ Note.Means (v.attributes.flatMap (·.entries)) variant.metadata

variable {v : VariantSyntax} {source : Text}

theorem isElement (v : VariantSyntax) : Token.IsElement v.tokens := by
  refine ⟨⟨_, _, _, rfl, rfl⟩, ?_⟩
  rw [tokens, Opened.track_notes]
  exact v.shape.track

/-- The leaves of a variant may stand in a body. -/
theorem closed (v : VariantSyntax) : Closed (v.tokens.flatMap Token.leaves) := by
  refine .notes _ (.name v.name v.shape.closed fun l first => ?_)
  cases shape : v.shape with
  | unit =>
      rw [shape] at first
      cases first
  | _ =>
      rw [shape] at first
      cases first
      exact ⟨rfl, rfl⟩

/-- **A written variant is read as it is written.** -/
theorem read {p : Piece} {d : Cursor} (h : p.Holds v.tokens d) (here : (source.cursor 0).LeadsTo p.start) :
    ∃ variant, Variant.read source p = .ok variant ∧ v.IsReadAs variant := by
  -- the notes, then the name, then the fields
  obtain ⟨attrs, head, prelude, readAs, at'⟩ := Spaced.prelude h.spaced h.clear rfl
  have still : d.ahead.Still := (Text.Firm.of_ends h.ends).still
  obtain ⟨spaced, clear⟩ := at'.behind
  have begins : Token.Begins d.ahead v.shape.tokens := by
    cases v.shape with
    | unit => exact still
    | _ => rfl
  obtain ⟨place, trivia, atPlace⟩ := spaced.trivia clear begins
  have toName := leadsTo_identifier at'.identifier?_name
  have onward : place.LeadsTo d := atPlace.spaced.leadsTo
    (prelude.leadsTo.trans (toName.1.trans (trivia false).leadsTo)) h.onward
  obtain ⟨fields, read, fieldsRead⟩ := ShapeSyntax.read atPlace onward still
  obtain ⟨directives, ms, fold, excluded, metadata, means⟩ := VariantAttribute.fold here readAs
    (d := Variant.Directives.empty) (by simpa [Variant.Directives.empty] using v.once)
  rw [h.stop] at read
  refine ⟨⟨v.name.text, ⟨v.shape.kind, fields⟩, directives.metadata, directives.excluded, head.offset,
    directives.spans⟩, Variant.read_ok_iff.mpr ⟨attrs, fields, directives, head,
      head.advance v.name.text.length, place, d, ?_⟩, ?_⟩
  · constructor
    case prelude => exact prelude
    case name => exact at'.identifier?_name
    case toFields => exact trivia false
    case read => exact read
    case ends => exact fun lt => absurd lt (by rw [h.stop]; omega)
    case directives => exact fold
    case shape => exact ShapeSyntax.classify fieldsRead head.offset
    all_goals rfl
  · constructor
    case name => rfl
    case kind => rfl
    case fields => exact fieldsRead
    case excluded => exact excluded
    case metadata =>
      show List.Forall₂ Note.Means _ directives.metadata
      rw [metadata]
      exact means

end VariantSyntax

end EnumExtract
