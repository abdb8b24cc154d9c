/-
  EnumExtract.Proofs.Grammar.Fields
  ────────────────────────────────
  Fields and shapes as they are written, and what their readers make of them.

      field   notes, a name and a colon in a named list, a type
      shape   none, fields in parentheses, or named fields in braces

  Main results:
    • `FieldSyntax.read`    a written field is read as it is written,
    • `ShapeSyntax.read`    and so is a shape; one without fields is a unit,
    • `ShapeSyntax.closed`  and its leaves may stand in a body.
-/
import EnumExtract.Proofs.Grammar.TypeLeaves

namespace EnumExtract

open Cursor

/-! ## §1. Tokens of lists. -/

/-- Notes open nothing. -/
theorem Opened.track_notes (o : Opened) (as : List Note) (ts : List Token) :
    o.track (as.map .note ++ ts) = o.track ts := by
  induction as with
  | nil => rfl
  | cons a as ih => exact ih

/-- Inside brackets the commas of a list separate nothing outside. -/
theorem Series.track {α : Type} {f : α → List Token} {o : Opened} (inside : ¬ o.Cuts) (s : Series α)
    (elements : ∀ x ∈ s.elements, o.track (f x) = some o) : o.track (s.tokens f) = some o := by
  induction s with
  | nil => rfl
  | last x => exact elements x List.mem_cons_self
  | more x rest ih =>
      rw [tokens, Opened.track_append, elements x List.mem_cons_self]
      show (Mark.track o .comma).bind (·.track (rest.tokens f)) = some o
      rw [Mark.track, if_neg inside]
      exact ih fun x mem => elements x (List.mem_cons_of_mem _ mem)

/-! ## §2. Fields. -/

structure FieldSyntax where
  notes : List Note
  type : TypeSyntax
  unjoined : Token.Unjoined type.tokens

namespace FieldSyntax

/-- The tokens of a field with the name `label`, if it has one. -/
def label : Option Identifier → List Token
  | none => []
  | some i => [.name i, .mark .colon]

def tokens (label? : Option Identifier) (f : FieldSyntax) : List Token :=
  f.notes.map .note ++ (label label? ++ f.type.tokens)

/-- The field has the name, the type and the attributes that are written. -/
structure IsReadAs (label? : Option Identifier) (f : FieldSyntax) (field : Field) : Prop where
  name : field.name = label?.map (·.text)
  type : field.type.tokens = f.type.tokens.flatMap Token.parts
  attrs : field.attrs = f.notes.map (·.shown)

variable (label? : Option Identifier) (f : FieldSyntax)

section Labels

variable {ts : List Token}

theorem track_label {o : Opened} (h : o.track ts = some o) : o.track (label label? ++ ts) = some o := by
  cases label? <;> exact h

theorem noNote_label (h : ∀ tok ∈ ts, tok.isNote = false) : ∀ tok ∈ label label? ++ ts, tok.isNote = false := by
  cases label? with
  | none => exact h
  | some i => simpa [label, Token.isNote] using h

theorem unjoined_label (h : Token.Unjoined ts) : Token.Unjoined (label label? ++ ts) := by
  cases label? with
  | none => exact h
  | some i => exact ⟨fun _ _ => .of_noName fun _ first => by cases first; rfl, nofun, h⟩

end Labels

theorem track (o : Opened) : o.track (f.tokens label?) = some o := by
  rw [tokens, o.track_notes]
  exact track_label label? (f.type.track o)

/-- The leaves of a field may stand in a body. -/
theorem closed : Closed ((f.tokens label?).flatMap Token.leaves) :=
  .notes f.notes (.tokens (fun o => track_label label? (f.type.track o)) (unjoined_label label? f.unjoined)
    (noNote_label label? f.type.noNote))

/-- A label or a type comes first, and no note. -/
theorem exists_firstToken {ts : List Token} (more : ts ≠ []) (noNote : ∀ tok ∈ ts, tok.isNote = false) :
    ∃ (tok : Token) (us : List Token), label label? ++ ts = tok :: us ∧ tok.isNote = false := by
  cases label? with
  | none =>
      obtain ⟨tok, us, rfl⟩ := List.exists_cons_of_ne_nil more
      exact ⟨tok, us, rfl, noNote tok List.mem_cons_self⟩
  | some i => exact ⟨.name i, _, rfl, rfl⟩

theorem exists_first : ∃ (tok : Token) (us : List Token), label label? ++ f.type.tokens = tok :: us
    ∧ tok.isNote = false :=
  exists_firstToken label? f.type.ne_nil f.type.noNote

theorem isElement : Token.IsElement (f.tokens label?) := by
  obtain ⟨tok, us, eq, plain⟩ := f.exists_first label?
  exact ⟨⟨f.notes, tok, us, by rw [tokens, eq], plain⟩, f.track label? _⟩

variable {label? f}

theorem map_text_of_readAs {c : Cursor} {as : List Note} {attrs : List Attribute}
    (h : List.Forall₂ (Note.ReadAs c) as attrs) : attrs.map (·.text) = as.map (·.shown) := by
  induction h with
  | nil => rfl
  | @cons a attr as attrs first rest ih =>
      obtain ⟨p, w, _, _, rfl⟩ := first
      rw [List.map_cons, List.map_cons, ih]
      cases a <;> rfl

/-- The label of a field and the place of its type. -/
theorem exists_label {ts : List Token} (begins : Token.BeginType ts []) (noNote : ∀ tok ∈ ts, tok.isNote = false)
    {head d : Cursor} (h : At d.ahead (label label? ++ ts) head) (onward : head.LeadsTo d) :
    ∃ found, Field.label? (head.upTo d.offset) = found ∧ found.map (·.1) = label?.map (·.text)
      ∧ Spaced d.ahead ts (head.advance (found.elim 0 (·.2))).ahead
      ∧ (head.advance (found.elim 0 (·.2))).LeadsTo d ∧ (head.advance (found.elim 0 (·.2))).Clear := by
  cases label? with
  | none =>
      obtain ⟨tok, us, rfl⟩ := List.exists_cons_of_ne_nil begins.ne_nil
      have unlabelled := begins.unlabelled
      have plain : ∀ tok ∈ us, tok.isNote = false := fun tok mem => noNote tok (List.mem_cons_of_mem _ mem)
      rw [List.append_nil] at unlabelled
      rw [label, List.nil_append] at h
      refine ⟨none, h.label?_none onward plain unlabelled, rfl, ?_⟩
      rw [Option.elim, advance_zero]
      exact ⟨h.spaced, onward, h.clear⟩
  | some i =>
      obtain ⟨n, found, spaced, onward', clear⟩ := At.label?_name h onward
      exact ⟨some (i.text, n), found, rfl, spaced, onward', clear⟩

/-- **A written field is read as it is written.** -/
theorem read {p : Piece} {d : Cursor} (h : p.Holds (f.tokens label?) d) :
    ∃ field, Field.read label?.isSome p = .ok field ∧ f.IsReadAs label? field := by
  obtain ⟨tok, us, eq, plain⟩ := f.exists_first label?
  have begins : Token.Begins d.ahead (label label? ++ f.type.tokens) := by
    rw [eq]
    exact plain
  obtain ⟨attrs, head, prelude, readAs, at'⟩ := Spaced.prelude h.spaced h.clear begins
  have onward : head.LeadsTo d := at'.spaced.leadsTo prelude.leadsTo h.onward
  obtain ⟨found, label, names, spaced, toEnd, clear⟩ := exists_label f.type.beginType f.type.noNote at' onward
  -- what is left behind the label spells the type
  have text := spaced.upTo toEnd
  have written := spaced.withoutComments toEnd clear (f.type.track .start) f.type.noNote
  rw [eq] at at'
  have inside : head.offset < d.offset := at'.spaced.offset_lt prelude.leadsTo h.onward
  rw [h.stop] at label written inside text
  generalize (head.advance (found.elim 0 (·.2))).upTo p.stop = w at text written
  have kind : label?.isSome = found.isSome := by
    have same := congrArg Option.isSome names
    rwa [Option.isSome_map, Option.isSome_map, eq_comm] at same
  refine ⟨⟨found.map (·.1), FieldType.ofText (Text.trim w), attrs.map (·.text)⟩,
    Field.read_ok_iff.mpr ⟨attrs, [], head, head, head, w, ?_⟩, ?_⟩
  · constructor
    case prelude => exact prelude
    case visible => exact .none at'.noPub
    case toLabel => exact .stop at'.still.trivium?
    case inside => exact inside
    case kind =>
      rw [label]
      exact kind
    case type =>
      rw [label]
      exact written
    case nonempty => exact List.isEmpty_eq_false_iff.mpr (text.trim_ne_nil f.type.noNote f.type.ne_nil)
    case eq => rw [label]
  · constructor
    case name => exact names
    case type =>
      show FieldType.tokenize _ = _
      rw [FieldType.tokenize_trim, text.tokenize f.type.noNote]
    case attrs => exact map_text_of_readAs readAs

end FieldSyntax

/-! ## §3. Shapes. -/

inductive ShapeSyntax where
  | unit
  | positional (fields : Series FieldSyntax)
  | named (fields : Series (Identifier × FieldSyntax))

namespace ShapeSyntax

def tokens : ShapeSyntax → List Token
  | unit => []
  | positional fields => .mark .openParen :: (fields.tokens (·.tokens none) ++ [.mark .closeParen])
  | named fields =>
      .mark .openBrace :: (fields.tokens (fun x => x.2.tokens (some x.1)) ++ [.mark .closeBrace])

/-- The fields with their names. -/
def fields : ShapeSyntax → List (Option Identifier × FieldSyntax)
  | unit => []
  | positional fields => fields.elements.map (none, ·)
  | named fields => fields.elements.map fun x => (some x.1, x.2)

/-- The layout; without fields it is that of a unit. -/
def kind (s : ShapeSyntax) : ShapeKind :=
  if s.fields.isEmpty then .unit
  else
    match s with
    | unit => .unit
    | positional _ => .positional
    | named _ => .named

theorem track (s : ShapeSyntax) : Opened.start.track s.tokens = some .start := by
  have inside (closer : Char) : ¬ (Opened.start.push closer).Cuts := by
    simp [Opened.Cuts, Opened.push]
  cases s with
  | unit => rfl
  | positional fields =>
      show ((Opened.start.push ')').track (fields.tokens _ ++ [.mark .closeParen])) = some .start
      rw [Opened.track_append, fields.track (inside _) fun x _ => x.track none _]
      rfl
  | named fields =>
      show ((Opened.start.push '\x7d').track (fields.tokens _ ++ [.mark .closeBrace])) = some .start
      rw [Opened.track_append, fields.track (inside _) fun x _ => x.2.track (some x.1) _]
      rfl

/-- The leaves of a shape may stand in a body. -/
theorem closed (s : ShapeSyntax) : Closed (s.tokens.flatMap Token.leaves) := by
  cases s with
  | unit => exact .nil
  | positional fields =>
      rw [tokens, List.flatMap_cons, List.flatMap_append]
      exact .group rfl (.series fields fun x _ => x.closed none)
  | named fields =>
      rw [tokens, List.flatMap_cons, List.flatMap_append]
      exact .group rfl (.series fields fun x _ => x.2.closed (some x.1))

theorem classify_named {fields : List Field} (more : fields ≠ [])
    (named : ∀ field ∈ fields, field.name.isSome = true) (index : Nat) :
    Shape.classify fields index = .ok ⟨.named, fields⟩ := by
  rw [Shape.classify, if_neg (by simpa using more), if_pos (List.all_eq_true.mpr named)]

theorem classify_unnamed {fields : List Field} (more : fields ≠ [])
    (unnamed : ∀ field ∈ fields, field.name.isSome = false) (index : Nat) :
    Shape.classify fields index = .ok ⟨.positional, fields⟩ := by
  obtain ⟨field, rest, rfl⟩ := List.exists_cons_of_ne_nil more
  have first := unnamed field List.mem_cons_self
  have notNamed : ¬ ((field :: rest).all (·.name.isSome) = true) := by simp [first]
  have none : (field :: rest).all (·.name.isNone) = true := List.all_eq_true.mpr fun field mem => by
    rw [← Option.not_isSome, unnamed field mem]
    rfl
  rw [Shape.classify, if_neg (by simp), if_neg notNamed, if_pos none]

/-- The shape of fields that are read as they are written. -/
theorem classify {s : ShapeSyntax} {fields : List Field}
    (h : List.Forall₂ (fun x field => x.2.IsReadAs x.1 field) s.fields fields) (index : Nat) :
    Shape.classify fields index = .ok ⟨s.kind, fields⟩ := by
  have names (named : Bool) (same : ∀ x ∈ s.fields, x.1.isSome = named) :
      ∀ field ∈ fields, field.name.isSome = named := by
    intro field mem
    obtain ⟨x, inside, readAs⟩ := exists_of_forall₂_right h mem
    rw [readAs.name, Option.isSome_map]
    exact same x inside
  by_cases none : fields = []
  · subst none
    have empty := List.forall₂_nil_right_iff.mp h
    rw [kind.eq_def, if_pos (by rw [empty]; rfl)]
    rfl
  · have more : ¬ (s.fields.isEmpty = true) := by
      intro empty
      rw [List.isEmpty_iff.mp empty] at h
      exact none (List.forall₂_nil_left_iff.mp h)
    rw [kind.eq_def, if_neg more]
    cases s with
    | unit => exact absurd rfl more
    | positional fs => exact classify_unnamed none (names false (by simp [ShapeSyntax.fields])) index
    | named fs =>
        refine classify_named none (names true fun x mem => ?_) index
        obtain ⟨y, _, rfl⟩ := List.mem_map.mp mem
        rfl

end ShapeSyntax

/-- A map over pieces that hold what is written. -/
theorem exists_mapM_of_forall₂ {α β γ ε : Type} {R : α → β → Prop} {S : α → γ → Prop} {f : β → Except ε γ}
    {xs : List α} {ys : List β} (h : List.Forall₂ R xs ys)
    (step : ∀ {x y}, R x y → ∃ z, f y = .ok z ∧ S x z) :
    ∃ zs, ys.mapM f = .ok zs ∧ List.Forall₂ S xs zs := by
  induction h with
  | nil => exact ⟨[], rfl, .nil⟩
  | cons first rest ih =>
      obtain ⟨z, hz, related⟩ := step first
      obtain ⟨zs, hzs, all⟩ := ih
      exact ⟨z :: zs, mapM_ok_iff.mpr (.cons hz (mapM_ok_iff.mp hzs)), .cons related all⟩

section Reading

variable {place d : Cursor}

/-- What reads a piece to its end is at the end. -/
theorem Cursor.At.eq (h : At d.ahead [] place) {c : Cursor} (here : c.LeadsTo place) (onward : c.LeadsTo d) :
    place = d := by
  refine here.eq_of_offset onward ?_
  have ends := here.end_eq
  have ends' := onward.end_eq
  rw [h.ahead] at ends
  omega

theorem Text.Firm.of_ends (ends : ∃ ch r, d.ahead = ch :: r ∧ (ch = ',' ∨ isCloser ch = true)) :
    d.ahead.Firm := by
  obtain ⟨ch, r, eq, rfl | closes⟩ := ends
  · rw [eq]
    rintro _ ⟨⟩
    decide
  · rw [eq]
    exact .of_isCloser closes

/-- A written list of fields is read as it is written. -/
theorem FieldSyntax.readList {α : Type} {label : α → Option Identifier} {field : α → FieldSyntax}
    {named : Bool} {s : Series α} {close : Token} {opener closer : Char} {v : Text}
    (kind : ∀ x, (label x).isSome = named) (opens : place.ahead = opener :: v)
    (pair : closer? opener = some closer) (text : close.text = [closer])
    (h : Spaced d.ahead (s.tokens (fun x => (field x).tokens (label x)) ++ [close]) v)
    (onward : place.LeadsTo d) (still : d.ahead.Still) :
    ∃ fields close, place.closing = .ok close ∧ Field.readList place close.offset named = .ok fields
      ∧ (close.advance 1).skipTrivia = .ok d
      ∧ List.Forall₂ (fun x y => (field x).IsReadAs (label x) y) s.elements fields := by
  obtain ⟨close, ps, w, closing, ahead, clear, rest, pieces, hold⟩ :=
    s.pieces opens pair text h fun x _ => (field x).isElement (label x)
  obtain ⟨fields, read, readAs⟩ := exists_mapM_of_forall₂ (f := Field.read named) hold
    fun {x p} ⟨d, holds⟩ => by
      obtain ⟨y, hy, readAs⟩ := FieldSyntax.read holds
      rw [kind x] at hy
      exact ⟨y, hy, readAs⟩
  refine ⟨fields, close, closing, bind_ok_iff.mpr ⟨ps, pieces, read⟩, ?_, readAs⟩
  have behind : (close.advance 1).ahead = w := by rw [advance_ahead, ahead]; rfl
  rw [← behind] at rest
  obtain ⟨code, encloses⟩ := closing_ok_iff.mp closing
  have toClose : place.LeadsTo (close.advance 1) := encloses.leadsTo
  have closes := (isCloser_of_closer? pair).1
  obtain ⟨x, trivia, at'⟩ := rest.trivia (.behind (u := [closer]) [] closer ahead rfl (isClearing_of_isCloser closes))
    still
  have same := at'.eq (toClose.trans (trivia false).leadsTo) onward
  rw [← same]
  exact skipTrivia_ok_iff.mpr (trivia false)

/-- **A written shape is read as it is written.** -/
theorem ShapeSyntax.read {s : ShapeSyntax} (h : At d.ahead s.tokens place) (onward : place.LeadsTo d)
    (still : d.ahead.Still) :
    ∃ fields, Variant.readFields place d.offset = .ok (fields, d)
      ∧ List.Forall₂ (fun x field => x.2.IsReadAs x.1 field) s.fields fields := by
  -- both kinds of lists
  have list {α : Type} {l : α → Option Identifier} {field : α → FieldSyntax} {named : Bool}
      {list : Series α} {close : Token} {opener closer : Char} {v : Text}
      (kind : ∀ x, (l x).isSome = named) (opens : place.ahead = opener :: v)
      (pair : closer? opener = some closer) (text : close.text = [closer])
      (sees : (place.sees "(" || place.sees "\x7b") = true) (braces : place.sees "\x7b" = named)
      (inside : Spaced d.ahead (list.tokens (fun x => (field x).tokens (l x)) ++ [close]) v) :
      ∃ fields, Variant.readFields place d.offset = .ok (fields, d)
        ∧ List.Forall₂ (fun x y => (field x).IsReadAs (l x) y) list.elements fields := by
    obtain ⟨fields, close, closing, readList, skip, readAs⟩ :=
      FieldSyntax.readList kind opens pair text inside onward still
    have lt : place.offset < d.offset := by
      have size := congrArg List.length opens
      obtain ⟨u, rfl, _⟩ := inside.exists_text
      have ends := onward.end_eq
      rw [List.length_cons, List.length_append] at size
      omega
    refine ⟨fields, ?_, readAs⟩
    rw [Variant.readFields, if_pos (by rw [decide_eq_true lt, sees]; rfl), braces]
    exact bind_ok_iff.mpr ⟨close, closing, bind_ok_iff.mpr ⟨fields, readList,
      bind_ok_iff.mpr ⟨d, skip, rfl⟩⟩⟩
  cases s with
  | unit =>
      have same := h.eq (.refl place) onward
      subst same
      refine ⟨[], ?_, .nil⟩
      rw [Variant.readFields, if_neg (by simp)]
      rfl
  | positional fs =>
      obtain ⟨w, eq, _, inside⟩ := h.first
      have opens : place.ahead = '(' :: w := eq
      obtain ⟨fields, read, readAs⟩ := list (l := fun _ => none) (fun _ => rfl) opens rfl rfl
        (by rw [Cursor.sees, Cursor.sees, opens]; rfl) (by rw [Cursor.sees, opens]; rfl) inside
      exact ⟨fields, read, List.forall₂_map_left_iff.mpr readAs⟩
  | named fs =>
      obtain ⟨w, eq, _, inside⟩ := h.first
      have opens : place.ahead = '\x7b' :: w := eq
      obtain ⟨fields, read, readAs⟩ := list
        (l := fun x : Identifier × FieldSyntax => some x.1) (fun _ => rfl) opens rfl rfl
        (by rw [Cursor.sees, Cursor.sees, opens]; rfl) (by rw [Cursor.sees, opens]; rfl) inside
      exact ⟨fields, read, List.forall₂_map_left_iff.mpr readAs⟩

end Reading

end EnumExtract
