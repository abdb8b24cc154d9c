/-
  EnumExtract.Proofs.Grammar.Structs
  ────────────────────────────────
  The fields of structs as they are printed, and what the reader makes of them.

  A struct is printed on one line, as a list in parentheses with a line for each
  field, or as a list in braces:

      head;
      head(pub type, pub type);
      head(                                head {
          attributes                           attributes
          pub type,                            pub name: type,
      );                                   }

  In each layout the fields are a written list of fields, and that list is all
  that the reading needs to know of the layout.

  Main results:
    • `PublicField.Prints.writtenAs`   a field is written as it is printed,
    • `StructDecl.BodyAs.leaves`       a printed body is a body of a declaration,
    • `StructDecl.BodyAs.read`         and it is read as it is printed.
-/
import EnumExtract.Output.Record
import EnumExtract.Proofs.Grammar.Forests
import EnumExtract.Proofs.Grammar.PublicFields

namespace EnumExtract

open Cursor

/-! ## §1. Fields as they are printed. -/

/-- What stands behind the type is not glued to it. -/
def Text.Seals (x : Text) : Prop :=
  ∀ ch, x.head? = some ch → isSeal ch = true

/-- The field is printed as `f` is written. -/
structure PublicField.Prints (f : PublicField) (field : Field) : Prop where
  name : field.name = f.label?.map (·.text)
  spells : Spaced [] f.type.tokens field.type.text
  tokens : field.type.tokens = f.type.tokens.flatMap Token.parts
  attrs : List.Forall₂ Remark.OnLine f.remarks field.attrs
  still : field.type.text.Still
  noScope : field.name = none → scopeLength? field.type.text = none

/-- A field as it is printed, with its name if it has one. -/
def Field.member (field : Field) : Text :=
  "pub " ++ (field.name.elim [] (fun name => name ++ ([':', ' '] : Text)) ++ field.type.text)

/-- What seals a text off does not make a comment of its first slash. -/
theorem Text.Still.append {t x : Text} (h : t.Still) (more : t ≠ []) (seals : x.Seals) : Text.Still (t ++ x) := by
  obtain ⟨ch, v, rfl⟩ := List.exists_cons_of_ne_nil more
  obtain ⟨blank, hash, slash⟩ := h ch v rfl
  rintro _ _ ⟨⟩
  refine ⟨blank, hash, fun same => ?_⟩
  obtain ⟨line, block⟩ := slash same
  exact ⟨head?_append_ne line fun first => (isSeal_plain (seals '/' first)).2.2.2.2.2.2.2.1 rfl,
    head?_append_ne block fun first => (isSeal_plain (seals '*' first)).2.2.2.2.2.2.2.2 rfl⟩

theorem IsIdentifier.firm {u : Text} (h : IsIdentifier u) (w : Text) : Text.Firm (u ++ w) := by
  obtain ⟨ch, v, rfl, start⟩ := h.exists_first
  exact .of_isWord (isWord_of_isNameStart start)

theorem scopeLength?_identifier {u : Text} (h : IsIdentifier u) (w : Text) : scopeLength? (u ++ w) = none := by
  obtain ⟨ch, v, rfl, start⟩ := h.exists_first
  rw [List.cons_append, scopeLength?.eq_def]
  split
  next same =>
    rw [(List.cons.inj same).1] at start
    cases start
  next => rfl

namespace PublicField

variable {f : PublicField} {fs : List PublicField} {field : Field} {fields : List Field} {tail x : Text}

/-- **A field is written as it is printed**, each of its attributes on a line. -/
theorem Prints.writtenAs (h : f.Prints field) (seals : x.Seals) {indent : Text} (blank : IsGap indent) :
    f.WrittenAs x (Text.ended (field.attrs.map (indent ++ ·)) ++ (indent ++ (field.member ++ x))) := by
  have head (mid : Text) : Printed mid (f.remarks.map .remark ++ [.keyword "pub" pub_reserved])
      (Text.ended (field.attrs.map (indent ++ ·)) ++ (indent ++ ("pub " ++ mid))) := by
    have sealed : Text.Sealed (" " ++ mid) := by
      rintro _ ⟨⟩
      decide
    have pub : Printed mid [.keyword "pub" pub_reserved] ("pub" ++ (" " ++ mid)) :=
      (Printed.nil IsGap.space).leaf sealed
    exact .lines blank (pub.gap blank) h.attrs
  have type := h.spells.inFront seals
  have more : field.type.text ≠ [] := fun none => by
    have spells := h.spells
    rw [none] at spells
    exact spells.trim_ne_nil f.type.noNote f.type.beginType.ne_nil rfl
  have still : Text.Still (field.type.text ++ x) := h.still.append more seals
  have written := head (field.name.elim [] (fun name => name ++ ([':', ' '] : Text)) ++ field.type.text ++ x)
  have text : field.member ++ x
      = "pub " ++ (field.name.elim [] (fun name => name ++ ([':', ' '] : Text)) ++ field.type.text ++ x) := by
    rw [Field.member, List.append_assoc]
  rw [text]
  cases label : f.label? with
  | none =>
      have name : field.name = none := by rw [h.name, label]; rfl
      rw [name] at written ⊢
      have spells : Spaced x f.tokens (field.type.text ++ x) := by
        rw [PublicField.tokens, label]
        exact type
      exact .mk written spells still (type.noScope more (f.type.track _) (h.noScope name))
  | some i =>
      have name : field.name = some i.text := by rw [h.name, label]; rfl
      rw [name] at written ⊢
      have isIdentifier := i.isIdentifier
      have eq : Option.elim (some i.text) [] (fun name => name ++ ([':', ' '] : Text)) ++ field.type.text ++ x
          = i.text ++ (':' :: (' ' :: (field.type.text ++ x))) := by simp
      rw [eq] at written ⊢
      have spells : Spaced x f.tokens (i.text ++ (':' :: (' ' :: (field.type.text ++ x)))) := by
        rw [PublicField.tokens, label]
        have sealed : Text.Sealed (':' :: (' ' :: (field.type.text ++ x))) := by
          rintro _ ⟨⟩
          decide
        have colon : Spaced x (.mark .colon :: f.type.tokens) (':' :: (' ' :: (field.type.text ++ x))) :=
          .token (fun colon => by cases colon) (type.gap IsGap.space)
        exact .token sealed colon
      exact .mk written spells (isIdentifier.firm _).still (scopeLength?_identifier isIdentifier _)

/-! ## §2. Lists of fields as they are printed. -/

end PublicField

/-- Lines in front of others. -/
theorem Text.join_lines (xs : List Text) {ys : List Text} (more : ys ≠ []) :
    Text.join "\n" (xs ++ ys) = Text.ended xs ++ Text.join "\n" ys := by
  induction xs with
  | nil => rfl
  | cons x xs ih =>
      obtain ⟨z, zs, eq⟩ := List.exists_cons_of_ne_nil (show xs ++ ys ≠ [] by simp [more])
      rw [eq] at ih
      rw [List.cons_append, eq, join, List.intercalate_cons_cons]
      rw [join] at ih
      rw [ih, ended_cons]
      simp

/-! ## §3. Bodies. -/

namespace StructDecl

/-- What stands behind the name of a struct of this layout with these fields. -/
inductive BodyAs : ShapeKind → List PublicField → Text → Prop where
  | unit : BodyAs .unit [] ";"
  | positional {fs : List PublicField} {t : Text} (listed : PublicField.ListedAs ");" fs t) (more : fs ≠ [])
      (labels : ∀ f ∈ fs, f.label?.isSome = false) : BodyAs .positional fs ('(' :: t)
  | named {fs : List PublicField} {t : Text} (listed : PublicField.ListedAs "\x7d" fs t) (more : fs ≠ [])
      (labels : ∀ f ∈ fs, f.label?.isSome = true) : BodyAs .named fs (' ' :: '\x7b' :: t)

variable {kind : ShapeKind} {fs : List PublicField} {t : Text}

/-- **A printed body is a body of a declaration.** -/
theorem BodyAs.leaves (h : BodyAs kind fs t) : ∃ body : Body, Printed [] body.leaves t := by
  -- only behind a closing parenthesis something else must not follow
  have other {ch : Char} {P : Prop} (ne : ch ≠ ')') (same : ch = ')') : P := absurd same ne
  have semicolon : Printed [] [.symbol ';' rfl] ";" := Printed.done.symbol _ (by decide)
  cases h with
  | unit => exact ⟨⟨[.symbol ';' rfl], ⟨other (by decide), trivial⟩, ⟨';', rfl, rfl, .inl rfl⟩, rfl⟩, semicolon⟩
  | @positional fs t listed =>
      obtain ⟨ls, printed, closed, isBody⟩ := listed.printed
      have close : Printed [] [.symbol ')' rfl, .symbol ';' rfl] ");" := semicolon.symbol _ (by decide)
      have stops : StopsBody [.symbol ')' rfl, .symbol ';' rfl] := fun _ first => by
        cases first
        exact ⟨rfl, rfl, by decide⟩
      refine ⟨⟨.symbol '(' rfl :: (ls ++ [.symbol ')' rfl, .symbol ';' rfl]), ⟨other (by decide), isBody ?_ stops⟩,
        ⟨';', rfl, ?_, .inl rfl⟩, ?_⟩, (printed.append close).symbol _ (by decide)⟩
      · exact ⟨fun _ _ first => by cases first; rfl, other (by decide), trivial⟩
      · rw [← List.cons_append, List.getLast?_append_of_ne_nil _ (List.cons_ne_nil _ _)]
        rfl
      · show nest [')'] ((ls ++ [Leaf.symbol ')' rfl, Leaf.symbol ';' rfl]).flatMap Leaf.brackets) = some []
        rw [List.flatMap_append, nest_append_eq, closed]
        rfl
  | @named fs t listed =>
      obtain ⟨ls, printed, closed, isBody⟩ := listed.printed
      have close : Printed [] [.symbol '\x7d' rfl] "\x7d" := Printed.done.symbol _ (by decide)
      have ends : IsBody [.symbol '\x7d' rfl] := ⟨other (by decide), trivial⟩
      have stops : StopsBody [.symbol '\x7d' rfl] := fun _ first => by
        cases first
        exact ⟨rfl, rfl, by decide⟩
      refine ⟨⟨.symbol '\x7b' rfl :: (ls ++ [.symbol '\x7d' rfl]), ⟨other (by decide), isBody ends stops⟩,
        ⟨'\x7d', rfl, ?_, .inr rfl⟩, ?_⟩, ((printed.append close).symbol _ (by decide)).gap IsGap.space⟩
      · rw [← List.cons_append, List.getLast?_append_of_ne_nil _ (List.cons_ne_nil _ _)]
        rfl
      · show nest ['\x7d'] ((ls ++ [Leaf.symbol '\x7d' rfl]).flatMap Leaf.brackets) = some []
        rw [List.flatMap_append, nest_append_eq, closed]
        rfl

theorem BodyAs.sealed (h : BodyAs kind fs t) : t.Sealed := by
  cases h <;> rintro _ ⟨⟩ <;> decide

/-- The shape of the fields that are read of a printed body. -/
theorem BodyAs.classify (h : BodyAs kind fs t) {fields : List Field}
    (read : List.Forall₂ PublicField.IsReadAs fs fields) (index : Nat) :
    Shape.classify fields index = .ok ⟨kind, fields⟩ := by
  have names {named : Bool} (labels : ∀ f ∈ fs, f.label?.isSome = named) :
      ∀ field ∈ fields, field.name.isSome = named := by
    intro field mem
    obtain ⟨f, inside, readAs⟩ := exists_of_forall₂_right read mem
    rw [readAs.name, Option.isSome_map, labels f inside]
  have filled (more : fs ≠ []) : fields ≠ [] := fun none => by
    subst none
    exact more (List.forall₂_nil_right_iff.mp read)
  cases h with
  | unit =>
      obtain rfl := List.forall₂_nil_left_iff.mp read
      rfl
  | positional _ more labels => exact ShapeSyntax.classify_unnamed (filled more) (names labels) index
  | named _ more labels => exact ShapeSyntax.classify_named (filled more) (names labels) index

/-- **A printed body is read as it is printed.** -/
theorem BodyAs.read (h : BodyAs kind fs t) {after : Cursor} {gap : Text} (blank : IsGap gap)
    (ahead : after.ahead = gap ++ t) (name : Text) :
    ∃ body fields stop, Trivia false after body ∧ body.sees "<" = false
      ∧ readBody body name = .ok (fields, stop) ∧ List.Forall₂ PublicField.IsReadAs fs fields := by
  have toBody {gap t : Text} {ch : Char} (blank : IsGap gap) (ahead : after.ahead = gap ++ ch :: t)
      (firm : isBlank ch = false) (other : ch ≠ '/') :
      Trivia false after (after.advance gap.length) ∧ (after.advance gap.length).ahead = ch :: t
        ∧ ∀ w, (after.advance gap.length).sees w = Text.startsWith (ch :: t) w := by
    have here := ahead_advance ahead
    have first : (after.advance gap.length).ahead.head? = some ch := by rw [here]; rfl
    exact ⟨.blanks ahead blank (.stop (trivium?_of_first first firm other)), here,
      fun _ => by rw [Cursor.sees, here]⟩
  cases h with
  | unit =>
      have ahead : after.ahead = gap ++ ';' :: [] := ahead
      obtain ⟨trivia, _, sees⟩ := toBody blank ahead rfl (by decide)
      refine ⟨_, [], (after.advance gap.length).offset + 1, trivia, sees "<", ?_, .nil⟩
      rw [readBody, if_pos (show _ = true from sees ";")]
      rfl
  | @positional fs t listed more labels =>
      obtain ⟨trivia, here, sees⟩ := toBody blank ahead rfl (by decide)
      obtain ⟨close, fields, closing, last, list, read⟩ := listed.readList here rfl labels
      have semicolon : (close.advance 1).ahead = [';'] := by rw [advance_ahead, last]; rfl
      have first : (close.advance 1).ahead.head? = some ';' := by rw [semicolon]; rfl
      have stop : (close.advance 1).skipTrivia = .ok (close.advance 1) :=
        skipTrivia_ok_iff.mpr (.stop (trivium?_of_first first rfl (by decide)))
      refine ⟨_, fields, (close.advance 1).offset + 1, trivia, sees "<", ?_, read⟩
      rw [readBody, if_neg (ne_true_of_eq_false (sees ";")), if_pos (show _ = true from sees "(")]
      refine bind_ok_iff.mpr ⟨close, closing, bind_ok_iff.mpr ⟨fields, list, bind_ok_iff.mpr ⟨_, stop, ?_⟩⟩⟩
      rw [Cursor.sees, semicolon]
      rfl
  | @named fs t listed more labels =>
      have ahead : after.ahead = (gap ++ [' ']) ++ '\x7b' :: t := by
        rw [ahead]
        simp
      obtain ⟨trivia, here, sees⟩ := toBody (blank.append IsGap.space) ahead rfl (by decide)
      obtain ⟨close, fields, closing, last, list, read⟩ := listed.readList here rfl labels
      refine ⟨_, fields, close.offset + 1, trivia, sees "<", ?_, read⟩
      rw [readBody, if_neg (ne_true_of_eq_false (sees ";")), if_neg (ne_true_of_eq_false (sees "(")),
        if_pos (show _ = true from sees "\x7b")]
      exact bind_ok_iff.mpr ⟨close, closing, bind_ok_iff.mpr ⟨fields, list, rfl⟩⟩

end StructDecl

end EnumExtract
