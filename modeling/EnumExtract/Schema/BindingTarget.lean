/-
  EnumExtract.Schema.BindingTarget
  ────────────────────────────────
  What a struct is bound to: the enum path and perhaps the variant that its
  `#[variant_of(Enum, Variant)]` names.
-/
import EnumExtract.Schema.StructDecl

namespace EnumExtract

/-- What a `#[variant_of(…)]` names. -/
structure BindingTarget where
  /-- The path of the enum without blanks. -/
  path : Text
  /-- The variant, if it is named. -/
  variant : Option Text
  /-- The attribute. -/
  attr : Attribute
  deriving Repr, DecidableEq

namespace BindingTarget

/-- The rest of the list after the enum's path: a comma and the variant's name or neither,
then perhaps a comma, with blanks between.  The outer `none` refuses. -/
def variant? (t : Text) : Option (Option Text) :=
  match t.trimStart with
  | [] => some none
  | ',' :: rest =>
      let rest := rest.dropWhile isBlank
      match Text.name? rest with
      | none => if rest.isEmpty then some none else none
      | some name =>
          let last := Text.trimStart (rest.drop name.length)
          if Text.isBlank (if Text.startsWith last "," then last.drop 1 else last) then
            some (some name)
          else none
  | _ => none

/-- The path and the variant that a list names.  The path may begin with `::`. -/
def ofList? (list : Text) : Option (Text × Option Text) := do
  let t := list.trimStart
  let root := if t.startsWith "::" then 2 + Text.blanks (t.drop 2) else 0
  let length := Text.pathLength (t.drop root)
  if length = 0 then none
  let variant ← variant? (t.drop (root + length))
  return (Text.unspaced (t.take (root + length)), variant)

/-- What a struct with these attributes is bound to; `none` if it has no such attribute. -/
def ofAttributes? (attrs : List Attribute) : Except Fault (Option BindingTarget) :=
  match Attribute.named StructDecl.directive attrs with
  | [] => .ok none
  | [attr] =>
      match attr.args.bind fun args => ofList? args.text with
      | some (path, variant) => .ok (some ⟨path, variant, attr⟩)
      | none => .error ⟨.malformedVariantOf, attr.start, none⟩
  | _ :: second :: _ => .error ⟨.duplicateVariantOf, second.start, none⟩

end BindingTarget

end EnumExtract
