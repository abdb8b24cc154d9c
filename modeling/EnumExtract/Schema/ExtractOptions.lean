/-
  EnumExtract.Schema.ExtractOptions
  ────────────────────────────────
  The options of an extraction: what goes before and after a variant's name to
  name its struct, and whether conversions are left out.

  Options stand in `#[extract_variant(…)]` or as attributes of their own, each
  at most once in all.
-/
import EnumExtract.Schema.EnumDecl

namespace EnumExtract

/-- How an enum's variants are extracted. -/
structure ExtractOptions where
  /-- What a struct's name begins with. -/
  leading : Text
  /-- What a struct's name ends with. -/
  trailing : Text
  /-- No conversions are made. -/
  noImpl : Bool
  deriving Repr, DecidableEq

/-- An option as written: its name, what stands in its parentheses, and where. -/
structure WrittenOption where
  name : Text
  value : Option Text
  index : Nat
  deriving Repr, DecidableEq

namespace WrittenOption

/-! ## §1. Option lists. -/

/-- The text in a pair of parentheses at the start of `t` that holds no further ones. -/
def group? (t : Text) : Option Text :=
  if Text.startsWith t "(" then
    let inner := (t.drop 1).takeWhile fun c => c != '(' && c != ')'
    if (t.drop (inner.length + 1)).head? = some ')' then some inner else none
  else none

/-- The option at the start of a list and its length: a name, perhaps a group, perhaps a
comma, with blanks between. -/
def at? (place : Cursor) : Option (WrittenOption × Nat) :=
  let t := place.ahead
  let before := Text.blanks t
  let name := (t.drop before).take (Text.nameLength (t.drop before))
  let afterName := before + name.length
  let toGroup := afterName + Text.blanks (t.drop afterName)
  let value := group? (t.drop toGroup)
  let afterGroup := toGroup + value.elim 0 (·.length + 2)
  let toComma := afterGroup + Text.blanks (t.drop afterGroup)
  let length := if Text.startsWith (t.drop toComma) "," then toComma + 1 else toComma
  if name.isEmpty then none else some (⟨name, value, place.offset + before⟩, length)

/-- The options from the cursor on. -/
def readList (c : Cursor) : Except Fault (List WrittenOption) :=
  Cursor.walk step (fun options _ => .ok options.reverse) [] c
where
  step (options : List WrittenOption) (place : Cursor) :
      Except Fault (Cursor.Step (List WrittenOption) (List WrittenOption)) :=
    if Text.isBlank place.ahead then .ok (.stop options.reverse)
    else
      match at? place with
      | some (option, length) => .ok (.move (option :: options) length)
      | none => place.fail .malformedOptions

/-- The options that an attribute of an enum writes: those in the marker's list, or the
attribute itself if it is an option. -/
def ofAttribute (attr : Attribute) : Except Fault (List WrittenOption) :=
  if attr.path = EnumDecl.marker then
    match attr.args with
    | some args => readList ⟨some '(', args.start, args.text⟩
    | none => .ok []
  else if attr.path = "prefix" || attr.path = "suffix" || attr.path = "no_impl" then
    .ok [⟨attr.path, attr.args.map (·.text), attr.start⟩]
  else .ok []

/-- The name that the option's value has to be. -/
def nameValue (o : WrittenOption) : Except Fault Text :=
  match o.value.map Text.trim with
  | some name =>
      if !name.isEmpty && Text.nameLength name = name.length then .ok name
      else .error ⟨.optionExpectsIdentifier o.name, o.index, none⟩
  | none => .error ⟨.optionExpectsIdentifier o.name, o.index, none⟩

end WrittenOption

namespace ExtractOptions

/-! ## §2. Collecting options. -/

/-- The options met so far. -/
structure Found where
  leading : Option Text
  trailing : Option Text
  noImpl : Bool

/-- One more option; the same one twice is a fault, whatever its value. -/
def Found.add (found : Found) (o : WrittenOption) : Except Fault Found := do
  let duplicate : Fault := ⟨.duplicateOption o.name, o.index, none⟩
  if o.name = "prefix" then
    if found.leading.isSome then .error duplicate
    return { found with leading := some (← o.nameValue) }
  else if o.name = "suffix" then
    if found.trailing.isSome then .error duplicate
    return { found with trailing := some (← o.nameValue) }
  else if o.name = "no_impl" then
    if found.noImpl then .error duplicate
    if o.value.isSome then .error ⟨.noImplTakesNoArguments, o.index, none⟩
    return { found with noImpl := true }
  else .error ⟨.unknownOption o.name, o.index, none⟩

/-- The options that the attributes of an enum come to.  A second marker is refused first. -/
def ofAttributes (attrs : List Attribute) : Except Fault ExtractOptions := do
  match Attribute.named EnumDecl.marker attrs with
  | _ :: second :: _ => .error ⟨.duplicateExtractVariant, second.start, none⟩
  | _ =>
      let found ← attrs.foldlM (fun found attr => do
        (← WrittenOption.ofAttribute attr).foldlM Found.add found) ⟨none, none, false⟩
      return ⟨found.leading.getD [], found.trailing.getD [], found.noImpl⟩

/-- The name of the struct that a variant is extracted into. -/
def structName (options : ExtractOptions) (variant : Text) : Text :=
  options.leading ++ variant ++ options.trailing

end ExtractOptions

end EnumExtract
