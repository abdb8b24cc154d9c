/-
  EnumExtract.Text.Basic
  ────────────────────────────────
  Text as a list of characters, counted in code points.

  Every offset of the library is a number of characters from the start of a
  text.  String literals coerce to texts, so that a rule such as
  "`pub` followed by a scope" reads `"pub" ++ scope`.
-/

namespace EnumExtract

/-- A text: its characters in order. -/
abbrev Text := List Char

instance : Coe String Text := ⟨String.toList⟩

/-- What holds of each character of a text is decided on the text, not on all characters there are. -/
instance (priority := high) decidableForallMem {p : Char → Prop} [DecidablePred p] (t : Text) :
    Decidable (∀ ch ∈ t, p ch) :=
  List.decidableBAll p t

namespace Text

/-- The characters from offset `start` up to, not including, offset `stop`.
Offsets past the end are cut to the end; a slice that ends before it starts is empty. -/
def slice (t : Text) (start stop : Nat) : Text :=
  (t.drop start).take (stop - start)

/-- The texts in order, with `separator` between neighbours. -/
def join (separator : Text) (parts : List Text) : Text :=
  List.intercalate separator parts

/-- `t` begins with `word`. -/
def startsWith (t word : Text) : Bool :=
  word.isPrefixOf t

/-- The offset of the first occurrence of `word` in `t`. -/
def find? (word : Text) : Text → Option Nat
  | [] => if word.isEmpty then some 0 else none
  | c :: rest =>
      if startsWith (c :: rest) word then some 0
      else (find? word rest).map (· + 1)

/-- The offset just after the last line feed among the first `i` characters:
the start of the line that offset `i` is on. -/
def lineStart (t : Text) (i : Nat) : Nat :=
  (t.take i).length - ((t.take i).reverse.takeWhile (· != '\n')).length

/-- The order of texts by their code points, a text coming before its extensions. -/
def precedes : Text → Text → Bool
  | [], _ => true
  | _ :: _, [] => false
  | a :: s, b :: t => a.val < b.val || (a == b && precedes s t)

end Text

/-- `x` put into a sorted list, after the elements that `before x` does not put behind it. -/
def insertSorted {α : Type} (notAfter : α → α → Bool) (x : α) : List α → List α
  | [] => [x]
  | y :: rest => if notAfter x y then x :: y :: rest else y :: insertSorted notAfter x rest

/-- The list sorted by `notAfter`; elements that compare equal keep their order. -/
def sorted {α : Type} (notAfter : α → α → Bool) (xs : List α) : List α :=
  xs.foldr (insertSorted notAfter) []

end EnumExtract
