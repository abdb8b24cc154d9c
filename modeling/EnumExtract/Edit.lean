/-
  EnumExtract.Edit
  ────────────────────────────────
  Edits of a text: a stretch of it and what replaces it.  Edits are applied in
  one pass, in the order of their starts and then of their stops.
-/
import EnumExtract.Text.Blank

namespace EnumExtract

/-- A stretch of a text, from `start` up to, not including, `stop`. -/
structure Span where
  start : Nat
  stop : Nat
  deriving Repr, DecidableEq

/-- The replacement of a stretch of a text. -/
structure Edit where
  start : Nat
  stop : Nat
  replacement : Text
  deriving Repr, DecidableEq

namespace Edit

/-- The order in which edits are applied. -/
def notAfter (a b : Edit) : Bool :=
  a.start < b.start || (a.start == b.start && a.stop ≤ b.stop)

end Edit

namespace Text

/-- The offset of the first line feed at or after offset `i`, or of the end of the text. -/
def lineStop (t : Text) (i : Nat) : Nat :=
  min (i + ((t.drop i).takeWhile (· != '\n')).length) t.length

/-- The spaces and tabs that the line of offset `i` begins with, those before `i` only. -/
def lineIndent (t : Text) (i : Nat) : Text :=
  (t.slice (t.lineStart i) i).takeWhile fun c => c == ' ' || c == '\t'

/-- The edit that removes a span.  Its whole line goes when there is nothing else on it;
otherwise the spaces and tabs after it go too. -/
def removal (t : Text) (span : Span) : Edit :=
  let lineStart := t.lineStart span.start
  let lineStop := t.lineStop span.stop
  if (t.slice lineStart span.start).isBlank && (t.slice span.stop lineStop).isBlank then
    ⟨lineStart, min (lineStop + 1) t.length, []⟩
  else
    let gap := (t.drop span.stop).takeWhile fun c => c == ' ' || c == '\t'
    ⟨span.start, span.stop + gap.length, []⟩

/-- The text with the edits made.  What lies between the stop of one edit and the start of
the next is kept; edits that overlap keep nothing between them. -/
def applyEdits (t : Text) (edits : List Edit) : Text :=
  go 0 (sorted Edit.notAfter edits)
where
  /-- `kept` is the offset that text is next kept from. -/
  go (kept : Nat) : List Edit → Text
    | [] => t.drop kept
    | edit :: rest => t.slice kept edit.start ++ edit.replacement ++ go edit.stop rest

end Text

end EnumExtract
