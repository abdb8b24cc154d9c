/-
  EnumExtract.Proofs.Comments
  ────────────────────────────────
  Comments where a reader looks for blanks only.

  Between the tokens of a declaration trivia is passed over, comments as well
  as blanks.  A label and the scope of a visibility are measured on the text
  itself, and there a comment is no blank: behind the name of a field it hides
  the colon, and inside the parentheses it hides the scope.

  Main results:
    • `Field.label?_of_colon`   what a label is,
    • `gapEnum_refused`         a comment in front of its colon is refused.
-/
import EnumExtract.Proofs.Declarations

namespace EnumExtract

/-! ## §1. Labels. -/

namespace Field

open Cursor

variable {name b r rest : Text}

/-- Behind its identifier a label is a matter of the blanks and of what follows them. -/
theorem label?_append (found : Text.identifier? (name ++ b ++ r) = some name)
    (blank : ∀ ch ∈ b, isBlank ch = true) (stop : ∀ ch, r.head? = some ch → isBlank ch = false) :
    label? (name ++ b ++ r) = if Text.startsWith r ":" && !Text.startsWith r "::" then
      some (name, name.length + b.length + 1) else none := by
  have taken : (b ++ r).takeWhile isBlank = b := takeWhile_append_stop blank stop
  have blanks : Text.blanks ((name ++ b ++ r).drop name.length) = b.length := by
    rw [List.append_assoc, List.drop_left, Text.blanks, taken]
  have behind : (name ++ b ++ r).drop (name.length + b.length) = r := by
    rw [← List.length_append, List.drop_left]
  rw [label?, found]
  simp only [Option.bind_eq_bind, Option.bind_some, blanks, behind]

/-- The identifier ends where a blank, a slash or a colon stands. -/
theorem identifier?_gap (isIdentifier : IsIdentifier name) (blank : ∀ ch ∈ b, isBlank ch = true)
    {ch : Char} (mark : ch = '/' ∨ ch = ':') :
    Text.identifier? (name ++ b ++ ch :: rest) = some name := by
  have plain : ∀ x, (b ++ ch :: rest).head? = some x → isWord x = false ∧ x ≠ '#' := by
    intro x first
    cases b with
    | nil =>
        obtain rfl : ch = x := Option.some.inj first
        rcases mark with rfl | rfl <;> decide
    | cons y b =>
        obtain rfl : y = x := Option.some.inj first
        have isBlank := blank y List.mem_cons_self
        refine ⟨?_, ?_⟩
        · by_contra word
          rw [Bool.not_eq_false] at word
          rw [not_isBlank_of_isWord word] at isBlank
          cases isBlank
        · rintro rfl
          exact absurd isBlank (by decide)
  rw [List.append_assoc]
  refine Text.identifier?_append isIdentifier (fun x first => (plain x first).1) fun _ v eq => ?_
  exact absurd rfl (plain '#' (by rw [eq]; rfl)).2

/-- **A label is an identifier, blanks and a single colon.** -/
theorem label?_of_colon (isIdentifier : IsIdentifier name) (blank : ∀ ch ∈ b, isBlank ch = true)
    (single : rest.head? ≠ some ':') :
    label? (name ++ b ++ ':' :: rest) = some (name, name.length + b.length + 1) := by
  rw [label?_append (identifier?_gap isIdentifier blank (.inr rfl)) blank (by rintro _ ⟨⟩; rfl), if_pos]
  cases rest with
  | nil => rfl
  | cons x rest =>
      have other : (':' == x) = false := beq_eq_false_iff_ne.mpr fun eq => single (by rw [← eq]; rfl)
      simp [Text.startsWith, List.isPrefixOf, other]

end Field

/-! ## §2. A declaration with a comment. -/

/-- An enum with one field and a gap between its name and its colon. -/
def gapEnum (gap : Text) : Text :=
  "enum E \x7b A \x7b x " ++ gap ++ ": u8 \x7d \x7d"

/-- **A comment is no blank**: an enum is read with a space between the name of a field and its
colon, and refused with a comment in the place of the space. -/
theorem gapEnum_refused :
    (∃ items, (gapEnum " ").items = .ok items ∧ items.length = 1 ∧ ∀ item ∈ items,
        ∃ enum, EnumDecl.read (gapEnum " ") item = .ok enum)
      ∧ ∃ items, (gapEnum "/* c */").items = .ok items ∧ items.length = 1 ∧ ∀ item ∈ items,
        ∃ fault, EnumDecl.read (gapEnum "/* c */") item = .error fault ∧ fault.cause = .mixedFields := by
  obtain ⟨items, scan, one, all⟩ : ∃ items, (gapEnum " ").items = .ok items ∧ items.length = 1
      ∧ ∀ item ∈ items, (EnumDecl.read (gapEnum " ") item).isOk = true := exists_ok_of_decide (by decide +kernel)
  obtain ⟨items', scan', one', all'⟩ : ∃ items, (gapEnum "/* c */").items = .ok items ∧ items.length = 1
      ∧ ∀ item ∈ items, (match EnumDecl.read (gapEnum "/* c */") item with
        | .ok _ => false
        | .error fault => decide (fault.cause = .mixedFields)) = true := exists_ok_of_decide (by decide +kernel)
  refine ⟨⟨items, scan, one, fun item mem => ?_⟩, items', scan', one', fun item mem => ?_⟩
  · have ok := all item mem
    cases found : EnumDecl.read (gapEnum " ") item with
    | ok enum => exact ⟨enum, rfl⟩
    | error fault =>
        rw [found] at ok
        cases ok
  · have refused := all' item mem
    cases found : EnumDecl.read (gapEnum "/* c */") item with
    | ok enum =>
        rw [found] at refused
        cases refused
    | error fault =>
        rw [found] at refused
        exact ⟨fault, rfl, of_decide_eq_true refused⟩

end EnumExtract
