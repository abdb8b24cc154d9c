/-
  EnumExtract.Proofs.Digest
  ────────────────────────────────
  What goes into a digest, and which inputs it tells apart.

  The source and the schemas are digested one behind the other, with a zero
  byte in front of each.  A zero byte is also what UTF-8 makes of the null
  character, and of nothing else, so that the bytes show where a text ends as
  long as no text holds that character.  A text that does hold it is read
  like several:

      source "a", schema "b"          0 a 0 b
      source "a, null, b"             0 a 0 b

  Main results:
    • `digestInput_eq_iff`         two inputs are digested alike if and only if
                                   they have the same parts between null characters,
    • `digestInput_separates`      so texts without null characters are told apart,
    • `movedSchema_alike`          and others are not.
-/
import EnumExtract.GeneratedFile
import EnumExtract.Proofs.Utf8

namespace EnumExtract

/-! ## §1. Texts in UTF-8. -/

namespace Text

@[simp] theorem toUtf8_nil : toUtf8 [] = [] :=
  rfl

@[simp] theorem toUtf8_append (t u : Text) : toUtf8 (t ++ u) = toUtf8 t ++ toUtf8 u := by
  simp [toUtf8]

theorem toUtf8_injective {t u : Text} (h : toUtf8 t = toUtf8 u) : t = u := by
  have read : Utf8.decode t.toUtf8 = Utf8.decode u.toUtf8 := by rw [h]
  rw [Utf8.decode_toUtf8, Utf8.decode_toUtf8] at read
  exact Except.ok.inj read

end Text

namespace GeneratedFile

/-! ## §2. One text for all that is digested. -/

/-- The character that UTF-8 writes as a zero byte. -/
def null : Char := '\x00'

/-- The texts one behind the other, a null character in front of each. -/
def framed (texts : List Text) : Text :=
  texts.flatMap (null :: ·)

/-- The parts of the texts between their null characters. -/
def parts (texts : List Text) : List Text :=
  texts.flatMap (List.splitOn null)

theorem framed_cons (t : Text) (texts : List Text) : framed (t :: texts) = null :: (t ++ framed texts) :=
  rfl

/-- A zero byte in front of a text is a null character in front of it. -/
theorem toUtf8_framed (texts : List Text) :
    Text.toUtf8 (framed texts) = texts.flatMap fun text => 0 :: Text.toUtf8 text := by
  induction texts with
  | nil => rfl
  | cons t texts ih =>
      rw [framed_cons, List.flatMap_cons, ← ih, List.cons_append, ← Text.toUtf8_append]
      rfl

theorem digestInput_eq_toUtf8 (source : Text) (schemas : List Text) :
    digestInput source schemas = Text.toUtf8 (version ++ framed (source :: schemas)) := by
  rw [digestInput, Text.toUtf8_append, toUtf8_framed]

/-! ## §3. Taking the text apart again. -/

/-- A text and what is framed behind it are cut at the null characters of each. -/
theorem splitOn_append_framed (t : Text) (texts : List Text) :
    (t ++ framed texts).splitOn null = parts (t :: texts) := by
  induction texts generalizing t with
  | nil => simp [framed, parts]
  | cons u texts ih =>
      have cut : (t ++ null :: (u ++ framed texts)).splitOn null
          = t.splitOn null ++ (u ++ framed texts).splitOn null :=
        List.splitOnP_append_cons t _ (beq_self_eq_true null)
      rw [framed_cons, cut, ih u]
      rfl

/-- Texts that are cut into the same parts are the same text. -/
theorem splitOn_inj {t u : Text} : t.splitOn null = u.splitOn null ↔ t = u := by
  constructor
  · intro same
    have whole : List.intercalate [null] (t.splitOn null) = t := List.intercalate_splitOn null
    rw [← whole, same, List.intercalate_splitOn]
  · rintro rfl
    rfl

/-- A text without null characters is one part. -/
theorem splitOn_of_notMem {t : Text} (free : null ∉ t) : t.splitOn null = [t] := by
  apply List.splitOnP_eq_singleton
  intro ch mem
  rw [beq_eq_false_iff_ne]
  rintro rfl
  exact free mem

theorem parts_of_notMem {texts : List Text} (free : ∀ t ∈ texts, null ∉ t) : parts texts = texts := by
  induction texts with
  | nil => rfl
  | cons t texts ih =>
      have here := splitOn_of_notMem (free t List.mem_cons_self)
      have behind := ih fun u mem => free u (List.mem_cons_of_mem t mem)
      show t.splitOn null ++ parts texts = t :: texts
      rw [here, behind]
      rfl

/-! ## §4. Which inputs are told apart. -/

section
variable (s s' : Text) (l l' : List Text)

/-- **Two inputs are digested alike if and only if they have the same parts.** -/
theorem digestInput_eq_iff : digestInput s l = digestInput s' l' ↔ parts (s :: l) = parts (s' :: l') := by
  rw [digestInput_eq_toUtf8, digestInput_eq_toUtf8]
  calc Text.toUtf8 (version ++ framed (s :: l)) = Text.toUtf8 (version ++ framed (s' :: l'))
      ↔ version ++ framed (s :: l) = version ++ framed (s' :: l') :=
        ⟨Text.toUtf8_injective, congrArg _⟩
    _ ↔ framed (s :: l) = framed (s' :: l') := List.append_right_inj version
    _ ↔ s ++ framed l = s' ++ framed l' := by
        rw [framed_cons, framed_cons, List.cons_inj_right]
    _ ↔ parts (s :: l) = parts (s' :: l') := by
        rw [← splitOn_inj, splitOn_append_framed, splitOn_append_framed]

/-- **Inputs are told apart by their parts, and wholly where no text holds a null character.** -/
theorem digestInput_separates :
    (digestInput s l = digestInput s' l' ↔ parts (s :: l) = parts (s' :: l'))
      ∧ ((∀ t ∈ s :: l, null ∉ t) → (∀ t ∈ s' :: l', null ∉ t) →
          (digestInput s l = digestInput s' l' ↔ s = s' ∧ l = l')) := by
  refine ⟨digestInput_eq_iff s s' l l', fun free free' => ?_⟩
  rw [digestInput_eq_iff, parts_of_notMem free, parts_of_notMem free', List.cons.injEq]

end

/-- Two schemas are not digested like one that holds the text of both. -/
theorem joinedSchemas_separates :
    let two : List Text := ["enum A \x7b\x7d", "enum B \x7b\x7d"]
    let one : List Text := ["enum A \x7b\x7denum B \x7b\x7d"]
    (∀ t ∈ [] :: two, null ∉ t) ∧ (∀ t ∈ [] :: one, null ∉ t)
      ∧ (digestInput [] two = digestInput [] one ↔ ([] : Text) = [] ∧ two = one) := by
  intro two one
  have free : ∀ t ∈ [] :: two, null ∉ t := by decide
  have free' : ∀ t ∈ [] :: one, null ∉ t := by decide
  exact ⟨free, free', (digestInput_separates [] [] two one).2 free free'⟩

/-- **A null character hides where a text ends**: an enum is moved from one schema to the other, and
what is digested stays the same. -/
theorem movedSchema_alike :
    let one : List Text := ["enum A \x7b\x7d\x00enum B \x7b\x7d\n", []]
    let other : List Text := ["enum A \x7b\x7d", "enum B \x7b\x7d\n\x00"]
    one ≠ other ∧ digestInput [] one = digestInput [] other := by
  decide

end GeneratedFile

end EnumExtract
