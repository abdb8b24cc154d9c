/-
  EnumExtract.Proofs.LockstepBodies
  ────────────────────────────────
  Declarations in two texts that are read in lockstep.

  A field is read of a piece by its label and by its type, both of them as
  text.  Where the two texts have the same labels and, without comments, the
  same types, everything that is read of a declaration is the same: fields,
  shapes, variants, directives and metadata, or the class of the fault.

  Main results:
    • `BothWays.withoutComments`   types are the same,
    • `BothWays.field`             and so are fields,
    • `BothWays.variant`           variants,
    • `BothWays.enumDecl`          enums
    • `BothWays.structDecl`        and structs.
-/
import EnumExtract.Proofs.Border
import EnumExtract.Proofs.Comments
import EnumExtract.Proofs.Likeness
import EnumExtract.Proofs.LockstepPieces

namespace EnumExtract

open Cursor

/-! ## §1. Labels and types. -/

/-- Arrows, labels and types without comments are the same at related places. -/
structure KeepsFields (R : Cursor → Cursor → Prop) : Prop where
  arrows : KeepsArrows R
  label : ∀ ⦃c c' : Cursor⦄ ⦃i i' : Nat⦄, R c c' → Bounds R i i' → c.offset < i →
    Field.label? (c'.upTo i') = Field.label? (c.upTo i)
  strip : ∀ ⦃c c' : Cursor⦄ ⦃i i' : Nat⦄ (start start' : Cursor) (texts : List Text), R c c' →
    Bounds R i i' → c.offset < i → c.ahead ≠ [] →
    Alike (Step.Alike R Eq Eq c c') (Piece.withoutComments.step ⟨start, i⟩ texts c)
      (Piece.withoutComments.step ⟨start', i'⟩ texts c')

theorem Piece.withoutComments_step_steady (p : Piece) : Steady (withoutComments.step p) := by
  intro texts c texts' n more h
  unfold withoutComments.step at h
  split at h
  · cases h
  · obtain ⟨comment, hc, h⟩ := bind_ok_iff.mp h
    cases comment with
    | some length =>
        cases h
        exact comment?_bounds hc
    | none =>
        obtain ⟨literal, hl, h⟩ := bind_ok_iff.mp h
        cases h
        cases literal with
        | some length => exact literal?_bounds hl
        | none => exact ⟨Nat.one_pos, List.length_pos_iff.mpr more⟩

namespace BothWays

variable {t t' : Text} {R : Cursor → Cursor → Prop} {c c' : Cursor} {i i' n : Nat} {p p' : Piece}

/-- **Types without their comments are the same.** -/
theorem withoutComments (B : BothWays t t' R) (F : KeepsFields R) (tracked : p.Tracked R p') :
    Alike Eq p.withoutComments p'.withoutComments := by
  refine Alike.walk (I := Eq) (R := R) (fun _ _ => B.ahead_eq_nil_iff) p.withoutComments_step_steady
    p'.withoutComments_step_steady (fun texts texts' x x' same related more => ?_)
    (fun texts texts' _ _ same _ _ => .ok (by rw [same])) rfl tracked.start
  subst same
  rcases Nat.lt_or_ge x.offset p.stop with before | behind
  · exact F.strip p.start p'.start texts related tracked.stop before more
  · have behind' := (B.le_iff_of_bounds related tracked.stop).mpr behind
    unfold Piece.withoutComments.step
    rw [if_pos behind, if_pos behind']
    exact .ok (.stop rfl)

/-- As many blanks in both texts lead to related places. -/
theorem blanks (B : BothWays t t' R) {b b' : Text} (same : b'.length = b.length)
    (blank : ∀ ch ∈ b, isBlank ch = true) (blank' : ∀ ch ∈ b', isBlank ch = true) :
    ∀ {c c' : Cursor} {r r' : Text}, R c c' → c.ahead = b ++ r → c'.ahead = b' ++ r' →
      R (c.advance b.length) (c'.advance b.length) := by
  induction b generalizing b' with
  | nil =>
      intro c c' r r' h _ _
      exact h
  | cons ch b ih =>
      intro c c' r r' h eq eq'
      cases b' with
      | nil => cases same
      | cons ch' b' =>
          obtain ⟨here, rest⟩ := List.forall_mem_cons.mp blank
          obtain ⟨here', rest'⟩ := List.forall_mem_cons.mp blank'
          -- a blank is one step of trivia in both texts
          have passed : c.trivium? true = .ok (some 1) := trivium?_of_isBlank (by rw [eq]; rfl) here
          have passed' : c'.trivium? true = .ok (some 1) := trivium?_of_isBlank (by rw [eq']; rfl) here'
          obtain ⟨n', there, related⟩ := B.forth.trivium_some h passed
          rw [passed'] at there
          cases there
          have onward := ih (Nat.succ.inj same) rest rest' related (by rw [advance_ahead, eq]; rfl)
            (by rw [advance_ahead, eq']; rfl)
          rwa [advance_advance, advance_advance, Nat.add_comm 1] at onward

/-- **The places behind a label are related.** -/
theorem labelled (B : BothWays t t' R) (h : R c c') {name : Text}
    (label : Field.label? (c.upTo i) = some (name, n)) (label' : Field.label? (c'.upTo i') = some (name, n)) :
    R (c.advance n) (c'.advance n) := by
  obtain ⟨b, rest, eq, rfl, isIdentifier, blank⟩ := Field.label?_some label
  obtain ⟨b', rest', eq', size, _, blank'⟩ := Field.label?_some label'
  have whole {x : Cursor} {i : Nat} {b rest : Text} (eq : x.upTo i = name ++ b ++ ':' :: rest) :
      ∃ tail, x.ahead = name ++ b ++ ':' :: tail := by
    refine ⟨rest ++ x.ahead.drop (i - x.offset), ?_⟩
    conv_lhs => rw [← List.take_append_drop (i - x.offset) x.ahead]
    rw [Cursor.upTo] at eq
    rw [eq]
    simp
  obtain ⟨tail, ahead⟩ := whole eq
  obtain ⟨tail', ahead'⟩ := whole eq'
  have named : c.identifier? = some (name, c.advance name.length) := by
    unfold Cursor.identifier?
    rw [ahead, Field.identifier?_gap isIdentifier blank (.inr rfl)]
    rfl
  obtain ⟨after', named', _, onward⟩ := B.forth.word h named
  obtain ⟨_, rfl⟩ := identifier?_eq_some named'
  have behind : (c.advance name.length).ahead = b ++ ':' :: tail := by
    rw [advance_ahead, ahead, List.append_assoc, List.drop_left]
  have behind' : (c'.advance name.length).ahead = b' ++ ':' :: tail' := by
    rw [advance_ahead, ahead', List.append_assoc, List.drop_left]
  -- no raw string opens in a name with a blank or a colon behind it
  have plain : c.PlainWord name := by
    cases b with
    | nil => exact plainWord_of_behind named behind (by decide)
    | cons x b =>
        refine plainWord_of_behind named behind ⟨?_, ?_, ?_, ?_⟩ <;> rintro rfl <;>
          cases blank _ List.mem_cons_self
  have same : b'.length = b.length := by omega
  have atColon := B.blanks same blank blank' (onward plain).2 behind behind'
  have colon : ((c.advance name.length).advance b.length).ahead.head? = some ':' := by
    rw [advance_ahead, behind, List.drop_left]
    rfl
  have next := B.forth.behind atColon colon rfl rfl (passable_of_first colon (by decide))
  rwa [advance_advance, advance_advance, advance_advance, advance_advance, ← Nat.add_assoc] at next

end BothWays

/-! ## §2. Fields. -/

theorem map_text_of_tracked {R : Cursor → Cursor → Prop} {attrs attrs' : List Attribute}
    (all : List.Forall₂ (Attribute.Tracked R) attrs attrs') : attrs'.map (·.text) = attrs.map (·.text) := by
  induction all with
  | nil => rfl
  | cons here _ ih => rw [List.map_cons, List.map_cons, here.text, ih]

namespace BothWays

variable {t t' : Text} {R : Cursor → Cursor → Prop} {c c' : Cursor} {i i' n : Nat} {p p' : Piece}

/-- **The same field is read of related pieces**, or a fault of the same class. -/
theorem field {named : Bool} (B : BothWays t t' R) (F : KeepsFields R) (tracked : p.Tracked R p') :
    Alike Eq (Field.read named p) (Field.read named p') := by
  unfold Field.read
  refine (B.readPrelude tracked.start).bind fun found found' both => ?_
  obtain ⟨attrs, head⟩ := found
  obtain ⟨attrs', head'⟩ := found'
  obtain ⟨all, atHead⟩ := both
  refine (B.readVisibility atHead).bind fun visible visible' atVisible => ?_
  refine (B.skipTrivia atVisible).bind fun place place' atPlace => ?_
  refine .ite (B.le_iff_of_bounds atPlace tracked.stop) (fun _ => .error rfl) fun before => ?_
  have label := F.label atPlace tracked.stop (Nat.lt_of_not_le before)
  rw [label]
  refine .ite Iff.rfl (fun _ => .error rfl) fun _ => ?_
  -- the type starts behind the label, or at once where there is none
  have atType : R (place.advance ((Field.label? (place.upTo p.stop)).elim 0 (·.2)))
      (place'.advance ((Field.label? (place.upTo p.stop)).elim 0 (·.2))) := by
    cases found : Field.label? (place.upTo p.stop) with
    | none =>
        rw [Option.elim_none, advance_zero, advance_zero]
        exact atPlace
    | some l => exact B.labelled atPlace found (label.trans found)
  have typed : Piece.Tracked R ⟨_, p.stop⟩ ⟨_, p'.stop⟩ := ⟨atType, tracked.stop⟩
  refine (B.withoutComments F typed).bind fun written written' same => ?_
  subst same
  refine .ite Iff.rfl (fun _ => .error rfl) fun _ => ?_
  rw [map_text_of_tracked all]
  exact .ok rfl

/-- The same fields are read of related lists. -/
theorem readList {named : Bool} (B : BothWays t t' R) (F : KeepsFields R)
    (inside : R (c.advance 1) (c'.advance 1)) (bounds : Bounds R i i') :
    Alike Eq (Field.readList c i named) (Field.readList c' i' named) :=
  (B.pieces F.arrows inside bounds).bind fun _ _ all =>
    (Alike.mapM all fun _ _ => B.field F).imp fun _ _ => List.forall₂_eq_eq_eq ▸ id

/-- The same fields open at related places of related pieces, or none at either. -/
theorem readFields (B : BothWays t t' R) (F : KeepsFields R) (h : R c c') (bounds : Bounds R i i') :
    Alike (fun x x' => x'.1 = x.1 ∧ R x.2 x'.2) (Variant.readFields c i) (Variant.readFields c' i') := by
  have paren : c'.sees "(" = c.sees "(" := B.forth.sees_char h rfl (by decide)
  have brace : c'.sees "\x7b" = c.sees "\x7b" := B.forth.sees_char h rfl (by decide)
  have before := B.le_iff_of_bounds h bounds
  unfold Variant.readFields
  rw [paren, brace]
  refine .ite ?_ (fun _ => ?_) fun _ => .ok ⟨rfl, h⟩
  · rw [Bool.and_eq_true, Bool.and_eq_true, decide_eq_true_iff, decide_eq_true_iff]
    refine and_congr_left fun _ => ?_
    omega
  · refine (B.enclosed h).bind fun close close' parts => ?_
    obtain ⟨inside, bounds, behind⟩ := parts
    refine (B.readList F inside bounds).bind fun fields fields' same => ?_
    exact (B.skipTrivia behind).bind fun rest rest' atRest => .ok ⟨same.symm, atRest⟩

end BothWays

/-! ## §3. Directives and variants. -/

theorem Attribute.Tracked.metadata {R : Cursor → Cursor → Prop} {a a' : Attribute} (h : a.Tracked R a') :
    Metadata.ofAttribute a' = Metadata.ofAttribute a := by
  refine Metadata.ofAttribute_congr h.path h.text ?_
  rcases h.args with ⟨none, none'⟩ | ⟨x, x', some, some', same, _⟩
  · rw [none, none']
  · rw [some, some', Option.map_some, Option.map_some, same]

theorem mapM_metadata_of_tracked {R : Cursor → Cursor → Prop} {attrs attrs' : List Attribute}
    (all : List.Forall₂ (Attribute.Tracked R) attrs attrs') :
    attrs'.mapM Metadata.ofAttribute = attrs.mapM Metadata.ofAttribute :=
  Metadata.mapM_ofAttribute_congr (all.imp fun _ _ tracked => tracked.metadata)

namespace BothWays

variable {t t' : Text} {R : Cursor → Cursor → Prop} {c c' : Cursor} {i i' n : Nat} {p p' : Piece}
  {a a' : Attribute}

/-- The place at a marked offset. -/
theorem marked (B : BothWays t t' R) (marks : Marks R i i') : R (t.cursor i) (t'.cursor i') := by
  obtain ⟨x, x', related, rfl, rfl⟩ := marks
  obtain ⟨here, there⟩ := B.forth.place related
  rw [← here, ← there]
  exact related

/-- **The same attributes are listed** in related `#[variant_attrs(…)]`. -/
theorem listedAttrs (B : BothWays t t' R) (tracked : a.Tracked R a') :
    Alike Eq (Variant.Directives.listedAttrs t a) (Variant.Directives.listedAttrs t' a') := by
  unfold Variant.Directives.listedAttrs
  rcases tracked.args with ⟨none, none'⟩ | ⟨x, x', some, some', same, start, stop⟩
  · rw [none, none']
    exact .error rfl
  · rw [some, some']
    refine (B.readPrelude (B.marked start)).bind fun found found' both => ?_
    obtain ⟨inner, place⟩ := found
    obtain ⟨inner', place'⟩ := found'
    obtain ⟨all, atPlace⟩ := both
    refine (B.skipTrivia atPlace).bind fun d d' atEnd => ?_
    have before := B.forth.order atEnd (B.marked stop)
    refine .ite before.symm (fun _ => .error rfl) fun _ => ?_
    rw [mapM_metadata_of_tracked all]
    exact .refl _

/-- Related attributes add the same to the directives. -/
theorem addDirective {d d' : Variant.Directives} (B : BothWays t t' R) (like : d.Like d')
    (tracked : a.Tracked R a') :
    Alike Variant.Directives.Like (Variant.Directives.add t d a) (Variant.Directives.add t' d' a') := by
  unfold Variant.Directives.add
  rw [tracked.path, like.listed]
  refine .ite Iff.rfl (fun _ => .ok ⟨like.metadata, rfl, rfl⟩) fun _ => ?_
  refine .ite Iff.rfl (fun _ => ?_) fun _ => ?_
  · refine .ite Iff.rfl (fun _ => .error rfl) fun _ => ?_
    refine (B.listedAttrs tracked).bind fun listed listed' same => .ok ⟨?_, like.excluded, rfl⟩
    rw [same, like.metadata]
  · refine .ite Iff.rfl (fun _ => ?_) fun _ => .ok like
    rw [tracked.metadata]
    refine (Alike.refl _).bind fun entry entry' same => .ok ⟨?_, like.excluded, rfl⟩
    rw [same, like.metadata]

end BothWays

/-- A bracket or comma that stands behind the start of a word, and not at once behind the word, stands
further behind. -/
theorem Cursor.word_lt_iff {t name : Text} {c after x : Cursor} {ch : Char} (place : c = t.cursor c.offset)
    (place' : x = t.cursor x.offset) (named : c.identifier? = some (name, after))
    (bound : x.ahead.head? = some ch) (ends : ch = ',' ∨ isCloser ch = true)
    (other : after.ahead.head? ≠ some ch) : after.offset < x.offset ↔ c.offset < x.offset := by
  obtain ⟨hw, rfl⟩ := identifier?_eq_some named
  obtain ⟨rest, eq, isIdentifier, _⟩ := Text.identifier?_some hw
  rw [advance_offset]
  refine ⟨fun lt => by omega, fun lt => ?_⟩
  rcases Nat.lt_or_ge (c.offset + name.length) x.offset with beyond | within
  · exact beyond
  · exfalso
    rw [place'] at bound
    have found := Border.getElem?_of_first (Nat.le_of_lt lt) bound
    rw [← place] at found
    rcases Nat.lt_or_eq_of_le (show x.offset - c.offset ≤ name.length by omega) with inside | behind
    · -- no comma and no bracket is part of a word
      rw [eq, List.getElem?_append_left inside] at found
      rcases isIdentifier.isWord ch (List.mem_of_getElem? found) with word | rfl
      · rcases ends with rfl | closes
        · cases word
        · rw [not_isWord_of_isCloser closes] at word
          cases word
      · rcases ends with same | closes
        · cases same
        · cases closes
    · rw [behind, ← List.head?_drop, ← advance_ahead] at found
      exact other found

/-- At the end of a text, or where a raw string may go on, no fields and no equals sign stand. -/
theorem Variant.readFields_of_opener {z : Cursor} (i : Nat)
    (opener : ∀ f, z.ahead.head? = some f → ¬ (f ≠ '#' ∧ f ≠ '"' ∧ f ≠ 'r' ∧ f ≠ 'b')) :
    (do readFields (← z.skipTrivia) i) = .ok ([], z) ∧ z.sees "=" = false := by
  have unseen (ch : Char) (plain : ch ≠ '#' ∧ ch ≠ '"' ∧ ch ≠ 'r' ∧ ch ≠ 'b') : z.sees [ch] = false :=
    Bool.eq_false_iff.mpr fun sees => opener ch (first_of_sees sees) plain
  have stop : z.trivium? false = .ok none := by
    cases eq : z.ahead with
    | nil => exact trivium?_of_end eq
    | cons f rest =>
        have first : z.ahead.head? = some f := by rw [eq, List.head?_cons]
        obtain ⟨plain, noSlash, _⟩ := stuck_of_opener (opener f first)
        exact trivium?_of_first first plain noSlash
  refine ⟨bind_ok_iff.mpr ⟨z, skipTrivia_ok_iff.mpr (.stop stop), readFields_eq_nil fun _ => ⟨?_, ?_⟩⟩, ?_⟩
  · exact unseen '(' (by decide)
  · exact unseen '{' (by decide)
  · exact unseen '=' (by decide)

namespace BothWays

variable {t t' : Text} {R : Cursor → Cursor → Prop} {c c' : Cursor} {i i' n : Nat} {p p' : Piece}

theorem readIdentifier (B : BothWays t t' R) (h : R c c') :
    Alike (fun x x' => c.identifier? = some x ∧ c'.identifier? = some x')
      c.readIdentifier c'.readIdentifier := by
  unfold Cursor.readIdentifier
  cases named : c.identifier? with
  | none =>
      rw [B.forth.identifier?_none h named]
      exact .error rfl
  | some x =>
      obtain ⟨after', named', _⟩ := B.forth.word h named
      rw [named']
      exact .ok ⟨rfl, rfl⟩

/-- **The same fields** are read behind related words, and the piece goes on behind them in both
texts or in neither. -/
theorem fieldsBehind {name name' : Text} {after after' : Cursor} (B : BothWays t t' R) (F : KeepsFields R)
    (h : R c c') (bounds : Bounds R i i') (named : c.identifier? = some (name, after))
    (named' : c'.identifier? = some (name', after')) :
    Alike (fun x x' => x'.1 = x.1 ∧ (x'.2.offset < i' && !x'.2.sees "=") = (x.2.offset < i && !x.2.sees "="))
      (do Variant.readFields (← after.skipTrivia) i) (do Variant.readFields (← after'.skipTrivia) i') := by
  obtain ⟨after'', there, behind, onward⟩ := B.forth.word h named
  rw [named'] at there
  cases there
  -- behind a word that runs into a raw string the two places need not be related
  by_cases related : R after after'
  · refine (B.skipTrivia related).bind fun place place' atPlace => ?_
    refine (B.readFields F atPlace bounds).imp fun x x' both => ⟨both.1, ?_⟩
    have before := B.le_iff_of_bounds both.2 bounds
    have equals : x'.2.sees "=" = x.2.sees "=" := B.forth.sees_char both.2 rfl (by decide)
    rw [equals, decide_eq_decide.mpr (show x'.2.offset < i' ↔ x.2.offset < i by omega)]
  · -- neither trivia nor fields stand behind the words, nor do the pieces end at once
    have same := behind.resolve_right related
    have opener : ∀ f, after.ahead.head? = some f → ¬ (f ≠ '#' ∧ f ≠ '"' ∧ f ≠ 'r' ∧ f ≠ 'b') := by
      intro f first outside
      obtain ⟨rest, eq⟩ := List.head?_eq_some_iff.mp first
      exact related (onward (plainWord_of_behind named eq outside)).2
    obtain ⟨none, noEquals⟩ := Variant.readFields_of_opener i opener
    obtain ⟨none', noEquals'⟩ := Variant.readFields_of_opener i' (same.symm ▸ opener)
    rw [none, none']
    refine .ok ⟨rfl, ?_⟩
    obtain ⟨x, x', ch, atBound, rfl, rfl, bound, bound', ends⟩ := bounds
    obtain ⟨place, place'⟩ := B.forth.place h
    obtain ⟨there, there'⟩ := B.forth.place atBound
    have other : after.ahead.head? ≠ some ch := by
      intro first
      refine opener ch first ?_
      rcases ends with rfl | closes
      · decide
      · refine ⟨?_, ?_, ?_, ?_⟩ <;> rintro rfl <;> cases closes
    have before := B.forth.order h atBound
    have lt := word_lt_iff place there named bound ends other
    have lt' := word_lt_iff place' there' named' bound' ends (same.symm ▸ other)
    have same : after'.offset < x'.offset ↔ after.offset < x.offset := by omega
    rw [noEquals, noEquals', decide_eq_decide.mpr same]

end BothWays

/-- A list of fields has the same shape at every place, or none. -/
theorem Shape.classify_alike (fields : List Field) (index index' : Nat) :
    Alike Eq (classify fields index) (classify fields index') := by
  unfold classify
  exact .ite Iff.rfl (fun _ => .ok rfl) fun _ => .ite Iff.rfl (fun _ => .ok rfl) fun _ =>
    .ite Iff.rfl (fun _ => .ok rfl) fun _ => .error rfl

namespace BothWays

variable {t t' : Text} {R : Cursor → Cursor → Prop} {c c' : Cursor} {i i' n : Nat} {p p' : Piece}

/-- **The same variant is read of related pieces**, or a fault of the same class. -/
theorem variant (B : BothWays t t' R) (F : KeepsFields R) (tracked : p.Tracked R p') :
    Alike Variant.Like (Variant.read t p) (Variant.read t' p') := by
  unfold Variant.read
  refine (B.readPrelude tracked.start).bind fun found found' both => ?_
  obtain ⟨attrs, head⟩ := found
  obtain ⟨attrs', head'⟩ := found'
  obtain ⟨all, atHead⟩ := both
  refine (B.readIdentifier atHead).bind fun found found' both => ?_
  obtain ⟨name, after⟩ := found
  obtain ⟨name', after'⟩ := found'
  obtain ⟨named, named'⟩ := both
  have same : name' = name := by
    obtain ⟨_, there, _⟩ := B.forth.word atHead named
    rw [named'] at there
    cases there
    rfl
  subst same
  simp only [← bind_assoc]
  refine (B.fieldsBehind F atHead tracked.stop named named').bind fun read read' both => ?_
  obtain ⟨fields, rest⟩ := read
  obtain ⟨fields', rest'⟩ := read'
  obtain ⟨same, ends⟩ := both
  simp only at same ends ⊢
  subst same
  rw [ends]
  refine .ite Iff.rfl (fun _ => .error rfl) fun _ => ?_
  refine (Alike.foldlM all (fun d d' a a' => B.addDirective) ⟨rfl, rfl, rfl⟩).bind fun d d' like => ?_
  refine (Shape.classify_alike fields' head.offset head'.offset).bind fun shape shape' same => ?_
  exact .ok ⟨rfl, same.symm, like.metadata, like.excluded⟩

theorem find?_of_like {known known' : List Variant} {v v' : Variant}
    (all : List.Forall₂ Variant.Like known known') (like : v.Like v') :
    (Variant.find? v'.name known').isSome = (Variant.find? v.name known).isSome := by
  rw [like.name]
  unfold Variant.find?
  induction all with
  | nil => rfl
  | cons here _ ih =>
      rw [List.find?_cons, List.find?_cons, here.name]
      split
      · rfl
      · exact ih

/-- The same variants are read of related pieces. -/
theorem variants {ps ps' : List Piece} (B : BothWays t t' R) (F : KeepsFields R)
    (all : List.Forall₂ (Piece.Tracked R) ps ps') :
    Alike (List.Forall₂ Variant.Like) (Variant.readAll t ps) (Variant.readAll t' ps') := by
  unfold Variant.readAll
  refine .foldlM all (fun known known' p p' known tracked => ?_) .nil
  unfold Variant.readAll.step
  refine (B.variant F tracked).bind fun v v' like => ?_
  rw [find?_of_like known like]
  exact .ite Iff.rfl (fun _ => .error rfl) fun _ => .ok (List.rel_append known (.cons like .nil))

end BothWays

/-! ## §4. Declarations. -/

/-- The same enum, perhaps at another place and with other directives and derives cut out of it. -/
structure EnumDecl.Like (enum enum' : EnumDecl) : Prop where
  name : enum'.name = enum.name
  visibility : enum'.visibility = enum.visibility
  variants : List.Forall₂ Variant.Like enum.variants enum'.variants
  metadata : enum'.metadata = enum.metadata

/-- The same struct, perhaps at another place. -/
structure StructDecl.Like (struct struct' : StructDecl) : Prop where
  name : struct'.name = struct.name
  visibility : struct'.visibility = struct.visibility
  shape : struct'.shape = struct.shape
  metadata : struct'.metadata = struct.metadata

section Derives

variable {t t' : Text} {R : Cursor → Cursor → Prop} {a a' : Attribute} {attrs attrs' : List Attribute}
  {item item' : Item}

/-- A trait is taken out of both attributes or out of neither. -/
theorem Attribute.Tracked.withoutTrait? (tracked : a.Tracked R a') (trait : Text) :
    Alike (fun edit? edit?' => edit?'.isSome = edit?.isSome) (a.withoutTrait? t trait)
      (a'.withoutTrait? t' trait) := by
  unfold Attribute.withoutTrait?
  rw [tracked.metadata]
  refine (Alike.refl _).bind fun entry entry' same => ?_
  subst same
  exact .ite Iff.rfl (fun _ => .ok rfl) fun _ => .ite Iff.rfl (fun _ => .ok rfl) fun _ =>
    .ite Iff.rfl (fun _ => .ok rfl) fun _ => .ok rfl

/-- Enums are marked in both texts or in neither. -/
theorem Item.Tracked.isMarked (tracked : item.Tracked R item') :
    Alike Eq (EnumDecl.isMarked t item) (EnumDecl.isMarked t' item') := by
  unfold EnumDecl.isMarked
  rw [tracked.kind]
  refine .ite Iff.rfl (fun _ => .anyM tracked.attrs fun a a' tracked => ?_) fun _ => .ok rfl
  rw [tracked.path]
  refine .ite Iff.rfl (fun _ => .ok rfl) fun _ => ?_
  exact (tracked.withoutTrait? EnumDecl.marker).bind fun edit? edit?' same => .ok same.symm

/-- Related attributes leave the same metadata with an enum. -/
theorem Attribute.Tracked.addAttribute {kept kept' : List Metadata × List Edit} (tracked : a.Tracked R a')
    (same : kept'.1 = kept.1) :
    Alike (fun kept kept' => kept'.1 = kept.1) (EnumDecl.addAttribute t kept a)
      (EnumDecl.addAttribute t' kept' a') := by
  unfold EnumDecl.addAttribute
  rw [tracked.path]
  refine .ite Iff.rfl (fun _ => .ok same) fun _ => ?_
  refine (tracked.withoutTrait? EnumDecl.marker).bind fun edit? edit?' both => ?_
  -- the edits may differ, for they go by what stands around the attribute; the metadata do not
  cases edit? with
  | some edit =>
      cases edit?' with
      | some edit' => exact .ok same
      | none => cases both
  | none =>
      cases edit?' with
      | some edit' => cases both
      | none =>
          simp only
          rw [tracked.metadata]
          exact (Alike.refl _).bind fun entry entry' eq => .ok (by rw [same, eq])

end Derives

namespace BothWays

variable {t t' : Text} {R : Cursor → Cursor → Prop} {c c' : Cursor} {i i' n : Nat} {item item' : Item}

/-- **The same enum is declared** by related items, or a fault of the same class is found. -/
theorem enumDecl (B : BothWays t t' R) (F : KeepsFields R) (tracked : item.Tracked R item') :
    Alike EnumDecl.Like (EnumDecl.read t item) (EnumDecl.read t' item') := by
  unfold EnumDecl.read
  refine (B.skipTrivia (B.marked tracked.bodyIndex)).bind fun body body' atBody => ?_
  have angle : body'.sees "<" = body.sees "<" := B.forth.sees_char atBody rfl (by decide)
  have brace : body'.sees "\x7b" = body.sees "\x7b" := B.forth.sees_char atBody rfl (by decide)
  rw [angle, brace]
  refine .ite Iff.rfl (fun _ => .error rfl) fun _ => ?_
  refine .ite Iff.rfl (fun _ => .error rfl) fun _ => ?_
  refine (B.enclosed atBody).bind fun close close' parts => ?_
  obtain ⟨inside, bounds, _⟩ := parts
  have readBody : Alike (List.Forall₂ Variant.Like) (Variant.readBody t body close.offset)
      (Variant.readBody t' body' close'.offset) :=
    (B.pieces F.arrows inside bounds).bind fun ps ps' all => B.variants F all
  refine readBody.bind fun variants variants' like => ?_
  refine (Alike.foldlM tracked.attrs (fun kept kept' a a' same tracked => tracked.addAttribute same) rfl).bind
    fun kept kept' same => ?_
  exact .ok ⟨tracked.name, tracked.visibility, like, same⟩

/-- The same fields are read of the bodies of related structs. -/
theorem structBody (B : BothWays t t' R) (F : KeepsFields R) (h : R c c') (name : Text) :
    Alike (fun x x' => x'.1 = x.1) (StructDecl.readBody c name) (StructDecl.readBody c' name) := by
  have sees (ch : Char) {d d' : Cursor} (h : R d d') (solid : isBlank ch = false) (noSlash : ch ≠ '/') :
      d'.sees [ch] = d.sees [ch] := B.forth.sees_char h solid noSlash
  have semicolon : c'.sees ";" = c.sees ";" := sees ';' h rfl (by decide)
  have paren : c'.sees "(" = c.sees "(" := sees '(' h rfl (by decide)
  have brace : c'.sees "\x7b" = c.sees "\x7b" := sees '{' h rfl (by decide)
  unfold StructDecl.readBody
  rw [semicolon, paren, brace]
  refine .ite Iff.rfl (fun _ => .ok rfl) fun _ => .ite Iff.rfl (fun _ => ?_) fun _ =>
    .ite Iff.rfl (fun _ => ?_) fun _ => .error rfl
  · refine (B.enclosed h).bind fun close close' parts => ?_
    obtain ⟨inside, bounds, behind⟩ := parts
    refine (B.readList F inside bounds).bind fun fields fields' same => ?_
    refine (B.skipTrivia behind).bind fun place place' atPlace => ?_
    have semicolon : place'.sees ";" = place.sees ";" := sees ';' atPlace rfl (by decide)
    rw [semicolon]
    exact .ite Iff.rfl (fun _ => .error rfl) fun _ => .ok same.symm
  · refine (B.enclosed h).bind fun close close' parts => ?_
    obtain ⟨inside, bounds, _⟩ := parts
    exact (B.readList F inside bounds).bind fun fields fields' same => .ok same.symm

/-- **The same struct is declared** by related items, or a fault of the same class is found. -/
theorem structDecl (B : BothWays t t' R) (F : KeepsFields R) (tracked : item.Tracked R item') :
    Alike StructDecl.Like (StructDecl.read t item) (StructDecl.read t' item') := by
  unfold StructDecl.read
  refine (B.skipTrivia (B.marked tracked.bodyIndex)).bind fun body body' atBody => ?_
  have angle : body'.sees "<" = body.sees "<" := B.forth.sees_char atBody rfl (by decide)
  rw [angle, tracked.name]
  refine .ite Iff.rfl (fun _ => .error rfl) fun _ => ?_
  refine (B.structBody F atBody item.name).bind fun found found' same => ?_
  obtain ⟨fields, stop⟩ := found
  obtain ⟨fields', stop'⟩ := found'
  simp only at same ⊢
  subst same
  refine (Shape.classify_alike fields' body.offset body'.offset).bind fun shape shape' same => ?_
  have kept : List.Forall₂ (Attribute.Tracked R) (item.attrs.filter (·.path ≠ StructDecl.directive))
      (item'.attrs.filter (·.path ≠ StructDecl.directive)) :=
    forall₂_filter (tracked.attrs.imp fun a a' both => ⟨both, by rw [both.path]⟩)
  rw [mapM_metadata_of_tracked kept]
  exact (Alike.refl _).bind fun metadata metadata' eq =>
    .ok ⟨rfl, tracked.visibility, same.symm, eq.symm⟩

end BothWays

end EnumExtract
