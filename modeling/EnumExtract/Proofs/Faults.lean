/-
  EnumExtract.Proofs.Faults
  ────────────────────────────────
  Where the readers of a source report their faults.

  `Within n P x` says of a computation that what it gives is `P`, and that a
  fault it ends in lies among the first `n` characters of the input.  Readers
  start at cursors whose text ends by `n`, and hand such cursors on, so the
  bound of a reader follows from those of the readers it is made of.

  Main results:
    • `walk_within`     a walk whose steps keep to bounds keeps to them,
    • `items_within`    the scan of a text,
    • `pieces_within`   the pieces of a list.
-/
import EnumExtract.Proofs.Fields
import EnumExtract.Proofs.Scan

namespace EnumExtract

/-! ## §1. Computations with their faults in bounds. -/

/-- What the computation gives is `P`; a fault is one of the input, at an offset up to `n`. -/
abbrev Within {α : Type} (n : Nat) (P : α → Prop) : Except Fault α → Prop :=
  Ends (fun fault => fault.source = none ∧ fault.index ≤ n) P

/-- The computation is one of a reader: a fault is a parse error, too. -/
abbrev Misread {α : Type} (n : Nat) (P : α → Prop) : Except Fault α → Prop :=
  Ends (fun fault => (fault.source = none ∧ fault.index ≤ n) ∧ fault.cause.code = .parseError) P

theorem Misread.within {α : Type} {n : Nat} {P : α → Prop} {x : Except Fault α} (h : Misread n P x) :
    Within n P x := by
  cases x with
  | ok a => exact h
  | error fault => exact h.1

theorem Within.fault {α : Type} {n : Nat} {P : α → Prop} {cause : Cause} {index : Nat}
    (le : index ≤ n) : Within n P (.error ⟨cause, index, none⟩) :=
  ⟨rfl, le⟩

namespace Cursor

/-! ## §2. Cursors whose text ends in bounds. -/

/-- The text ahead ends by the offset `n`. -/
def EndsBy (n : Nat) (c : Cursor) : Prop :=
  c.offset + c.ahead.length ≤ n

variable {n k : Nat} {c d : Cursor}

theorem EndsBy.offset_le (h : c.EndsBy n) : c.offset ≤ n :=
  Nat.le_trans (Nat.le_add_right _ _) h

theorem EndsBy.leadsTo (h : c.EndsBy n) (leads : c.LeadsTo d) : d.EndsBy n := by
  unfold EndsBy at h ⊢
  rwa [leads.end_eq]

theorem EndsBy.advance (h : c.EndsBy n) (fits : k ≤ c.ahead.length) : (c.advance k).EndsBy n :=
  h.leadsTo (leadsTo_advance fits)

theorem EndsBy.fail {α : Type} {P : α → Prop} {cause : Cause} (h : c.EndsBy n) :
    Within n P (c.fail cause) :=
  ⟨rfl, h.offset_le⟩

theorem EndsBy.misread {α : Type} {P : α → Prop} {cause : Cause} (h : c.EndsBy n)
    (parse : cause.code = .parseError) : Misread n P (c.fail cause) :=
  ⟨⟨rfl, h.offset_le⟩, parse⟩

theorem EndsBy.length_upTo (h : c.EndsBy n) (stop : Nat) : c.offset + (c.upTo stop).length ≤ n := by
  have short : (c.upTo stop).length ≤ c.ahead.length := (List.take_prefix _ _).length_le
  unfold EndsBy at h
  omega

theorem endsBy_cursor {t : Text} {i : Nat} (le : i ≤ t.length) : (t.cursor i).EndsBy t.length := by
  unfold EndsBy Text.cursor
  rw [List.length_drop]
  exact Nat.le_of_eq (Nat.add_sub_cancel' le)

/-- A walk whose steps keep an invariant at every place of the text: what its last step or its
closing function does is what the walk does. -/
theorem walk_within {E : Fault → Prop} {σ ρ : Type} {step : σ → Cursor → Except Fault (Step σ ρ)}
    {finish : σ → Cursor → Except Fault ρ} {I : σ → Prop} {P : ρ → Prop} {s : σ}
    (h : c.EndsBy n) (start : I s)
    (move : ∀ s place, I s → place.EndsBy n → place.ahead ≠ [] →
      Ends E (fun decided => match decided with | .move s' _ => I s' | .stop r => P r) (step s place))
    (last : ∀ s place, I s → place.EndsBy n → Ends E P (finish s place)) :
    Ends E P (walk step finish s c) := by
  refine walk_ends (fun before offset ch rest ends => ?_) h start move last
  have ends : offset + (ch :: rest).length ≤ n := ends
  rw [List.length_cons] at ends
  show offset + 1 + rest.length ≤ n
  omega

/-! ## §3. Lexemes and trivia. -/

theorem comment?_within (h : c.EndsBy n) :
    Misread n (fun l => ∀ k ∈ l, k ≤ c.ahead.length) c.comment? := by
  refine (?_ : Misread n (fun _ => True) c.comment?).and_of_ok (fun l hl k mem => ?_) |>.imp fun _ => And.right
  · unfold comment?
    split
    · trivial
    · split
      · trivial
      · exact h.misread rfl
    · trivial
  · exact (comment?_bounds (hl.trans (by rw [mem]))).2

theorem literal?_within (h : c.EndsBy n) : Misread n (fun _ => True) c.literal? := by
  unfold literal?
  split
  · split
    · trivial
    · exact h.misread rfl
  · split
    · split
      · trivial
      · exact h.misread rfl
    · split <;> trivial
    · trivial

theorem lexeme?_within (h : c.EndsBy n) : Misread n (fun _ => True) c.lexeme? := by
  unfold lexeme?
  refine (comment?_within h).bind fun l _ => ?_
  cases l with
  | some length => trivial
  | none => exact literal?_within h

theorem trivium?_within {keepDocs : Bool} (h : c.EndsBy n) :
    Misread n (fun _ => True) (c.trivium? keepDocs) := by
  unfold trivium?
  split
  · trivial
  · split
    · trivial
    · split
      · trivial
      · exact (comment?_within h).imp fun _ _ => trivial

theorem skipTrivia_within {keepDocs : Bool} (h : c.EndsBy n) :
    Misread n (EndsBy n) (c.skipTrivia keepDocs) := by
  refine walk_within (I := fun _ => True) h trivial (fun _ place _ ends _ => ?_) fun _ _ _ ends => ends
  refine (trivium?_within ends).bind fun l _ => ?_
  cases l with
  | some length => trivial
  | none => exact ends

/-! ## §4. Brackets and pieces. -/

theorem bracketStep_within {awaited : List Char} (h : c.EndsBy n) (more : c.ahead ≠ []) :
    Misread n (fun decided => match decided with
      | .move _ _ => True
      | .stop d => d.EndsBy n ∧ d.ahead ≠ []) (bracketStep awaited c) := by
  unfold bracketStep
  refine (lexeme?_within h).bind fun l _ => ?_
  cases l with
  | some length => trivial
  | none =>
      dsimp only
      split
      · exact ⟨h, more⟩
      · split
        · trivial
        · split
          · split
            · split
              · exact h.misread rfl
              · split
                · exact ⟨h, more⟩
                · trivial
            · exact h.misread rfl
          · trivial

/-- The closing bracket stands before the end of the text. -/
theorem closing_within (h : c.EndsBy n) :
    Misread n (fun d => d.EndsBy n ∧ d.ahead ≠ []) c.closing := by
  unfold closing
  split
  · exact h.misread rfl
  · split
    · exact h.misread rfl
    · exact walk_within (I := fun _ => True) h trivial
        (fun _ _ _ ends more => (bracketStep_within ends more).imp fun decided => by cases decided <;> exact id)
        fun _ _ _ _ => h.misread rfl

theorem EndsBy.advance_one (h : c.EndsBy n) (more : c.ahead ≠ []) : (c.advance 1).EndsBy n :=
  h.advance (List.length_pos_of_ne_nil more)

end Cursor

namespace Cutting

open Cursor

variable {n : Nat} {s : Cutting} {c : Cursor}

/-- The pieces found, and the one at hand, start in bounds. -/
structure StartsBy (n : Nat) (s : Cutting) : Prop where
  found : ∀ p ∈ s.found, p.start.EndsBy n
  start : s.start.EndsBy n

theorem StartsBy.pieces (h : s.StartsBy n) (stop : Nat) : ∀ p ∈ s.pieces stop, p.start.EndsBy n := by
  intro p mem
  rcases List.mem_cons.mp (List.mem_reverse.mp mem) with rfl | mem
  · exact h.start
  · exact h.found p mem

theorem StartsBy.read (h : s.StartsBy n) (ends : c.EndsBy n) (more : c.ahead ≠ []) (ch : Char) :
    (s.read c ch).StartsBy n := by
  unfold Cutting.read
  repeat' split
  all_goals first
    | exact ⟨h.found, h.start⟩
    | exact ⟨List.forall_mem_cons.mpr ⟨h.start, h.found⟩, ends.advance_one more⟩

end Cutting

namespace Cursor

variable {n k : Nat} {c d : Cursor}

theorem allPieces_within (h : c.EndsBy n) (stop : Nat) :
    Misread n (fun ps => ∀ p ∈ ps, p.start.EndsBy n) (c.allPieces stop) := by
  refine walk_within (I := Cutting.StartsBy n) h ⟨nofun, h⟩ (fun s place hs ends more => ?_)
    fun s _ hs _ => hs.pieces stop
  unfold allPieces.step
  split
  · exact hs.pieces stop
  · refine (lexeme?_within ends).bind fun l _ => ?_
    obtain ⟨before, offset, ahead⟩ := place
    cases l with
    | some length => cases ahead <;> exact hs
    | none =>
        cases ahead with
        | nil => exact hs.pieces stop
        | cons ch rest => exact hs.read ends more ch

theorem isFilled_within {p : Piece} (h : p.start.EndsBy n) :
    Misread n (fun _ => True) p.isFilled :=
  (skipTrivia_within h).bind fun _ _ => trivial

/-- **The pieces of a list start in bounds.** -/
theorem pieces_within (h : c.EndsBy n) (stop : Nat) :
    Misread n (fun ps => ∀ p ∈ ps, p.start.EndsBy n) (c.pieces stop) :=
  (allPieces_within h stop).bind fun _ starts =>
    .filterM starts fun _ mem => isFilled_within (starts _ mem)

theorem withoutComments_within {p : Piece} (h : p.start.EndsBy n) :
    Misread n (fun _ => True) p.withoutComments := by
  refine walk_within (I := fun _ => True) h trivial (fun _ place _ ends _ => ?_) fun _ _ _ _ => trivial
  unfold Piece.withoutComments.step
  split
  · trivial
  · refine (comment?_within ends).bind fun l _ => ?_
    cases l with
    | some length => trivial
    | none => exact (literal?_within ends).bind fun _ _ => trivial

/-! ## §5. Attributes and preludes. -/

end Cursor

/-- The attribute starts in bounds, and so does the text between its parentheses end. -/
structure Attribute.EndsBy (n : Nat) (a : Attribute) : Prop where
  start : a.start ≤ n
  args : ∀ args ∈ a.args, args.start + args.text.length ≤ n

/-- An item starts in bounds, and so do its body and its attributes. -/
structure Item.EndsBy (n : Nat) (item : Item) : Prop where
  start : item.start ≤ n
  bodyIndex : item.bodyIndex ≤ n
  attrs : ∀ a ∈ item.attrs, a.EndsBy n

namespace Cursor

variable {n k : Nat} {c d : Cursor}

theorem readDocComment_within (h : c.EndsBy n) : Misread n (Attribute.EndsBy n) c.readDocComment :=
  (lexeme?_within h).bind fun _ _ => ⟨h.offset_le, nofun⟩

theorem more_of_sees {ch : Char} {word : Text} (h : c.sees (ch :: word) = true) : c.ahead ≠ [] := by
  obtain ⟨rest, eq⟩ := sees_iff.mp h
  rw [eq]
  exact List.cons_ne_nil _ _

theorem readAttribute_within (h : c.EndsBy n) (sees : c.sees "#[" = true) :
    Misread n (Attribute.EndsBy n) c.readAttribute := by
  have two : 2 ≤ c.ahead.length := length_le_of_sees sees
  unfold readAttribute
  refine (closing_within (h.advance (by omega))).bind fun close hclose => ?_
  refine (skipTrivia_within (h.advance two)).bind fun head hhead => ?_
  have fits : Text.pathLength (head.upTo close.offset) ≤ head.ahead.length :=
    Nat.le_trans (pathLength_spec _).1 (List.take_prefix _ _).length_le
  dsimp only
  split
  · exact hhead.misread rfl
  refine (skipTrivia_within (hhead.advance fits)).bind fun next hnext => ?_
  split
  · next inside =>
    rw [Bool.and_eq_true] at inside
    refine (closing_within hnext).bind fun argsClose _ => ⟨h.offset_le, ?_⟩
    rintro args ⟨⟩
    exact (hnext.advance_one (more_of_sees inside.2)).length_upTo _
  · exact ⟨h.offset_le, nofun⟩

theorem readPrelude_within (h : c.EndsBy n) :
    Misread n (fun found => (∀ a ∈ found.1, a.EndsBy n) ∧ found.2.EndsBy n) c.readPrelude := by
  have reversed : ∀ {attrs : List Attribute}, (∀ a ∈ attrs, a.EndsBy n) →
      ∀ a ∈ attrs.reverse, a.EndsBy n := fun all a mem => all a (List.mem_reverse.mp mem)
  refine walk_within (I := fun attrs => ∀ a ∈ attrs, a.EndsBy n) h nofun
    (fun attrs place hattrs ends _ => ?_) fun _ _ hattrs ends => ⟨reversed hattrs, ends⟩
  unfold preludeStep
  refine (trivium?_within ends).bind fun l _ => ?_
  cases l with
  | some length => exact hattrs
  | none =>
      dsimp only
      split
      · exact (readDocComment_within ends).bind fun a ha => List.forall_mem_cons.mpr ⟨ha, hattrs⟩
      · split
        · next sees =>
          exact (readAttribute_within ends sees).bind fun a ha => List.forall_mem_cons.mpr ⟨ha, hattrs⟩
        · exact ⟨reversed hattrs, ends⟩

/-! ## §6. Items. -/

theorem EndsBy.identifier {w : Text} {after : Cursor} (h : c.EndsBy n)
    (found : c.identifier? = some (w, after)) : after.EndsBy n :=
  h.leadsTo (leadsTo_identifier found).1

theorem readIdentifier_within (h : c.EndsBy n) :
    Misread n (fun found => found.2.EndsBy n) c.readIdentifier := by
  unfold readIdentifier
  split
  · next found => exact h.identifier found
  · exact h.misread rfl

theorem readVisibility_within (h : c.EndsBy n) :
    Misread n (fun found => found.2.EndsBy n) c.readVisibility := by
  have reads : Misread n (fun _ => True) c.readVisibility := by
    unfold readVisibility
    split
    · trivial
    · next found =>
      split
      · trivial
      · refine (skipTrivia_within (h.identifier found)).bind fun scope _ => ?_
        split <;> trivial
  exact (reads.and_of_ok fun found ok => h.leadsTo (readVisibility_ok_iff.mp ok).leadsTo).imp
    fun _ => And.right

theorem readItem_within (h : c.EndsBy n) (module : List Text) :
    Misread n (fun found => ∀ item ∈ found.1, item.EndsBy n) (c.readItem module) := by
  unfold readItem
  refine (readPrelude_within h).bind fun ⟨attrs, head⟩ ⟨hattrs, hhead⟩ => ?_
  refine (readVisibility_within hhead).bind fun ⟨visibility, behind⟩ hbehind => ?_
  refine (skipTrivia_within hbehind).bind fun place hplace => ?_
  split
  · exact nofun
  · next found =>
    obtain ⟨⟨word, afterKeyword⟩, keyword, eq⟩ := Option.bind_eq_some_iff.mp found
    obtain ⟨_, _, ⟨⟩⟩ := Option.map_eq_some_iff.mp eq
    refine (skipTrivia_within (hplace.identifier keyword)).bind fun name hname => ?_
    split
    · exact nofun
    · next named =>
      rintro item ⟨⟩
      exact ⟨h.offset_le, (hname.identifier named).offset_le, hattrs⟩

theorem openModule?_within (h : c.EndsBy n) (keyword : c.startsKeyword ["mod"] = true) :
    Misread n (fun _ => True) c.openModule? := by
  unfold openModule?
  refine (skipTrivia_within (h.leadsTo (leadsTo_mod keyword))).bind fun name hname => ?_
  split
  · trivial
  · next named =>
    refine (skipTrivia_within (hname.identifier named)).bind fun body hbody => ?_
    split
    · exact (closing_within hbody).bind fun _ _ => trivial
    · trivial

/-- **The declarations of a text lie in it**, and so does what keeps it from being scanned. -/
theorem items_within (h : c.EndsBy n) : Misread n (fun items => ∀ item ∈ items, item.EndsBy n) c.items := by
  refine walk_within (I := fun s => ∀ item ∈ s.items, item.EndsBy n) h nofun
    (fun s place hs ends _ => ?_) fun s _ hs _ item mem => hs item (List.mem_reverse.mp mem)
  unfold scanStep
  dsimp only
  split
  · next keyword =>
    refine (openModule?_within ends keyword).bind fun found _ => ?_
    cases found <;> exact hs
  · split
    · refine (readItem_within ends _).bind fun ⟨item?, next⟩ hitem => ?_
      intro item mem
      rcases List.mem_append.mp mem with mem | mem
      · exact hitem item (Option.mem_toList.mp mem)
      · exact hs item mem
    · exact (lexeme?_within ends).bind fun _ _ => hs

end Cursor

theorem Text.items_within (t : Text) : Misread t.length (fun items => ∀ item ∈ items, item.EndsBy t.length) t.items :=
  Cursor.items_within (Cursor.endsBy_cursor (Nat.zero_le _))

end EnumExtract
