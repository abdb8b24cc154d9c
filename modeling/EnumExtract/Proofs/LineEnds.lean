/-
  EnumExtract.Proofs.LineEnds
  ────────────────────────────────
  What is read from a text with no carriage return in it has none either.

  Every text that a reader gives is a stretch of the text ahead, or is made of
  stretches by leaving characters out and putting spaces in.  `Gives P x` says of a
  computation that what it gives, if it succeeds, is `P`; `NoReturn` of a record
  says it of the texts in it that may be printed.

  Main results:
    • `normalizeLineEnds_noReturn`, `normalizeLineEnds_eq`   line ends as they are read,
    • `items_noReturn`                                       the items of a text,
    • `EnumDecl.read_noReturn`, `StructDecl.read_noReturn`   declarations.
-/
import EnumExtract.Proofs.Faults
import EnumExtract.Schema.BindingTarget
import EnumExtract.Schema.ExtractOptions
import EnumExtract.Text.Lines

namespace EnumExtract

/-! ## §1. Texts. -/

/-- There is no carriage return in the text. -/
def Text.NoReturn (t : Text) : Prop :=
  '\r' ∉ t

instance (t : Text) : Decidable t.NoReturn :=
  inferInstanceAs (Decidable (¬ '\r' ∈ t))

namespace Text

variable {s t : Text}

@[simp]
theorem noReturn_nil : NoReturn [] :=
  List.not_mem_nil

@[simp]
theorem noReturn_cons {c : Char} : NoReturn (c :: t) ↔ c ≠ '\r' ∧ NoReturn t := by
  simp [NoReturn, eq_comm]

@[simp]
theorem noReturn_append : NoReturn (s ++ t) ↔ NoReturn s ∧ NoReturn t := by
  simp [NoReturn]

theorem NoReturn.of_subset (h : t.NoReturn) (sub : s ⊆ t) : s.NoReturn :=
  fun mem => h (sub mem)

theorem NoReturn.take (h : t.NoReturn) (n : Nat) : NoReturn (t.take n) :=
  h.of_subset (List.take_subset n t)

theorem NoReturn.drop (h : t.NoReturn) (n : Nat) : NoReturn (t.drop n) :=
  h.of_subset (List.drop_subset n t)

theorem NoReturn.takeWhile (h : t.NoReturn) (p : Char → Bool) : NoReturn (t.takeWhile p) :=
  h.of_subset (List.takeWhile_prefix p).subset

theorem NoReturn.slice (h : t.NoReturn) (start stop : Nat) : NoReturn (t.slice start stop) :=
  (h.drop start).take _

theorem NoReturn.unspaced (h : t.NoReturn) : t.unspaced.NoReturn :=
  h.of_subset (List.filter_subset_self _)

theorem NoReturn.trimStart (h : t.NoReturn) : t.trimStart.NoReturn :=
  h.of_subset (List.dropWhile_suffix _).subset

theorem NoReturn.trimEnd (h : t.NoReturn) : t.trimEnd.NoReturn := by
  refine h.of_subset fun c mem => ?_
  have inside := (List.dropWhile_suffix EnumExtract.isBlank).subset (List.mem_reverse.mp mem)
  exact List.mem_reverse.mp inside

theorem NoReturn.trim (h : t.NoReturn) : t.trim.NoReturn :=
  h.trimStart.trimEnd

theorem noReturn_flatten {parts : List Text} (h : ∀ part ∈ parts, NoReturn part) :
    NoReturn parts.flatten := by
  intro mem
  obtain ⟨part, memPart, inPart⟩ := List.mem_flatten.mp mem
  exact h part memPart inPart

theorem noReturn_join {separator : Text} {parts : List Text} (hs : separator.NoReturn)
    (h : ∀ part ∈ parts, NoReturn part) : NoReturn (join separator parts) := by
  unfold join
  induction parts with
  | nil => exact noReturn_nil
  | cons part parts ih =>
      obtain ⟨first, rest⟩ := List.forall_mem_cons.mp h
      cases parts with
      | nil =>
          rw [List.intercalate_singleton]
          exact first
      | cons next parts =>
          rw [List.intercalate_cons_cons]
          exact noReturn_append.mpr ⟨noReturn_append.mpr ⟨first, hs⟩, ih rest⟩

/-- The parts that a text is split into are made of its characters. -/
theorem subset_of_mem_splitOnP {p : Char → Bool} {part : Text} (mem : part ∈ t.splitOnP p) :
    part ⊆ t := by
  induction t generalizing part with
  | nil =>
      rw [List.splitOnP_nil, List.mem_singleton] at mem
      rw [mem]
      exact fun _ => id
  | cons c t ih =>
      rw [List.splitOnP_cons_eq_if_modifyHead] at mem
      split at mem
      · rcases List.mem_cons.mp mem with rfl | mem
        · exact List.nil_subset _
        · exact List.Subset.trans (ih mem) (List.subset_cons_self c t)
      · cases split : t.splitOnP p with
        | nil =>
            rw [split] at mem
            exact nomatch mem
        | cons first others =>
            rw [split] at ih mem
            rcases List.mem_cons.mp mem with rfl | mem
            · exact List.cons_subset_cons c (ih List.mem_cons_self)
            · exact List.Subset.trans (ih (List.mem_cons_of_mem _ mem)) (List.subset_cons_self c t)

theorem NoReturn.collapse (h : t.NoReturn) : t.collapse.NoReturn := by
  refine noReturn_join (by decide) fun word mem => ?_
  exact h.of_subset (subset_of_mem_splitOnP (List.mem_of_mem_filter mem))

/-- The lines of a text are made of its characters. -/
theorem NoReturn.lines (h : t.NoReturn) : ∀ line ∈ t.lines, line.NoReturn := by
  fun_induction Text.lines t with
  | case1 => exact nofun
  | case2 rest ih => simp at h
  | case3 c rest _ isBreak ih =>
      exact List.forall_mem_cons.mpr ⟨noReturn_nil, ih (noReturn_cons.mp h).2⟩
  | case4 c rest _ _ none ih =>
      rintro line mem
      rw [List.mem_singleton.mp mem]
      exact noReturn_cons.mpr ⟨(noReturn_cons.mp h).1, noReturn_nil⟩
  | case5 c rest _ _ line more found ih =>
      have inner := ih (noReturn_cons.mp h).2
      rw [found] at inner
      obtain ⟨first, others⟩ := List.forall_mem_cons.mp inner
      exact List.forall_mem_cons.mpr ⟨noReturn_cons.mpr ⟨(noReturn_cons.mp h).1, first⟩, others⟩

/-- Read with its line ends as line feeds, a text has no carriage return. -/
theorem normalizeLineEnds_noReturn (t : Text) : t.normalizeLineEnds.NoReturn := by
  fun_induction normalizeLineEnds t with
  | case1 => exact noReturn_nil
  | case2 rest ih => exact noReturn_cons.mpr ⟨by decide, ih⟩
  | case3 rest _ ih => exact noReturn_cons.mpr ⟨by decide, ih⟩
  | case4 c rest _ other ih => exact noReturn_cons.mpr ⟨fun same => other same, ih⟩

/-- A text without carriage returns is read as it is. -/
theorem normalizeLineEnds_eq (h : t.NoReturn) : t.normalizeLineEnds = t := by
  fun_induction normalizeLineEnds t with
  | case1 => rfl
  | case2 rest ih => simp at h
  | case3 rest _ ih => simp at h
  | case4 c rest _ _ ih => rw [ih (noReturn_cons.mp h).2]

end Text

open Text

/-! ## §2. What computations give. -/

/-- What the computation gives, if it gives anything, is `P`. -/
abbrev Gives {α : Type} (P : α → Prop) : Except Fault α → Prop :=
  Ends (fun _ => True) P

namespace Gives

variable {α : Type} {P : α → Prop} {x : Except Fault α}

theorem anything (x : Except Fault α) : Gives (fun _ => True) x := by
  cases x <;> trivial

theorem result (x : Except Fault α) : Gives (x = .ok ·) x := by
  cases x with
  | error => trivial
  | ok => exact rfl

theorem of_ok {a : α} (h : Gives P x) (ok : x = .ok a) : P a := by
  rw [ok] at h
  exact h

end Gives

namespace Cursor

/-- There is no carriage return ahead. -/
def NoReturn (c : Cursor) : Prop :=
  Text.NoReturn c.ahead

variable {c d : Cursor}

theorem noReturn_cursor {t : Text} (h : t.NoReturn) (i : Nat) : (t.cursor i).NoReturn :=
  h.drop i

theorem NoReturn.advance (h : c.NoReturn) (k : Nat) : (c.advance k).NoReturn :=
  Text.NoReturn.drop h k

theorem NoReturn.upTo (h : c.NoReturn) (stop : Nat) : Text.NoReturn (c.upTo stop) :=
  Text.NoReturn.take h _

/-- A walk whose steps keep an invariant, over a text without carriage returns. -/
theorem walk_gives {σ ρ : Type} {step : σ → Cursor → Except Fault (Step σ ρ)}
    {finish : σ → Cursor → Except Fault ρ} {I : σ → Prop} {P : ρ → Prop} {s : σ}
    (h : c.NoReturn) (start : I s)
    (move : ∀ s place, I s → place.NoReturn →
      Gives (fun decided => match decided with | .move s' _ => I s' | .stop r => P r) (step s place))
    (last : ∀ s place, I s → place.NoReturn → Gives P (finish s place)) :
    Gives P (walk step finish s c) :=
  walk_ends (fun _ _ _ _ clean => (noReturn_cons.mp clean).2) h start
    (fun s place hs clean _ => move s place hs clean) last

/-! ## §3. Names, pieces and attributes. -/

theorem skipTrivia_noReturn {keepDocs : Bool} (h : c.NoReturn) :
    Gives NoReturn (c.skipTrivia keepDocs) := by
  refine walk_gives (I := fun _ => True) h trivial (fun _ place _ clean => ?_) fun _ _ _ clean => clean
  refine (Gives.anything (place.trivium? keepDocs)).bind fun l _ => ?_
  cases l with
  | some length => trivial
  | none => exact clean

theorem closing_noReturn (h : c.NoReturn) : Gives NoReturn c.closing := by
  unfold closing
  split
  · trivial
  · split
    · trivial
    · refine walk_gives (I := fun _ => True) h trivial (fun awaited place _ clean => ?_) fun _ _ _ _ => trivial
      unfold bracketStep
      refine (Gives.anything place.lexeme?).bind fun l _ => ?_
      repeat' split
      all_goals trivial

theorem NoReturn.identifier {w : Text} {after : Cursor} (h : c.NoReturn)
    (found : c.identifier? = some (w, after)) : w.NoReturn ∧ after.NoReturn := by
  obtain ⟨name, eq, pair⟩ := Option.map_eq_some_iff.mp found
  obtain ⟨rfl, rfl⟩ := Prod.mk.inj pair
  refine ⟨?_, h.advance _⟩
  unfold Text.identifier? at eq
  split at eq
  · exact nomatch eq
  · exact Option.some.inj eq ▸ Text.NoReturn.take h _

theorem readIdentifier_noReturn (h : c.NoReturn) :
    Gives (fun found => found.1.NoReturn ∧ found.2.NoReturn) c.readIdentifier := by
  unfold readIdentifier
  split
  · next found => exact h.identifier found
  · trivial

theorem readVisibility_noReturn (h : c.NoReturn) :
    Gives (fun found => found.1.NoReturn ∧ found.2.NoReturn) c.readVisibility := by
  unfold readVisibility
  split
  · exact ⟨noReturn_nil, h⟩
  · next found =>
    split
    · exact ⟨noReturn_nil, h⟩
    · refine (skipTrivia_noReturn (h.identifier found).2).bind fun scope hscope => ?_
      split
      · refine ⟨noReturn_append.mpr ⟨?_, (Text.NoReturn.take hscope _).collapse⟩, hscope.advance _⟩
        decide
      · exact ⟨(by decide : Text.NoReturn "pub"), (h.identifier found).2⟩

end Cursor

/-- The texts of an attribute. -/
structure Attribute.NoReturn (a : Attribute) : Prop where
  text : a.text.NoReturn
  args : ∀ args ∈ a.args, args.text.NoReturn

namespace Cursor

variable {c d : Cursor}

theorem readDocComment_noReturn (h : c.NoReturn) : Gives Attribute.NoReturn c.readDocComment :=
  (Gives.anything c.lexeme?).bind fun _ _ => ⟨(Text.NoReturn.take h _).trimEnd, nofun⟩

theorem readAttribute_noReturn (h : c.NoReturn) : Gives Attribute.NoReturn c.readAttribute := by
  unfold readAttribute
  refine (closing_noReturn (h.advance 1)).bind fun close _ => ?_
  refine (skipTrivia_noReturn (h.advance 2)).bind fun head hhead => ?_
  dsimp only
  split
  · trivial
  refine (skipTrivia_noReturn (hhead.advance _)).bind fun next hnext => ?_
  split
  · refine (closing_noReturn hnext).bind fun argsClose _ => ⟨h.upTo _, ?_⟩
    rintro args ⟨⟩
    exact (hnext.advance 1).upTo _
  · exact ⟨h.upTo _, nofun⟩

theorem readPrelude_noReturn (h : c.NoReturn) :
    Gives (fun found => (∀ a ∈ found.1, a.NoReturn) ∧ found.2.NoReturn) c.readPrelude := by
  have reversed : ∀ {attrs : List Attribute}, (∀ a ∈ attrs, a.NoReturn) →
      ∀ a ∈ attrs.reverse, a.NoReturn := fun all a mem => all a (List.mem_reverse.mp mem)
  refine walk_gives (I := fun attrs => ∀ a ∈ attrs, a.NoReturn) h nofun
    (fun attrs place hattrs clean => ?_) fun _ _ hattrs clean => ⟨reversed hattrs, clean⟩
  unfold preludeStep
  refine (Gives.anything (place.trivium? true)).bind fun l _ => ?_
  cases l with
  | some length => exact hattrs
  | none =>
      dsimp only
      split
      · exact (readDocComment_noReturn clean).bind fun a ha => List.forall_mem_cons.mpr ⟨ha, hattrs⟩
      · split
        · exact (readAttribute_noReturn clean).bind fun a ha => List.forall_mem_cons.mpr ⟨ha, hattrs⟩
        · exact ⟨reversed hattrs, clean⟩

theorem allPieces_noReturn (h : c.NoReturn) (stop : Nat) :
    Gives (fun ps => ∀ p ∈ ps, p.start.NoReturn) (c.allPieces stop) := by
  have cut : ∀ s : Cutting, (∀ p ∈ s.found, p.start.NoReturn) ∧ s.start.NoReturn →
      ∀ p ∈ s.pieces stop, p.start.NoReturn := by
    rintro s ⟨found, start⟩ p mem
    rcases List.mem_cons.mp (List.mem_reverse.mp mem) with rfl | mem
    · exact start
    · exact found p mem
  refine walk_gives (I := fun s => (∀ p ∈ s.found, p.start.NoReturn) ∧ s.start.NoReturn) h ⟨nofun, h⟩
    (fun s place hs clean => ?_) fun s _ hs _ => cut s hs
  unfold allPieces.step
  split
  · exact cut s hs
  · refine (Gives.anything place.lexeme?).bind fun l _ => ?_
    obtain ⟨before, offset, ahead⟩ := place
    cases l with
    | some length => cases ahead <;> exact hs
    | none =>
        cases ahead with
        | nil => exact cut s hs
        | cons ch rest =>
            show (∀ p ∈ (s.read _ ch).found, p.start.NoReturn) ∧ (s.read _ ch).start.NoReturn
            unfold Cutting.read
            repeat' split
            all_goals first
              | exact hs
              | exact ⟨List.forall_mem_cons.mpr ⟨hs.2, hs.1⟩, clean.advance 1⟩

theorem pieces_noReturn (h : c.NoReturn) (stop : Nat) :
    Gives (fun ps => ∀ p ∈ ps, p.start.NoReturn) (c.pieces stop) :=
  (allPieces_noReturn h stop).bind fun _ clean =>
    .filterM clean fun p _ => Gives.anything p.isFilled

theorem withoutComments_noReturn {p : Piece} (h : p.start.NoReturn) :
    Gives Text.NoReturn p.withoutComments := by
  have joined : ∀ texts : List Text, (∀ t ∈ texts, t.NoReturn) → Text.NoReturn texts.reverse.flatten :=
    fun texts all => noReturn_flatten fun t mem => all t (List.mem_reverse.mp mem)
  refine walk_gives (I := fun texts => ∀ t ∈ texts, Text.NoReturn t) h nofun
    (fun texts place htexts clean => ?_) fun texts _ htexts _ => joined texts htexts
  unfold Piece.withoutComments.step
  split
  · exact joined texts htexts
  · refine (Gives.anything place.comment?).bind fun l _ => ?_
    cases l with
    | some length => exact List.forall_mem_cons.mpr ⟨by simp, htexts⟩
    | none =>
        refine (Gives.anything place.literal?).bind fun _ _ => ?_
        exact List.forall_mem_cons.mpr ⟨clean.upTo _, htexts⟩

end Cursor

/-! ## §4. Fields and shapes. -/

/-- The texts of a field. -/
structure Field.NoReturn (f : Field) : Prop where
  name : ∀ name ∈ f.name, name.NoReturn
  type : f.type.text.NoReturn
  attrs : ∀ attr ∈ f.attrs, Text.NoReturn attr

/-- The texts of the fields of a shape. -/
def Shape.NoReturn (shape : Shape) : Prop :=
  ∀ f ∈ shape.fields, f.NoReturn

namespace Field

theorem label?_noReturn {t : Text} (h : t.NoReturn) : ∀ label ∈ label? t, label.1.NoReturn := by
  intro label found
  obtain ⟨name, eq, found⟩ := Option.bind_eq_some_iff.mp found
  dsimp only at found
  split at found
  · obtain rfl := Option.some.inj found
    unfold Text.identifier? at eq
    split at eq
    · exact nomatch eq
    · exact Option.some.inj eq ▸ h.take _
  · exact nomatch found

theorem read_noReturn {named : Bool} {p : Piece} (h : p.start.NoReturn) :
    Gives Field.NoReturn (read named p) := by
  unfold read
  refine (Cursor.readPrelude_noReturn h).bind fun ⟨attrs, head⟩ ⟨hattrs, hhead⟩ => ?_
  refine (Cursor.readVisibility_noReturn hhead).bind fun ⟨_, behind⟩ ⟨_, hbehind⟩ => ?_
  refine (Cursor.skipTrivia_noReturn hbehind).bind fun place hplace => ?_
  dsimp only
  split
  · trivial
  · split
    · trivial
    · refine (Cursor.withoutComments_noReturn (hplace.advance _)).bind fun written hwritten => ?_
      split
      · trivial
      · refine ⟨?_, hwritten.trim.collapse, ?_⟩
        · intro name mem
          obtain ⟨label, found, rfl⟩ := Option.map_eq_some_iff.mp mem
          exact label?_noReturn (hplace.upTo _) label found
        · intro attr mem
          obtain ⟨a, memA, rfl⟩ := List.mem_map.mp mem
          exact (hattrs a memA).text

theorem readList_noReturn {opening : Cursor} (h : opening.NoReturn) (close : Nat) (named : Bool) :
    Gives (fun fields => ∀ f ∈ fields, f.NoReturn) (readList opening close named) :=
  (Cursor.pieces_noReturn (h.advance 1) close).bind fun _ clean =>
    .mapM fun p mem => read_noReturn (clean p mem)

end Field

theorem Shape.classify_noReturn {fields : List Field} (h : ∀ f ∈ fields, f.NoReturn) (index : Nat) :
    Gives Shape.NoReturn (classify fields index) := by
  unfold classify
  repeat' split
  · exact fun _ => nofun
  · exact h
  · exact h
  · trivial

/-! ## §5. Metadata and variants. -/

/-- The texts of an entry. -/
structure Metadata.NoReturn (m : Metadata) : Prop where
  text : m.text.NoReturn
  traits : ∀ trait ∈ m.traits, Text.NoReturn trait

namespace Metadata

theorem ofAttribute_noReturn {a : Attribute} (h : a.NoReturn) :
    Gives Metadata.NoReturn (ofAttribute a) := by
  unfold ofAttribute
  split
  · exact ⟨h.text, nofun⟩
  · split
    · next args eq =>
      split
      · have clean := Cursor.noReturn_cursor (h.args args eq) 0
        refine (Cursor.pieces_noReturn clean _).bind fun pieces hpieces => ?_
        refine (Ends.mapM (Q := Text.NoReturn) fun p mem => ?_).bind fun traits htraits => ⟨h.text, htraits⟩
        exact (Cursor.withoutComments_noReturn (hpieces p mem)).bind fun written hwritten => hwritten.unspaced
      · exact ⟨h.text, nofun⟩
    · exact ⟨h.text, nofun⟩

theorem derive_noReturn {traits : List Text} (h : ∀ trait ∈ traits, Text.NoReturn trait) :
    (derive traits).NoReturn := by
  have joined : Text.NoReturn (join ", " traits) := noReturn_join (by decide) h
  exact ⟨noReturn_append.mpr ⟨noReturn_append.mpr ⟨by decide, joined⟩, by decide⟩, h⟩

end Metadata

theorem Attribute.withoutTrait?_noReturn {source trait : Text} {a : Attribute} (h : a.NoReturn) :
    Gives (fun edit? => ∀ edit ∈ edit?, edit.replacement.NoReturn) (a.withoutTrait? source trait) := by
  unfold Attribute.withoutTrait?
  refine (Metadata.ofAttribute_noReturn h).bind fun entry hentry => ?_
  dsimp only
  split
  · exact nofun
  · split
    · exact nofun
    · split
      · rintro edit ⟨⟩
        unfold Text.removal
        dsimp only
        split <;> exact noReturn_nil
      · rintro edit ⟨⟩
        exact (Metadata.derive_noReturn fun t mem => hentry.traits t (List.mem_of_mem_filter mem)).text

/-- The texts of a variant. -/
structure Variant.NoReturn (v : Variant) : Prop where
  name : v.name.NoReturn
  shape : v.shape.NoReturn
  metadata : ∀ m ∈ v.metadata, m.NoReturn

namespace Variant

variable {source : Text}

theorem Directives.listedAttrs_noReturn {a : Attribute} (h : source.NoReturn) :
    Gives (fun entries => ∀ m ∈ entries, m.NoReturn) (listedAttrs source a) := by
  unfold listedAttrs
  split
  · trivial
  · next args _ =>
    refine (Cursor.readPrelude_noReturn (Cursor.noReturn_cursor h args.start)).bind
      fun ⟨inner, place⟩ ⟨hinner, _⟩ => ?_
    refine (Gives.anything place.skipTrivia).bind fun behind _ => ?_
    dsimp only
    split
    · trivial
    · exact .mapM fun a mem => Metadata.ofAttribute_noReturn (hinner a mem)

theorem Directives.add_noReturn {d : Directives} {a : Attribute} (h : source.NoReturn)
    (hd : ∀ m ∈ d.metadata, m.NoReturn) (ha : a.NoReturn) :
    Gives (fun d' => ∀ m ∈ d'.metadata, m.NoReturn) (add source d a) := by
  unfold add
  dsimp only
  split
  · exact hd
  · split
    · split
      · trivial
      · exact (listedAttrs_noReturn h).bind fun listed hlisted => List.forall_mem_append.mpr ⟨hd, hlisted⟩
    · split
      · exact (Metadata.ofAttribute_noReturn ha).bind fun entry hentry =>
          List.forall_mem_append.mpr ⟨hd, List.forall_mem_singleton.mpr hentry⟩
      · exact hd

theorem readFields_noReturn {place : Cursor} (h : place.NoReturn) (stop : Nat) :
    Gives (fun found => ∀ f ∈ found.1, f.NoReturn) (readFields place stop) := by
  unfold readFields
  split
  · refine (Gives.anything place.closing).bind fun close _ => ?_
    refine (Field.readList_noReturn h _ _).bind fun fields hfields => ?_
    exact (Gives.anything (close.advance 1).skipTrivia).bind fun _ _ => hfields
  · exact fun _ => nofun

theorem read_noReturn {p : Piece} (h : source.NoReturn) (hp : p.start.NoReturn) :
    Gives Variant.NoReturn (read source p) := by
  unfold read
  refine (Cursor.readPrelude_noReturn hp).bind fun ⟨attrs, head⟩ ⟨hattrs, hhead⟩ => ?_
  refine (Cursor.readIdentifier_noReturn hhead).bind fun ⟨name, behind⟩ ⟨hname, hbehind⟩ => ?_
  refine (Cursor.skipTrivia_noReturn hbehind).bind fun place hplace => ?_
  refine (readFields_noReturn hplace _).bind fun ⟨fields, rest⟩ hfields => ?_
  dsimp only
  split
  · trivial
  · refine (Ends.foldlM (Q := fun d : Directives => ∀ m ∈ d.metadata, m.NoReturn)
      (fun _ mem => absurd mem List.not_mem_nil) fun d hd a mem => Directives.add_noReturn h hd (hattrs a mem)).bind fun d hd => ?_
    exact (Shape.classify_noReturn hfields _).bind fun shape hshape => ⟨hname, hshape, hd⟩

theorem readBody_noReturn {opening : Cursor} (h : source.NoReturn) (ho : opening.NoReturn) (close : Nat) :
    Gives (fun vs => ∀ v ∈ vs, v.NoReturn) (readBody source opening close) := by
  refine (Cursor.pieces_noReturn (ho.advance 1) close).bind fun pieces hpieces => ?_
  refine .foldlM nofun fun known hknown p mem => ?_
  refine (read_noReturn h (hpieces p mem)).bind fun v hv => ?_
  split
  · trivial
  · exact List.forall_mem_append.mpr ⟨hknown, List.forall_mem_singleton.mpr hv⟩

end Variant

/-! ## §6. Items and declarations. -/

/-- The texts of an item. -/
structure Item.NoReturn (item : Item) : Prop where
  name : item.name.NoReturn
  visibility : item.visibility.NoReturn
  attrs : ∀ a ∈ item.attrs, a.NoReturn

theorem Cursor.readItem_noReturn {c : Cursor} (h : c.NoReturn) (module : List Text) :
    Gives (fun found => ∀ item ∈ found.1, item.NoReturn) (c.readItem module) := by
  unfold readItem
  refine (readPrelude_noReturn h).bind fun ⟨attrs, head⟩ ⟨hattrs, hhead⟩ => ?_
  refine (readVisibility_noReturn hhead).bind fun ⟨visibility, behind⟩ ⟨hvisibility, hbehind⟩ => ?_
  refine (skipTrivia_noReturn hbehind).bind fun place hplace => ?_
  dsimp only
  split
  · exact nofun
  · next kind afterKeyword found =>
    have clean : afterKeyword.NoReturn := by
      obtain ⟨⟨word, after⟩, keyword, eq⟩ := Option.bind_eq_some_iff.mp found
      obtain ⟨_, _, pair⟩ := Option.map_eq_some_iff.mp eq
      exact (Prod.mk.inj pair).2 ▸ (hplace.identifier keyword).2
    refine (skipTrivia_noReturn clean).bind fun name hname => ?_
    split
    · exact nofun
    · next named =>
      rintro item ⟨⟩
      exact ⟨(hname.identifier named).1, hvisibility, hattrs⟩

/-- **The items of a text without carriage returns.** -/
theorem Text.items_noReturn {t : Text} (h : t.NoReturn) :
    Gives (fun items => ∀ item ∈ items, item.NoReturn) t.items := by
  refine Cursor.walk_gives (I := fun s => ∀ item ∈ s.items, item.NoReturn) (Cursor.noReturn_cursor h 0) nofun
    (fun s place hs clean => ?_) fun s _ hs _ item mem => hs item (List.mem_reverse.mp mem)
  unfold Cursor.scanStep
  dsimp only
  split
  · refine (Gives.anything place.openModule?).bind fun found _ => ?_
    cases found <;> exact hs
  · split
    · refine (Cursor.readItem_noReturn clean _).bind fun ⟨item?, next⟩ hitem => ?_
      intro item mem
      rcases List.mem_append.mp mem with mem | mem
      · exact hitem item (Option.mem_toList.mp mem)
      · exact hs item mem
    · exact (Gives.anything place.lexeme?).bind fun _ _ => hs

/-- The texts of an enum. -/
structure EnumDecl.NoReturn (enum : EnumDecl) : Prop where
  name : enum.name.NoReturn
  visibility : enum.visibility.NoReturn
  variants : ∀ v ∈ enum.variants, v.NoReturn
  metadata : ∀ m ∈ enum.metadata, m.NoReturn
  deriveEdits : ∀ e ∈ enum.deriveEdits, e.replacement.NoReturn

/-- The texts of a struct. -/
structure StructDecl.NoReturn (struct : StructDecl) : Prop where
  name : struct.name.NoReturn
  visibility : struct.visibility.NoReturn
  shape : struct.shape.NoReturn
  metadata : ∀ m ∈ struct.metadata, m.NoReturn

variable {source : Text} {item : Item}

theorem EnumDecl.addAttribute_noReturn {kept : List Metadata × List Edit} {a : Attribute}
    (hkept : (∀ m ∈ kept.1, m.NoReturn) ∧ ∀ e ∈ kept.2, e.replacement.NoReturn) (ha : a.NoReturn) :
    Gives (fun kept' => (∀ m ∈ kept'.1, m.NoReturn) ∧ ∀ e ∈ kept'.2, e.replacement.NoReturn)
      (addAttribute source kept a) := by
  unfold addAttribute
  split
  · exact hkept
  · refine (Attribute.withoutTrait?_noReturn ha).bind fun edit? hedit => ?_
    cases edit? with
    | some edit =>
        exact ⟨hkept.1, List.forall_mem_append.mpr ⟨hkept.2, List.forall_mem_singleton.mpr (hedit edit rfl)⟩⟩
    | none =>
        exact (Metadata.ofAttribute_noReturn ha).bind fun entry hentry =>
          ⟨List.forall_mem_append.mpr ⟨hkept.1, List.forall_mem_singleton.mpr hentry⟩, hkept.2⟩

/-- **An enum of a text without carriage returns.** -/
theorem EnumDecl.read_noReturn (h : source.NoReturn) (hitem : item.NoReturn) :
    Gives EnumDecl.NoReturn (read source item) := by
  unfold read
  refine (Cursor.skipTrivia_noReturn (Cursor.noReturn_cursor h _)).bind fun body hbody => ?_
  dsimp only
  split
  · trivial
  split
  · trivial
  refine (Gives.anything body.closing).bind fun close _ => ?_
  refine (Variant.readBody_noReturn h hbody _).bind fun variants hvariants => ?_
  refine (Ends.foldlM (Q := fun kept : List Metadata × List Edit =>
      (∀ m ∈ kept.1, m.NoReturn) ∧ ∀ e ∈ kept.2, e.replacement.NoReturn)
    ⟨fun _ mem => absurd mem List.not_mem_nil, fun _ mem => absurd mem List.not_mem_nil⟩
    fun kept hkept a mem => addAttribute_noReturn hkept (hitem.attrs a mem)).bind fun kept hkept => ?_
  exact ⟨hitem.name, hitem.visibility, hvariants, hkept.1, hkept.2⟩

theorem StructDecl.readBody_noReturn {body : Cursor} (h : body.NoReturn) (name : Text) :
    Gives (fun found => ∀ f ∈ found.1, f.NoReturn) (readBody body name) := by
  unfold readBody
  split
  · exact fun _ => nofun
  · split
    · refine (Gives.anything body.closing).bind fun close _ => ?_
      refine (Field.readList_noReturn h _ _).bind fun fields hfields => ?_
      refine (Gives.anything (close.advance 1).skipTrivia).bind fun semicolon _ => ?_
      dsimp only
      split
      · trivial
      · exact hfields
    · split
      · refine (Gives.anything body.closing).bind fun close _ => ?_
        exact (Field.readList_noReturn h _ _).bind fun fields hfields => hfields
      · trivial

/-- **A struct of a text without carriage returns.** -/
theorem StructDecl.read_noReturn (h : source.NoReturn) (hitem : item.NoReturn) :
    Gives StructDecl.NoReturn (read source item) := by
  unfold read
  refine (Cursor.skipTrivia_noReturn (Cursor.noReturn_cursor h _)).bind fun body hbody => ?_
  dsimp only
  split
  · trivial
  refine (readBody_noReturn hbody _).bind fun ⟨fields, stop⟩ hfields => ?_
  refine (Shape.classify_noReturn hfields _).bind fun shape hshape => ?_
  refine (Ends.mapM (Q := Metadata.NoReturn) fun a mem => ?_).bind fun metadata hmetadata => ?_
  · exact Metadata.ofAttribute_noReturn (hitem.attrs a (List.mem_of_mem_filter mem))
  · exact ⟨hitem.name, hitem.visibility, hshape, hmetadata⟩

end EnumExtract
