/-
  EnumExtract.Proofs.PassThrough
  ────────────────────────────────
  Sources that ask for nothing.

  A source in which neither the marker nor the directive of a binding is
  written comes out of the transformation as it went in, wherever attributes,
  keywords and modules stand in it: in the body of a function, in the pattern
  of a macro, between brackets of any kind.  Three things are asked of it
  besides, and none of them can be left out:

      paths      behind each `#[` a name starts,
      names      no raw string opens in the name of a declaration,
      derives    no derive names the marker with blanks or comments inside it.

  The first one is not a matter of what a source may hold: in the patterns of
  a macro an attribute has a path that begins with a dollar sign, and the
  source is refused for it.

  Main results:
    • `Outermost.idle`           no attribute that the scan reads asks for anything,
    • `transform_unannotated`    the source is passed through,
    • `unannotated_not_passed`   without any one of the three it need not be.
-/
import EnumExtract.Proofs.InPlace
import EnumExtract.Proofs.Ownership
import EnumExtract.Proofs.Totality

namespace EnumExtract

open Cursor

variable {t : Text} {p : Cursor} {a : Attribute} {item : Item}

/-! ## §1. Paths of one name. -/

/-- A path that goes on behind its first name has a colon in it. -/
theorem colon_mem_of_segmentLength? {n : Nat} (h : Text.segmentLength? t = some n) : ':' ∈ t.take n := by
  unfold Text.segmentLength? at h
  simp only at h
  split at h
  next colons =>
    split at h
    next => cases h
    next =>
      cases h
      obtain ⟨after, eq⟩ := List.isPrefixOf_iff_prefix.mp colons
      have here : t[Text.blanks t]? = some ':' := by
        rw [← List.head?_drop, ← eq]
        rfl
      refine List.mem_of_getElem? (i := Text.blanks t) ?_
      rw [List.getElem?_take_of_lt (by omega), here]
  next => cases h

theorem colon_mem_of_runLength (more : runLength Text.segmentLength? t ≠ 0) :
    ':' ∈ t.take (runLength Text.segmentLength? t) := by
  unfold runLength at more ⊢
  cases segment : Text.segmentLength? t with
  | none =>
      exfalso
      refine more ?_
      cases t with
      | nil => rfl
      | cons ch rest => simp [runLength.go, segment]
  | some n =>
      have colon := colon_mem_of_segmentLength? segment
      have length : (t.take n).length = n := by
        have := (segmentLength?_spec segment).1
        rw [List.length_take]
        omega
      have front : Text.segmentLength? (t.take n ++ t.drop n) = some (t.take n).length := by
        rw [List.take_append_drop, length, segment]
      have whole := runLength_go_piece (List.ne_nil_of_mem colon) front
      rw [List.take_append_drop, length] at whole
      rw [whole]
      refine List.mem_of_mem_take (i := n) ?_
      rwa [List.take_take, Nat.min_eq_left (Nat.le_add_right _ _)]

/-- A path without a colon is a name, and stands in the text as it is read. -/
theorem path_isPrefix (noColon : ':' ∉ Text.unspaced (t.take (Text.pathLength t))) :
    Text.unspaced (t.take (Text.pathLength t)) <+: t := by
  unfold Text.pathLength at noColon ⊢
  by_cases named : Text.nameLength t = 0
  · rw [if_pos named]
    exact List.nil_prefix
  · rw [if_neg named] at noColon ⊢
    by_cases run : runLength Text.segmentLength? (t.drop (Text.nameLength t)) = 0
    · rcases Text.nameLength_cases t with ⟨none, _⟩ | ⟨w, rest, rfl, isName, length, _⟩
      · exact absurd none named
      · rw [run, Nat.add_zero, ← length, List.take_left, Text.unspaced, List.filter_eq_self.mpr]
        · exact List.prefix_append w rest
        · intro ch mem
          rw [not_isBlank_of_isWord (isName.isWord ch mem)]
          rfl
    · refine absurd (List.mem_filter.mpr ⟨?_, rfl⟩) noColon
      rw [List.take_add]
      exact List.mem_append_right _ (colon_mem_of_runLength run)

/-- The path of an attribute stands in the source, if it is one name. -/
theorem path_isInfix (onward : (t.cursor 0).LeadsTo p) (sees : p.sees "#[" = true)
    (read : p.readAttribute = .ok a) (noColon : ':' ∉ a.path) : a.path <:+: t := by
  obtain ⟨close, head, next, parts⟩ := readAttribute_ok_iff.mp read
  obtain ⟨rest, eq⟩ := sees_iff.mp sees
  have two : p.LeadsTo (p.advance 2) := leadsTo_advance (by
    rw [eq]
    exact Nat.le_add_left _ _)
  have toHead := (onward.trans two).trans parts.toPath.leadsTo
  have path : a.path = Text.unspaced ((head.upTo close.offset).take (Text.pathLength (head.upTo close.offset))) := by
    have bound := (pathLength_spec (head.upTo close.offset)).1
    rw [parts.path, Cursor.upTo, List.take_take]
    rw [Cursor.upTo, List.length_take] at bound
    rw [Nat.min_eq_left (by omega)]
  rw [path] at noColon ⊢
  have inHead : head.upTo close.offset <+: head.ahead := List.take_prefix _ _
  have inText : head.ahead <:+ t := by
    rw [toHead.eq_advance]
    exact List.drop_suffix _ _
  exact ((path_isPrefix noColon).trans inHead).isInfix.trans inText.isInfix

/-! ## §2. What the scan makes of attributes. -/

/-- The attribute asks for nothing: it is no directive, and no derive that names the marker. -/
structure Attribute.Idle (a : Attribute) : Prop where
  noMarker : a.path ≠ EnumDecl.marker
  noDirective : a.path ≠ StructDecl.directive
  derives : a.derives EnumDecl.marker = false
  metadata : ∃ entry, Metadata.ofAttribute a = .ok entry

/-- Nothing is taken out of an idle attribute. -/
theorem Attribute.Idle.withoutTrait? (h : a.Idle) (source : Text) :
    a.withoutTrait? source EnumDecl.marker = .ok none := by
  obtain ⟨edit?, hedit⟩ := Attribute.exists_withoutTrait? source EnumDecl.marker h.metadata
  rcases Attribute.withoutTrait?_ok hedit with ⟨_, rfl⟩ | ⟨named, _⟩
  · exact hedit
  · rw [h.derives] at named
    cases named

theorem anyM_eq_false {ε α : Type} {f : α → Except ε Bool} {xs : List α}
    (h : ∀ x ∈ xs, f x = .ok false) : xs.anyM f = .ok false := by
  induction xs with
  | nil => rfl
  | cons x xs ih =>
      obtain ⟨first, rest⟩ := List.forall_mem_cons.mp h
      rw [List.anyM_cons, first]
      exact ih rest

/-- A declaration that is neither marked nor bound calls for no change. -/
theorem Change.ofItem?_eq_none {source : Text} {own schema : List EnumSource}
    (notMarked : EnumDecl.isMarked source item = .ok false)
    (unbound : ∀ a ∈ item.attrs, a.path ≠ StructDecl.directive) :
    Change.ofItem? source own schema item = .ok none := by
  have notBound : BindingTarget.ofAttributes? item.attrs = .ok none := by
    have none : Attribute.named StructDecl.directive item.attrs = [] := by
      refine List.filter_eq_nil_iff.mpr fun a mem => ?_
      rw [decide_eq_true_iff]
      exact unbound a mem
    rw [BindingTarget.ofAttributes?, none]
  rw [Change.ofItem?, notMarked]
  show (if item.kind ≠ .struct then (pure none : Except Fault (Option Change)) else _) = .ok none
  split
  next => rfl
  next =>
    rw [notBound]
    rfl

/-- **A declaration with idle attributes calls for no change.** -/
theorem Change.ofItem?_idle (source : Text) (own schema : List EnumSource)
    (idle : ∀ a ∈ item.attrs, a.Idle) : Change.ofItem? source own schema item = .ok none := by
  have notMarked : EnumDecl.isMarked source item = .ok false := by
    unfold EnumDecl.isMarked
    split
    next =>
      refine anyM_eq_false fun a mem => ?_
      rw [if_neg (idle a mem).noMarker]
      show (a.withoutTrait? source EnumDecl.marker >>= fun edit => pure edit.isSome) = .ok false
      rw [(idle a mem).withoutTrait? source]
      rfl
    next => rfl
  exact Change.ofItem?_eq_none notMarked fun a mem => (idle a mem).noDirective

/-! ## §3. The whole source. -/

/-- Comments and literals of the text end, its brackets nest, and neither the marker nor the
directive of a binding is written in it.

The literals are those that `lexeme?` reads.  A character whose escape has an underscore, as
`'\u{5_B}'`, is none of them (its ticks are read alone, or as the ticks of a character that stands
between two of them), and a raw C string, as `cr"\"`, is read as a string with escapes behind a name:
a text that holds one of these need not be unannotated in this sense. -/
structure Text.Unannotated (t : Text) : Prop where
  whole : (t.cursor 0).Whole
  noMarker : ¬ EnumDecl.marker <:+: t
  noDirective : ¬ StructDecl.directive <:+: t

/-- No raw string opens in the name of a declaration, wherever the head of one stands. -/
def Cursor.NamesPlain (o : Cursor) : Prop :=
  ∀ c, Exposed o c → c.mayStartItem = true → ∀ item, c.PlainlyNamed item

/-- Where names are plain a step of the scan goes on outside every attribute. -/
theorem Cursor.NamesPlain.step {o c : Cursor} {s s' : Scan} {n : Nat} (names : o.NamesPlain)
    (exposed : Exposed o c) (more : c.ahead ≠ []) (h : scanStep s c = .ok (.move s' n)) :
    Exposed o (c.advance n) :=
  (scanStep_spec h).exposed more exposed fun starts item _ => names c exposed starts item

/-- No derive names the marker. -/
def Cursor.DerivesPlain (o : Cursor) : Prop :=
  ∀ p a, Exposed o p → p.sees "#[" = true → p.readAttribute = .ok a → a.derives EnumDecl.marker = false

/-- **No attribute that the scan reads asks for anything.** -/
theorem Cursor.Outermost.idle (h : t.Unannotated) (derives : (t.cursor 0).DerivesPlain)
    (outermost : Outermost (t.cursor 0) a) : a.Idle := by
  rcases outermost with ⟨p, doc⟩ | ⟨p, exposed, sees, read⟩
  · obtain ⟨n, _, rfl⟩ := doc.exists_lexeme
    have noMarker : ("doc" : Text) ≠ EnumDecl.marker := by decide
    have noDirective : ("doc" : Text) ≠ StructDecl.directive := by decide
    exact ⟨noMarker, noDirective, rfl, _, rfl⟩
  · obtain ⟨m, level⟩ := exposed.place
    have written (noColon : ':' ∉ a.path) : a.path <:+: t :=
      path_isInfix level.leadsTo sees read noColon
    refine ⟨fun same => ?_, fun same => ?_, derives p a exposed sees read, Metadata.exists_ofAttribute read⟩
    · rw [same] at written
      exact h.noMarker (written (by decide))
    · rw [same] at written
      exact h.noDirective (written (by decide))

/-- **A source that asks for nothing is passed through.** -/
theorem transform_unannotated (h : t.Unannotated) (paths : (t.cursor 0).PathsStart)
    (names : (t.cursor 0).NamesPlain) (derives : (t.cursor 0).DerivesPlain)
    (schema : List EnumSource) (label : Text) : transform t schema label = .ok ⟨t, []⟩ := by
  obtain ⟨items, hitems, outermost⟩ := h.whole.exists_items paths names
  have nothing : plan t schema label = .ok [] := by
    unfold plan
    refine bind_ok_iff.mpr ⟨items, hitems, filterMapM_ok_iff.mpr ⟨items.map fun _ => none, ?_, ?_⟩⟩
    · rw [List.forall₂_map_right_iff, List.forall₂_same]
      intro item mem
      exact Change.ofItem?_idle t _ schema fun a ha => (outermost item mem a ha).idle h derives
    · rw [List.filterMap_map]
      exact (List.filterMap_eq_nil_iff.mpr fun _ _ => rfl).symm
  unfold transform
  exact bind_ok_iff.mpr ⟨[], nothing, rfl⟩

/-! ## §4. A source that is passed through, and three that are not. -/

/-- A text is read to its end, if no lexeme starts in its first part and one ends with it. -/
theorem Cursor.Whole.of_parts {u v : Text}
    (plain : ∀ k < u.length, ((Text.cursor (u ++ v) 0).advance k).lexeme? = .ok none)
    (last : v = [] ∨ ((Text.cursor (u ++ v) 0).advance u.length).lexeme? = .ok (some v.length))
    (nests : nest [] u = some []) : (Text.cursor (u ++ v) 0).Whole := by
  have start : (Text.cursor (u ++ v) 0).ahead = u ++ v := rfl
  obtain ⟨code, reads, hchars⟩ := reads_plain start plain
  have behind : ((Text.cursor (u ++ v) 0).advance u.length).ahead = v := List.drop_left
  rw [← hchars] at nests
  rcases last with rfl | lexeme
  · exact ⟨code, _, reads, behind, nests⟩
  · refine ⟨code ++ [], _, reads.trans (.lexeme lexeme (.here _)), ?_, by rw [List.append_nil, nests]⟩
    rw [advance_ahead, behind, List.drop_length]

/-- In a text without a quotation mark no raw string opens. -/
theorem Cursor.plainWord_of_noQuote {c : Cursor} (w : Text) (noQuote : '"' ∉ c.ahead) : c.PlainWord w := by
  intro k _
  cases h : (c.advance k).rawOpener? with
  | none => rfl
  | some opener =>
      obtain ⟨letters, _, v, eq, _⟩ := exists_of_rawOpener? (Cursor.rawOpener?_some h).2
      refine absurd (List.mem_of_mem_drop (i := k) ?_) noQuote
      rw [← advance_ahead, eq]
      exact List.mem_append_right _ List.mem_cons_self

/-- In a text without a quotation mark all names are plain. -/
theorem Cursor.namesPlain_of_noQuote (noQuote : '"' ∉ t) : (t.cursor 0).NamesPlain := by
  intro c exposed _ item head place behind name after here
  obtain ⟨m, level⟩ := exposed.place
  obtain ⟨_, found⟩ := here.head
  have toName := ((level.leadsTo.trans found.leadsTo).trans (leadsTo_identifier here.keyword).1).trans
    here.toName.leadsTo
  refine plainWord_of_noQuote _ fun quote => noQuote ?_
  rw [toName.eq_advance] at quote
  exact List.mem_of_mem_drop quote

/-- An enum in a module, with a derive, and an attribute without a path in a comment. -/
def plainModule : Text :=
  "mod m \x7b #[derive(Debug)] enum Plain \x7b A \x7d \x7d " ++ "// #[1]"

theorem plainModule_unannotated : plainModule.Unannotated :=
  ⟨.of_parts (by decide +kernel) (.inr (by decide +kernel)) (by decide +kernel), by decide +kernel,
    by decide +kernel⟩

/-- The one attribute of the module outside of comments. -/
theorem plainModule_sees {p : Cursor} (exposed : Exposed (plainModule.cursor 0) p)
    (sees : p.sees "#[" = true) : p = plainModule.cursor 8 := by
  obtain ⟨m, level⟩ := exposed.place
  have at' := cursor_of_leadsTo level.leadsTo
  have bound : p.offset < 52 := by
    have := level.leadsTo.end_eq
    have length : (plainModule.cursor 0).ahead.length = 51 := by decide
    rw [length] at this
    show p.offset < 52
    have zero : (plainModule.cursor 0).offset = 0 := rfl
    omega
  have places : ∀ i < 52, (plainModule.cursor i).sees "#[" = true → i = 8 ∨ i = 47 := by
    decide +kernel
  rw [at'] at sees ⊢
  rcases places p.offset bound sees with here | inComment
  · rw [here]
  · -- the other one is inside the comment that begins at offset 44
    exfalso
    obtain ⟨code, reads, _⟩ := reads_plain (c := plainModule.cursor 0) (u := plainModule.take 44)
      (List.take_append_drop _ _).symm (by decide +kernel)
    have comment : (plainModule.cursor 44).trivium? false = .ok (some 7) := by decide +kernel
    have past := Level.trivium_le ⟨code, reads, rfl⟩ level (by rw [inComment]; decide) comment
    rw [inComment] at past
    exact absurd past (by decide)

theorem plainModule_passed :
    plainModule.Unannotated ∧ transform plainModule [] "" = .ok ⟨plainModule, []⟩ := by
  refine ⟨plainModule_unannotated, transform_unannotated plainModule_unannotated ?_ ?_ ?_ [] ""⟩
  · intro p head exposed sees toPath
    obtain rfl := plainModule_sees exposed sees
    obtain ⟨head', skip, first⟩ : ∃ head', ((plainModule.cursor 8).advance 2).skipTrivia = .ok head'
        ∧ head'.ahead.head?.any isNameStart = true := exists_ok_of_decide (by decide +kernel)
    obtain rfl := toPath.unique (skipTrivia_ok_iff.mp skip)
    exact (Option.any_eq_true _ _).mp first
  · exact Cursor.namesPlain_of_noQuote (by decide +kernel)
  · intro p a exposed sees read
    obtain rfl := plainModule_sees exposed sees
    obtain ⟨a', read', plain⟩ : ∃ a', (plainModule.cursor 8).readAttribute = .ok a'
        ∧ a'.derives EnumDecl.marker = false := exists_ok_of_decide (by decide +kernel)
    rw [read] at read'
    cases read'
    exact plain

/-- A derive that names the marker with a blank inside it. -/
def brokenMarker : Text :=
  "#[derive(extract_ variant)] enum E \x7b A \x7d"

/-- A macro whose pattern takes an attribute. -/
def metaPattern : Text := "macro_rules! m \x7b (#[$a:meta]) => \x7b\x7d \x7d"

/-- **Each of the three conditions is needed.**  A source that holds the pattern of an attribute is
refused at the dollar sign; the name `r` is cut off a raw string, so that its quotation mark opens a
string that does not end; a blank inside the marker does not keep the enum from being marked. -/
theorem unannotated_not_passed :
    (metaPattern.Unannotated ∧ transform metaPattern [] "" = .error ⟨.expectedAttributePath, 20, none⟩)
      ∧ (Text.Unannotated "struct r\"\\\""
        ∧ transform "struct r\"\\\"" [] "" = .error ⟨.unterminatedString, 8, none⟩)
      ∧ (brokenMarker.Unannotated ∧ ∃ rendered, transform brokenMarker [] "" = .ok rendered
        ∧ rendered.text ≠ brokenMarker ∧ rendered.blocks.length = 1) := by
  refine ⟨⟨⟨?_, by decide +kernel, by decide +kernel⟩, by decide +kernel⟩,
    ⟨⟨?_, by decide +kernel, by decide +kernel⟩, by decide +kernel⟩,
    ⟨⟨?_, by decide +kernel, by decide +kernel⟩, exists_ok_of_decide (by decide +kernel)⟩⟩
  · exact .of_parts (u := metaPattern) (v := []) (by decide +kernel) (.inl rfl) (by decide +kernel)
  · exact .of_parts (u := "struct ") (v := "r\"\\\"") (by decide +kernel) (.inr (by decide +kernel))
      (by decide +kernel)
  · exact .of_parts (u := brokenMarker) (v := []) (by decide +kernel) (.inl rfl) (by decide +kernel)

end EnumExtract
