/-
  EnumExtract.Proofs.EndMarkers
  ────────────────────────────────
  What a block does to the line that it is put on.

  A block ends in a line comment with no line feed behind it.  Whatever stands
  behind the declaration on its line comes to stand in that comment, be it a
  comment, the next declaration or the brace that closes a module; from the
  next line on the source is read as before.

  Main results:
    • `isCode_iff`             where the code of a text stands,
    • `transform_endMarker`    the rest of the line is in the comment,
    • `oneLineModule_unclosed` a brace that is lost in this way.
-/
import EnumExtract.Proofs.Transformation

namespace EnumExtract

open Cursor

/-! ## §1. Code of a text. -/

/-- Reading the text comes to a character at the offset `i` that belongs to no comment or
literal. -/
def Text.IsCode (t : Text) (i : Nat) : Prop :=
  ∃ code d, Reads (t.cursor 0) code d ∧ ∃ x ∈ code, x.1.offset = i

namespace Text

/-- One step of reading a text: lexemes are passed over, other characters are noted. -/
def codeStep (offsets : List Nat) (place : Cursor) : Except Fault (Step (List Nat) (List Nat)) := do
  match ← place.lexeme? with
  | some length => return .move offsets length
  | none => return .move (place.offset :: offsets) 1

/-- The offsets of the code of a text, in order. -/
def codeOffsets (t : Text) : Except Fault (List Nat) :=
  walk codeStep (fun offsets _ => .ok offsets.reverse) [] (t.cursor 0)

theorem codeStep_ok_iff {offsets : List Nat} {c : Cursor} {s : Step (List Nat) (List Nat)} :
    codeStep offsets c = .ok s ↔
      (∃ n, c.lexeme? = .ok (some n) ∧ s = .move offsets n)
        ∨ (c.lexeme? = .ok none ∧ s = .move (c.offset :: offsets) 1) := by
  unfold codeStep
  rw [bind_ok_iff]
  constructor
  · rintro ⟨l, hl, eq⟩
    cases l with
    | some n => exact .inl ⟨n, hl, (Except.ok.inj eq).symm⟩
    | none => exact .inr ⟨hl, (Except.ok.inj eq).symm⟩
  · rintro (⟨n, hl, rfl⟩ | ⟨hl, rfl⟩)
    · exact ⟨some n, hl, rfl⟩
    · exact ⟨none, hl, rfl⟩

theorem codeStep_steady : Steady codeStep := by
  intro s c s' n more h
  rcases codeStep_ok_iff.mp h with ⟨k, hk, eq⟩ | ⟨_, eq⟩ <;> cases eq
  · exact lexeme?_bounds hk
  · exact ⟨Nat.one_pos, List.length_pos_of_ne_nil more⟩

theorem reads_of_codeWalk {acc offsets : List Nat} {c : Cursor}
    (h : Walks codeStep (fun offsets _ => .ok offsets.reverse) acc c offsets) :
    ∃ code d, Reads c code d ∧ d.ahead = [] ∧ offsets = acc.reverse ++ code.map (·.1.offset) := by
  induction h with
  | finish atEnd h =>
      cases h
      exact ⟨[], _, .here _, atEnd, by simp⟩
  | stop more h => rcases codeStep_ok_iff.mp h with ⟨_, _, eq⟩ | ⟨_, eq⟩ <;> cases eq
  | @move s s' c n r h _ fits _ ih =>
      obtain ⟨code, d, reads, last, eq⟩ := ih
      rcases codeStep_ok_iff.mp h with ⟨k, hk, step⟩ | ⟨hk, step⟩ <;> cases step
      · exact ⟨code, d, .lexeme hk reads, last, eq⟩
      · obtain ⟨ch, rest, ahead⟩ := List.exists_cons_of_length_pos fits
        refine ⟨(c, ch) :: code, d, .char hk (by rw [ahead]; rfl) reads, last, ?_⟩
        rw [eq, List.reverse_cons, List.append_assoc]
        rfl

/-- **Where the code of a text stands.** -/
theorem isCode_iff {t : Text} {offsets : List Nat} (h : t.codeOffsets = .ok offsets) (i : Nat) :
    t.IsCode i ↔ i ∈ offsets := by
  obtain ⟨code, d, reads, last, rfl⟩ := reads_of_codeWalk ((walk_ok_iff codeStep_steady).mp h)
  rw [List.reverse_nil, List.nil_append, List.mem_map]
  refine ⟨?_, fun ⟨x, mem, eq⟩ => ⟨code, d, reads, x, mem, eq⟩⟩
  rintro ⟨code', d', reads', x, mem, eq⟩
  have le : d'.offset ≤ d.offset := by
    have ends := reads.leadsTo.end_eq.trans reads'.leadsTo.end_eq.symm
    rw [last, List.length_nil] at ends
    omega
  obtain ⟨rest, rfl, _⟩ := reads'.split reads le
  exact ⟨x, List.mem_append_left _ mem, eq⟩

end Text

/-! ## §2. The comment of an end marker. -/

/-- The last line of a block. -/
def Block.endMarker (block : Block) : Text :=
  "// </" ++ generatorName ++ ": " ++ block.target ++ ">"

theorem exists_join_concat (separator : Text) (parts : List Text) (w : Text) :
    ∃ before, Text.join separator (parts ++ [w]) = before ++ w := by
  induction parts with
  | nil => exact ⟨[], List.intercalate_singleton⟩
  | cons part parts ih =>
      obtain ⟨before, eq⟩ := ih
      have more : parts ++ [w] ≠ [] := List.append_ne_nil_of_right_ne_nil _ (List.cons_ne_nil _ _)
      refine ⟨part ++ separator ++ before, ?_⟩
      rw [List.append_assoc, ← eq]
      exact List.intercalate_cons_of_ne_nil more

theorem Block.insertion_ends (block : Block) (indent : Text) :
    ∃ before, block.insertion indent = before ++ block.endMarker := by
  have marked : ∃ lines, block.lines = lines ++ [block.endMarker] := ⟨_, rfl⟩
  obtain ⟨lines, eq⟩ := marked
  have more : block.endMarker.isEmpty = false := rfl
  obtain ⟨before, joined⟩ := exists_join_concat "\n"
    (lines.map fun line => if line.isEmpty then [] else indent ++ line) (indent ++ block.endMarker)
  refine ⟨"\n\n" ++ before ++ indent, ?_⟩
  rw [Block.insertion, eq, List.map_append, List.map_singleton, more, if_neg Bool.false_ne_true, joined]
  simp only [List.append_assoc]

/-- A line comment takes the rest of its line in. -/
theorem comment?_of_line {before line after : Text} (h : '\n' ∉ line) (slashes : "//".toList <+: line) :
    ∃ n, ((before ++ line ++ after).cursor before.length).comment? = .ok (some n) ∧ line.length ≤ n := by
  obtain ⟨rest, rfl⟩ := slashes
  have ahead : ((before ++ ("//" ++ rest) ++ after).cursor before.length).ahead = "//" ++ rest ++ after := by
    rw [Text.cursor, List.append_assoc, List.drop_left]
  refine ⟨_, ?_, length_le_lineLength h after⟩
  rw [comment?, ahead]
  rfl

/-- Where a reading comes to a lexeme, it has no code inside. -/
theorem not_isCode_of_lexeme {t : Text} {k n i : Nat} {code : List (Cursor × Char)}
    (reads : Reads (t.cursor 0) code (t.cursor k)) (h : (t.cursor k).lexeme? = .ok (some n))
    (le : k ≤ i) (lt : i < k + n) : ¬ t.IsCode i := by
  rintro ⟨code', d, reads', x, mem, rfl⟩
  have passed : Reads (t.cursor 0) code ((t.cursor k).advance n) := by
    have beyond := reads.trans (.lexeme h (.here _))
    rwa [List.append_nil] at beyond
  have before : ∀ y ∈ code, y.1.offset < k := fun y mem => (reads.offset_lt_of_mem mem).2
  rcases Nat.le_total d.offset ((t.cursor k).advance n).offset with short | long
  · obtain ⟨rest, rfl, _⟩ := reads'.split passed short
    exact absurd (before x (List.mem_append_left _ mem)) (Nat.not_lt.mpr le)
  · obtain ⟨rest, rfl, more⟩ := passed.split reads' long
    rcases List.mem_append.mp mem with mem | mem
    · exact absurd (before x mem) (Nat.not_lt.mpr le)
    · exact absurd (more.offset_lt_of_mem mem).1 (Nat.not_le.mpr lt)

/-! ## §3. Text behind a declaration. -/

namespace Text

/-- What is rewritten up to a place comes before what is rewritten from it on. -/
theorem exists_rewritten_append (edits : List Edit) (u v : Text) : ∀ i : Nat,
    ∃ before, rewritten edits i (u ++ v) = before ++ rewritten edits (i + u.length) v := by
  induction u with
  | nil => exact fun i => ⟨[], rfl⟩
  | cons c u ih =>
      intro i
      obtain ⟨before, eq⟩ := ih (i + 1)
      refine ⟨Edit.writtenAt edits i ++ (if Edit.covered edits i then [] else [c]) ++ before, ?_⟩
      rw [List.cons_append, rewritten, eq, List.length_cons, Nat.add_assoc, Nat.add_comm 1,
        List.append_assoc _ before]

end Text

/-- The edits besides an insertion at `i` leave the text from `i` up to `j` alone. -/
def Edit.Leave (edits : List Edit) (block : Text) (i j : Nat) : Prop :=
  ∀ e ∈ edits, e = ⟨i, i, block⟩ ∨ (e.start < i ∧ e.stop ≤ i) ∨ j ≤ e.start

instance (edits : List Edit) (block : Text) (i j : Nat) : Decidable (Edit.Leave edits block i j) :=
  inferInstanceAs (Decidable (∀ e ∈ edits, _))

namespace Edit.Leave

variable {t block : Text} {edits : List Edit} {i j k : Nat}

theorem eq_of_start {e : Edit} (h : Leave edits block i j) (lt : i < j) (mem : e ∈ edits)
    (start : e.start = i) : e = ⟨i, i, block⟩ := by
  rcases h e mem with eq | ⟨before, _⟩ | behind
  · exact eq
  · omega
  · omega

/-- The insertion is what is written there last. -/
theorem exists_writtenAt (h : Leave edits block i j) (lt : i < j) (mem : ⟨i, i, block⟩ ∈ edits) :
    ∃ before, writtenAt edits i = before ++ block := by
  have none : edits.filter (fun e => e.start = i && !e.isInsertion) = [] := by
    rw [List.filter_eq_nil_iff]
    intro e mem
    rw [Bool.and_eq_true, decide_eq_true_eq]
    rintro ⟨start, replaces⟩
    rw [h.eq_of_start lt mem start] at replaces
    simp [isInsertion] at replaces
  have all : ∀ e ∈ edits.filter (fun e => e.start = i && e.isInsertion), e = ⟨i, i, block⟩ := by
    intro e mem
    obtain ⟨mem, here⟩ := List.mem_filter.mp mem
    rw [Bool.and_eq_true, decide_eq_true_eq] at here
    exact h.eq_of_start lt mem here.1
  have some : ⟨i, i, block⟩ ∈ edits.filter (fun e => e.start = i && e.isInsertion) :=
    List.mem_filter.mpr ⟨mem, by simp [isInsertion]⟩
  rw [writtenAt, none, List.eq_replicate_of_mem all]
  obtain ⟨n, count⟩ := Nat.exists_eq_add_one.mpr (List.length_pos_of_mem some)
  rw [count, List.replicate_succ', List.flatMap_append]
  exact ⟨_, by rw [List.flatMap_nil, List.append_nil, List.flatMap_singleton]⟩

theorem writtenAt_eq_nil (h : Leave edits block i j) (le : i < k) (lt : k < j) : writtenAt edits k = [] := by
  refine Edit.writtenAt_eq_nil fun e mem => ?_
  rcases h e mem with rfl | ⟨before, _⟩ | behind
  · exact Nat.ne_of_lt le
  · omega
  · omega

theorem covered_eq_false (h : Leave edits block i j) (le : i ≤ k) (lt : k < j) : covered edits k = false := by
  refine Edit.covered_eq_false fun e mem => ?_
  rcases h e mem with rfl | ⟨_, before⟩ | behind
  · exact .inr le
  · exact .inr (Nat.le_trans before le)
  · exact .inl (Nat.lt_of_lt_of_le lt behind)

/-- What an insertion puts into a text stands in front of what the edits leave alone behind it. -/
theorem exists_rewritten (h : Leave edits block i j) (lt : i < j) (bound : j ≤ t.length)
    (mem : ⟨i, i, block⟩ ∈ edits) :
    ∃ before after, Text.rewritten edits 0 t = before ++ block ++ t.slice i j ++ after := by
  have here : i < t.length := Nat.lt_of_lt_of_le lt bound
  obtain ⟨before, eq⟩ := Text.exists_rewritten_append edits (t.take i) (t.drop i) 0
  rw [List.take_append_drop, List.length_take, Nat.zero_add, Nat.min_eq_left (Nat.le_of_lt here)] at eq
  obtain ⟨inserted, written⟩ := h.exists_writtenAt lt mem
  have kept := @Text.rewritten_kept edits t _ _ (Nat.succ_le_of_lt lt) bound
    (fun k le lt => h.writtenAt_eq_nil le lt) fun k le lt => h.covered_eq_false (Nat.le_of_lt le) lt
  have first : t.slice i j = t[i] :: t.slice (i + 1) j := by
    rw [Text.slice, Text.slice, List.drop_eq_getElem_cons here, show j - i = j - (i + 1) + 1 from by omega,
      List.take_succ_cons]
  refine ⟨before ++ inserted, Text.rewritten edits j (t.drop j), ?_⟩
  rw [eq, List.drop_eq_getElem_cons here, Text.rewritten, written, h.covered_eq_false (Nat.le_refl i) lt,
    kept, first]
  simp

end Edit.Leave

/-! ## §4. Lines of a transformed source. -/

theorem feed_not_mem_of_isIdentifier {w : Text} (h : IsIdentifier w) : '\n' ∉ w := by
  intro mem
  rcases h.isWord _ mem with word | hash
  · exact absurd word (by decide)
  · exact absurd hash (by decide)

theorem Block.feed_not_mem_endMarker {block : Block} (h : IsIdentifier block.target) :
    '\n' ∉ block.endMarker := by
  have plain := feed_not_mem_of_isIdentifier h
  have name : '\n' ∉ "// </" ++ generatorName ++ ": " := by decide +kernel
  have end_ : '\n' ∉ ">".toList := by decide +kernel
  unfold endMarker
  rw [List.mem_append, List.mem_append, not_or, not_or]
  exact ⟨⟨name, plain⟩, end_⟩

theorem Block.slashes_prefix_endMarker (block : Block) : "//".toList <+: block.endMarker :=
  ⟨" </" ++ generatorName ++ ": " ++ block.target ++ ">", rfl⟩

theorem Change.isIdentifier_target {source label : Text} {schema : List EnumSource}
    {changes : List Change} {change : Change} (plain : source.NamesPlain)
    (h : plan source schema label = .ok changes) (mem : change ∈ changes) :
    IsIdentifier change.block.target := by
  obtain ⟨items, hitems, made⟩ := plan_ok h
  obtain ⟨visits, eq, hv⟩ := items_visits hitems plain
  obtain ⟨item, memItem, madeFor⟩ := exists_of_forall₂_right made mem
  obtain ⟨v, m, loc⟩ := exists_located_of_mem hv plain hitems eq (List.mem_filter.mp memItem).1
  obtain ⟨_, _, _, name, _, hitem, _⟩ := loc.head
  obtain ⟨_, _, isIdentifier, _⟩ := Text.identifier?_some (identifier?_eq_some hitem.name).1
  rw [madeFor.target]
  exact isIdentifier

theorem transform_text {source label : Text} {schema : List EnumSource} {changes : List Change}
    {rendered : Rendered} (plain : source.NamesPlain) (hplan : plan source schema label = .ok changes)
    (h : transform source schema label = .ok rendered) :
    rendered.text = Text.rewritten (changes.flatMap (Change.edits source)) 0 source := by
  obtain ⟨items, hitems, made⟩ := plan_ok hplan
  obtain ⟨visits, eq, hv⟩ := items_visits hitems plain
  obtain ⟨apart, valid⟩ := edits_apart hv plain hitems eq made
  rw [transform, hplan] at h
  cases h
  exact Text.applyEdits_eq apart valid

/-- **The rest of the line is in the comment.**  Behind the end marker of a block stands what
followed the declaration on its line, and where the block is read as code up to its end marker,
nothing of that is code. -/
theorem transform_endMarker {source label : Text} {schema : List EnumSource} {changes : List Change}
    {change : Change} {rendered : Rendered} {j : Nat} (plain : source.NamesPlain)
    (hplan : plan source schema label = .ok changes)
    (h : transform source schema label = .ok rendered) (mem : change ∈ changes)
    (lt : change.stop < j) (bound : j ≤ source.length) (line : '\n' ∉ source.slice change.stop j)
    (leave : Edit.Leave (changes.flatMap (Change.edits source)) (change.block.insertion change.indent)
      change.stop j) :
    ∃ before after, rendered.text
        = before ++ (change.block.endMarker ++ source.slice change.stop j) ++ after
      ∧ ∀ code, Reads (rendered.text.cursor 0) code (rendered.text.cursor before.length) →
          ∀ i, before.length ≤ i → i < (before ++ (change.block.endMarker
            ++ source.slice change.stop j)).length → ¬ rendered.text.IsCode i := by
  have inserted : ⟨change.stop, change.stop, change.block.insertion change.indent⟩
      ∈ changes.flatMap (Change.edits source) :=
    List.mem_flatMap.mpr ⟨change, mem, List.mem_append_right _ (List.mem_singleton.mpr rfl)⟩
  obtain ⟨before, after, eq⟩ := leave.exists_rewritten lt bound inserted
  obtain ⟨top, ends⟩ := change.block.insertion_ends change.indent
  have text : rendered.text
      = (before ++ top) ++ (change.block.endMarker ++ source.slice change.stop j) ++ after := by
    rw [transform_text plain hplan h, eq, ends]
    simp only [List.append_assoc]
  refine ⟨before ++ top, after, text, fun code reads i le lt => ?_⟩
  have marker := Block.feed_not_mem_endMarker (Change.isIdentifier_target plain hplan mem)
  have slashes := change.block.slashes_prefix_endMarker.trans
    (List.prefix_append change.block.endMarker (source.slice change.stop j))
  have noFeed : '\n' ∉ change.block.endMarker ++ source.slice change.stop j :=
    fun mem => (List.mem_append.mp mem).elim marker line
  generalize change.block.endMarker ++ source.slice change.stop j = rest at *
  obtain ⟨n, comment, length⟩ := @comment?_of_line (before ++ top) rest after noFeed slashes
  rw [← text] at comment
  rw [List.length_append] at lt
  exact not_isCode_of_lexeme reads (lexeme?_some_iff.mpr (.inl comment)) le (by omega)

/-- A module on one line. -/
def oneLineModule : Text :=
  "mod m \x7b #[extract_variant] enum E \x7b A \x7d \x7d"

theorem oneLineModule_namesPlain : oneLineModule.NamesPlain := by
  obtain ⟨items, hitems, all⟩ : ∃ items, oneLineModule.items = .ok items ∧ ∀ item ∈ items,
      (oneLineModule.cursor (item.bodyIndex - item.name.length)).PlainWord item.name :=
    exists_ok_of_decide (by decide +kernel)
  intro items' hitems' item mem
  rw [hitems] at hitems'
  cases hitems'
  exact all item mem

theorem oneLineModule_endMarker :
    ∃ changes change rendered, plan oneLineModule [] "" = .ok changes ∧ change ∈ changes
      ∧ transform oneLineModule [] "" = .ok rendered ∧ change.stop < 41
      ∧ ∃ before after, rendered.text
          = before ++ (change.block.endMarker ++ oneLineModule.slice change.stop 41) ++ after
        ∧ ∀ code, Reads (rendered.text.cursor 0) code (rendered.text.cursor before.length) →
            ∀ i, before.length ≤ i → i < (before ++ (change.block.endMarker
              ++ oneLineModule.slice change.stop 41)).length → ¬ rendered.text.IsCode i := by
  obtain ⟨rendered, h, _⟩ : ∃ rendered, transform oneLineModule [] "" = .ok rendered
      ∧ rendered.blocks.length = 1 := exists_ok_of_decide (by decide +kernel)
  obtain ⟨changes, hplan, some, all⟩ : ∃ changes, plan oneLineModule [] "" = .ok changes
      ∧ changes.length = 1 ∧ ∀ change ∈ changes, change.stop < 41
        ∧ '\n' ∉ oneLineModule.slice change.stop 41
        ∧ Edit.Leave (changes.flatMap (Change.edits oneLineModule))
          (change.block.insertion change.indent) change.stop 41 :=
    exists_ok_of_decide (by decide +kernel)
  obtain ⟨change, rfl⟩ := List.length_eq_one_iff.mp some
  obtain ⟨lt, line, leave⟩ := all change (List.mem_singleton.mpr rfl)
  exact ⟨_, change, rendered, hplan, List.mem_singleton.mpr rfl, h, lt,
    transform_endMarker oneLineModule_namesPlain hplan h (List.mem_singleton.mpr rfl) lt (by decide) line
      leave⟩

/-- **The brace that closes a module on one line is lost**: it is code of the source and kept, and
in the transformed source it is no code. -/
theorem oneLineModule_unclosed :
    oneLineModule[40]? = some '\x7d' ∧ oneLineModule.IsCode 40
      ∧ (∃ changes, plan oneLineModule [] "" = .ok changes
        ∧ Edit.covered (changes.flatMap (Change.edits oneLineModule)) 40 = false)
      ∧ ∃ rendered, transform oneLineModule [] "" = .ok rendered
        ∧ rendered.text.getLast? = some '\x7d' ∧ ¬ rendered.text.IsCode (rendered.text.length - 1) := by
  obtain ⟨offsets, code, mem⟩ : ∃ offsets, oneLineModule.codeOffsets = .ok offsets ∧ 40 ∈ offsets :=
    exists_ok_of_decide (by decide +kernel)
  obtain ⟨rendered, h, last, lost⟩ : ∃ rendered, transform oneLineModule [] "" = .ok rendered
      ∧ rendered.text.getLast? = some '\x7d'
      ∧ (match rendered.text.codeOffsets with
        | .ok offsets => decide (rendered.text.length - 1 ∉ offsets)
        | .error _ => false) = true := exists_ok_of_decide (by decide +kernel)
  obtain ⟨offsets', code', notMem⟩ : ∃ offsets', rendered.text.codeOffsets = .ok offsets'
      ∧ rendered.text.length - 1 ∉ offsets' := by
    split at lost
    · next offsets' code' => exact ⟨offsets', code', of_decide_eq_true lost⟩
    · cases lost
  exact ⟨by decide, (Text.isCode_iff code 40).mpr mem, exists_ok_of_decide (by decide +kernel), rendered, h,
    last, fun isCode => notMem ((Text.isCode_iff code' _).mp isCode)⟩

end EnumExtract
