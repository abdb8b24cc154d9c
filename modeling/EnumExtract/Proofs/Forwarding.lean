/-
  EnumExtract.Proofs.Forwarding
  ────────────────────────────────
  The attributes of a variant and of its fields in the block of its enum.

  Every attribute is a stretch of the source.  Those of a field come to the
  block as they are.  Those that are listed for the struct itself are cut into
  lines first, and each line of the block gets the indentation of the enum: an
  attribute over several lines is indented anew, the lines of a text in it
  included, and any line break becomes a line feed.

  Main results:
    • `indented_eq_iff`             when lines are printed as they were,
    • `Variant.read_attributes`     attributes are stretches of the source,
    • `Block.insertion_attributes`  and what the block has of them,
    • `transform_forwards`          both, for every marked enum of a source.
-/
import EnumExtract.Proofs.Contents
import EnumExtract.Proofs.Declarations
import EnumExtract.Proofs.Extraction
import EnumExtract.Proofs.Fields
import EnumExtract.Proofs.Transformation

namespace EnumExtract

open Text Cursor

/-! ## §1. Lines and their indentation. -/

namespace Text

variable {s t indent : Text}

/-- The lines of a text hold no line break. -/
theorem not_isLineBreak_of_mem_lines (t : Text) :
    ∀ line ∈ t.lines, ∀ ch ∈ line, isLineBreak ch = false := by
  fun_induction Text.lines t with
  | case1 => exact List.forall_mem_nil _
  | case2 rest ih => exact List.forall_mem_cons.mpr ⟨List.forall_mem_nil _, ih⟩
  | case3 c rest _ isBreak ih => exact List.forall_mem_cons.mpr ⟨List.forall_mem_nil _, ih⟩
  | case4 c rest _ plain none ih =>
      intro line mem ch memch
      rw [List.mem_singleton.mp mem, List.mem_singleton] at memch
      rw [memch]
      exact Bool.not_eq_true _ ▸ plain
  | case5 c rest _ plain line more found ih =>
      rw [found] at ih
      obtain ⟨first, others⟩ := List.forall_mem_cons.mp ih
      exact List.forall_mem_cons.mpr
        ⟨List.forall_mem_cons.mpr ⟨Bool.not_eq_true _ ▸ plain, first⟩, others⟩

theorem lines_eq_nil_iff : t.lines = [] ↔ t = [] := by
  fun_induction Text.lines t <;> simp_all

/-- The line breaks of the text are line feeds, and none is at its end. -/
structure Feeds (t : Text) : Prop where
  only : ∀ ch ∈ t, isLineBreak ch = true → ch = '\n'
  last : ∀ ch ∈ t.getLast?, isLineBreak ch = false

theorem Feeds.tail {c : Char} (h : Feeds (c :: t)) : Feeds t := by
  refine ⟨fun ch mem => h.only ch (List.mem_cons_of_mem c mem), fun ch mem => h.last ch ?_⟩
  rw [List.getLast?_cons]
  cases last : t.getLast? with
  | none =>
      rw [last] at mem
      cases mem
  | some x =>
      rw [last] at mem
      exact mem

theorem Feeds.tail_ne_nil (h : Feeds ('\n' :: t)) : t ≠ [] := by
  rintro rfl
  cases h.last '\n' rfl

/-- A text without line breaks is one line. -/
theorem lines_eq_singleton (some : t ≠ []) (plain : ∀ ch ∈ t, isLineBreak ch = false) :
    t.lines = [t] := by
  fun_induction Text.lines t with
  | case1 => exact absurd rfl some
  | case2 rest ih => cases plain '\r' List.mem_cons_self
  | case3 c rest _ isBreak ih => rw [plain c List.mem_cons_self] at isBreak; cases isBreak
  | case4 c rest _ _ none ih => rw [lines_eq_nil_iff.mp none]
  | case5 c rest _ _ line more found ih =>
      have more := ih (fun empty => by rw [lines_eq_nil_iff.mpr empty] at found; cases found)
        fun ch mem => plain ch (List.mem_cons_of_mem c mem)
      rw [more] at found
      cases found
      rfl

/-- The lines of a text, joined by line feeds again. -/
theorem Feeds.join_lines (h : t.Feeds) : join "\n" t.lines = t := by
  fun_induction Text.lines t with
  | case1 => rfl
  | case2 rest ih => cases h.only '\r' List.mem_cons_self rfl
  | case3 c rest _ isBreak ih =>
      obtain rfl := h.only c List.mem_cons_self isBreak
      rw [join, List.intercalate_cons_of_ne_nil (mt lines_eq_nil_iff.mp h.tail_ne_nil), List.nil_append]
      exact congrArg ('\n' :: ·) (ih h.tail)
  | case4 c rest _ _ none ih =>
      rw [lines_eq_nil_iff.mp none]
      exact List.intercalate_singleton
  | case5 c rest _ _ line more found ih =>
      have tail := ih h.tail
      rw [found] at tail
      refine Eq.trans ?_ (congrArg (c :: ·) tail)
      cases more with
      | nil => rw [join, join, List.intercalate_singleton, List.intercalate_singleton]
      | cons second more =>
          rw [join, join, List.intercalate_cons_cons, List.intercalate_cons_cons, List.cons_append,
            List.cons_append]

/-- A line as a block prints it: behind the indentation, unless it is empty. -/
def indentedLine (indent line : Text) : Text :=
  if line.isEmpty then [] else indent ++ line

/-- The text as a block prints it: line by line behind the indentation. -/
def indented (indent t : Text) : Text :=
  join "\n" (t.lines.map (indentedLine indent))

/-- How many lines of a text are not empty. -/
def filledLines (t : Text) : Nat :=
  t.lines.countP (!·.isEmpty)

theorem length_join_indentedLine (indent : Text) (lines : List Text) :
    (join "\n" (lines.map (indentedLine indent))).length
      = (join "\n" lines).length + indent.length * lines.countP (!·.isEmpty) := by
  have one (line : Text) : (indentedLine indent line).length
      = line.length + indent.length * (if (!line.isEmpty) = true then 1 else 0) := by
    unfold indentedLine
    cases line <;> simp [Nat.add_comm]
  induction lines with
  | nil => rfl
  | cons line lines ih =>
      rw [List.countP_cons]
      cases lines with
      | nil =>
          rw [List.map_singleton, join, join, List.intercalate_singleton, List.intercalate_singleton,
            one, List.countP_nil, Nat.zero_add]
      | cons second lines =>
          rw [List.map_cons] at ih ⊢
          rw [List.map_cons, join, join, List.intercalate_cons_cons, List.intercalate_cons_cons]
          simp only [List.length_append]
          rw [join, join] at ih
          rw [ih, one, Nat.mul_add]
          omega

/-- With its lines indented, a text is longer by the indentation of each line that is not empty. -/
theorem Feeds.length_indented (h : t.Feeds) (indent : Text) :
    (indented indent t).length = t.length + indent.length * t.filledLines := by
  rw [indented, length_join_indentedLine, h.join_lines, filledLines]

theorem Feeds.filledLines_pos (h : t.Feeds) (some : t ≠ []) : 0 < t.filledLines := by
  unfold filledLines
  fun_induction Text.lines t with
  | case1 => exact absurd rfl some
  | case2 rest ih => cases h.only '\r' List.mem_cons_self rfl
  | case3 c rest _ isBreak ih =>
      obtain rfl := h.only c List.mem_cons_self isBreak
      rw [List.countP_cons]
      exact Nat.lt_add_right _ (ih h.tail h.tail_ne_nil)
  | case4 => rw [List.countP_cons_of_pos (by rfl)]; omega
  | case5 => rw [List.countP_cons_of_pos (by rfl)]; omega

theorem lines_feed : lines ('\n' :: t) = [] :: t.lines := by
  rw [lines, if_pos (by rfl)]
  exact nofun

/-- A character that is no line break is put before the first line. -/
theorem lines_plain {c : Char} {line : Text} {more : List Text} (plain : isLineBreak c = false)
    (found : t.lines = line :: more) : lines (c :: t) = (c :: line) :: more := by
  rw [lines, if_neg (by rw [plain]; exact Bool.false_ne_true), found]
  rintro _ rfl
  cases plain

/-- A line feed in a text that begins and ends otherwise has a line on either side. -/
theorem Feeds.one_lt_filledLines : ∀ {t : Text} {c : Char}, Feeds (c :: t) → isLineBreak c = false →
    '\n' ∈ t → 1 < filledLines (c :: t) := by
  intro t
  induction t with
  | nil => exact fun _ _ mem => absurd mem List.not_mem_nil
  | cons d rest ih =>
      intro c h first mem
      unfold filledLines
      cases isBreak : isLineBreak d with
      | true =>
          obtain rfl := h.tail.only d List.mem_cons_self isBreak
          have behind := h.tail.tail.filledLines_pos h.tail.tail_ne_nil
          unfold filledLines at behind
          rw [lines_plain first lines_feed, List.countP_cons_of_pos (by rfl)]
          omega
      | false =>
          have later : '\n' ∈ rest := by
            rcases List.mem_cons.mp mem with rfl | later
            · cases isBreak
            · exact later
          have behind := ih h.tail isBreak later
          unfold filledLines at behind
          cases found : lines (d :: rest) with
          | nil => cases lines_eq_nil_iff.mp found
          | cons line more =>
              rw [found, List.countP_cons] at behind
              rw [lines_plain first found, List.countP_cons_of_pos (by rfl)]
              split at behind <;> omega

/-- The indentation is all that is put before a text without line breaks. -/
theorem indented_of_plain (some : t ≠ []) (plain : ∀ ch ∈ t, isLineBreak ch = false) :
    indented indent t = indent ++ t := by
  rw [indented, lines_eq_singleton some plain, List.map_singleton, join, List.intercalate_singleton,
    indentedLine, if_neg (by rw [List.isEmpty_eq_false_iff.mpr some]; exact Bool.false_ne_true)]

theorem indented_nil (h : t.Feeds) : indented [] t = t := by
  have same : indentedLine [] = id := by
    funext line
    cases line <;> rfl
  rw [indented, same, List.map_id, h.join_lines]

/-- Printed line by line, a text has no line breaks but line feeds. -/
theorem indented_only (plain : ∀ ch ∈ indent, isLineBreak ch = false) :
    ∀ ch ∈ indented indent t, isLineBreak ch = true → ch = '\n' := by
  have one (line : Text) (memLine : line ∈ t.lines) :
      ∀ ch ∈ indentedLine indent line, isLineBreak ch = false := by
    intro ch mem
    unfold indentedLine at mem
    split at mem
    · cases mem
    · rcases List.mem_append.mp mem with mem | mem
      · exact plain ch mem
      · exact not_isLineBreak_of_mem_lines t line memLine ch mem
  unfold indented
  generalize t.lines = lines at one
  induction lines with
  | nil => exact nofun
  | cons line lines ih =>
      intro ch mem isBreak
      have here (memch : ch ∈ indentedLine indent line) : ch = '\n' := by
        rw [one line List.mem_cons_self ch memch] at isBreak
        cases isBreak
      cases lines with
      | nil =>
          rw [List.map_singleton, join, List.intercalate_singleton] at mem
          exact here mem
      | cons second lines =>
          rw [List.map_cons, List.map_cons, join, List.intercalate_cons_cons, List.append_assoc] at mem
          rcases List.mem_append.mp mem with mem | mem
          · exact here mem
          · rcases List.mem_append.mp mem with mem | mem
            · exact List.mem_singleton.mp mem
            · exact ih (fun line mem => one line (List.mem_cons_of_mem _ mem)) ch mem isBreak

/-- The text begins and ends with other characters than line breaks. -/
structure Closed (t : Text) : Prop where
  first : ∃ c rest, t = c :: rest ∧ isLineBreak c = false
  last : ∀ ch ∈ t.getLast?, isLineBreak ch = false

/-- **When lines are printed as they were**: all their breaks have to be line feeds, and there may
be none where there is an indentation. -/
theorem Closed.indented_eq_iff (h : t.Closed) (plain : ∀ ch ∈ indent, isLineBreak ch = false) :
    indented indent t = indent ++ t
      ↔ (∀ ch ∈ t, isLineBreak ch = true → ch = '\n') ∧ (indent = [] ∨ '\n' ∉ t) := by
  obtain ⟨c, rest, rfl, first⟩ := h.first
  constructor
  · intro eq
    have only : ∀ ch ∈ c :: rest, isLineBreak ch = true → ch = '\n' := fun ch mem =>
      indented_only plain ch (by rw [eq]; exact List.mem_append_right _ mem)
    refine ⟨only, ?_⟩
    by_contra both
    obtain ⟨some, mem⟩ := not_or.mp both
    have feeds : Feeds (c :: rest) := ⟨only, h.last⟩
    have later : '\n' ∈ rest := by
      rcases List.mem_cons.mp (not_not.mp mem) with rfl | later
      · cases first
      · exact later
    -- two lines are indented, but only one indentation is there
    have two := feeds.one_lt_filledLines first later
    have length := congrArg List.length eq
    rw [feeds.length_indented, List.length_append, Nat.add_comm, Nat.add_right_cancel_iff,
      Nat.mul_eq_left (Nat.ne_of_gt (List.length_pos_iff.mpr some))] at length
    omega
  · rintro ⟨only, rfl | none⟩
    · exact indented_nil ⟨only, h.last⟩
    · refine indented_of_plain (List.cons_ne_nil _ _) fun ch mem => ?_
      by_contra isBreak
      obtain rfl := only ch mem ((Bool.not_eq_false _).mp isBreak)
      exact none mem

end Text

/-! ## §2. Parts of joined lists. -/

section Joined

variable {α β : Type}

/-- What begins a list of lists begins the joined list. -/
theorem intercalate_isPrefix (separator : List α) : ∀ parts more : List (List α),
    List.intercalate separator parts <+: List.intercalate separator (parts ++ more) := by
  intro parts more
  induction parts with
  | nil => exact List.nil_prefix
  | cons part parts ih =>
      cases parts with
      | nil =>
          cases more with
          | nil => exact List.prefix_rfl
          | cons next more =>
              rw [List.singleton_append, List.intercalate_singleton, List.intercalate_cons_cons,
                List.append_assoc]
              exact List.prefix_append _ _
      | cons second parts =>
          rw [List.cons_append, List.cons_append, List.intercalate_cons_cons,
            List.intercalate_cons_cons, List.prefix_append_right_inj]
          exact ih

/-- What ends a list of lists ends the joined list. -/
theorem intercalate_isSuffix (separator : List α) (parts : List (List α)) : ∀ before : List (List α),
    List.intercalate separator parts <:+ List.intercalate separator (before ++ parts) := by
  intro before
  induction before with
  | nil => exact List.suffix_rfl
  | cons part before ih =>
      rw [List.cons_append]
      cases rest : before ++ parts with
      | nil =>
          rw [(List.append_eq_nil_iff.mp rest).2]
          exact List.nil_suffix
      | cons second rest' =>
          rw [rest] at ih
          refine ih.trans ?_
          rw [List.intercalate_cons_cons]
          exact List.suffix_append _ _

/-- **What stands in a list of lists stands in the joined list.** -/
theorem intercalate_isInfix {separator : List α} {parts all : List (List α)} (h : parts <:+: all) :
    List.intercalate separator parts <:+: List.intercalate separator all := by
  obtain ⟨before, more, rfl⟩ := h
  rw [List.append_assoc]
  exact (intercalate_isPrefix separator parts more).isInfix.trans
    (intercalate_isSuffix separator (parts ++ more) before).isInfix

theorem mem_intercalate_isInfix {separator part : List α} {parts : List (List α)}
    (mem : part ∈ parts) : part <:+: List.intercalate separator parts := by
  have single : List.intercalate separator [part] = part := List.intercalate_singleton
  rw [← single]
  obtain ⟨before, after, rfl⟩ := List.append_of_mem mem
  exact intercalate_isInfix ⟨before, after, by rw [List.append_assoc, List.singleton_append]⟩

theorem flatMap_isInfix {f : α → List β} {x : α} {xs : List α} (mem : x ∈ xs) :
    f x <:+: xs.flatMap f := by
  obtain ⟨before, after, rfl⟩ := List.append_of_mem mem
  rw [List.flatMap_append, List.flatMap_cons, ← List.append_assoc]
  exact List.infix_append _ _ _

end Joined

/-- The replacement of an edit stands in the edited text. -/
theorem Text.replacement_isInfix {t : Text} {edits : List Edit} {e : Edit} (mem : e ∈ edits) :
    e.replacement <:+: t.applyEdits edits := by
  have here : e ∈ sorted Edit.notAfter edits := (sorted_perm edits).mem_iff.mpr mem
  unfold applyEdits
  generalize sorted Edit.notAfter edits = ordered at here
  have go : ∀ kept, e.replacement <:+: applyEdits.go t kept ordered := by
    induction ordered with
    | nil => cases here
    | cons first rest ih =>
        intro kept
        rw [applyEdits.go]
        rcases List.mem_cons.mp here with rfl | later
        · exact List.infix_append _ _ _
        · exact (ih later first.stop).trans (List.suffix_append _ _).isInfix
  exact go 0

/-! ## §3. Attributes are stretches of the source. -/

/-- The attribute is a stretch of `t`; if it is no doc comment, it stands in its brackets. -/
structure Attribute.WrittenIn (t : Text) (a : Attribute) : Prop where
  text : a.text <:+: t
  closed : a.path ≠ "doc" → a.text.Closed

theorem Attribute.WrittenIn.mono {s t : Text} {a : Attribute} (h : a.WrittenIn s) (part : s <:+: t) :
    a.WrittenIn t :=
  ⟨h.text.trans part, h.closed⟩

namespace Cursor

variable {c d : Cursor}

theorem LeadsTo.isSuffix (h : c.LeadsTo d) : d.ahead <:+ c.ahead := by
  rw [h.ahead_eq]
  exact List.suffix_append _ _

theorem cursor_isSuffix (t : Text) (i : Nat) : (t.cursor i).ahead <:+ t :=
  List.drop_suffix i t

/-- An attribute in brackets is a stretch of the text ahead, and ends with its bracket. -/
theorem readAttribute_writtenIn {a : Attribute} (sees : c.sees "#[" = true)
    (read : c.readAttribute = .ok a) : a.WrittenIn c.ahead := by
  obtain ⟨close, head, next, parts⟩ := readAttribute_ok_iff.mp read
  obtain ⟨toClose, text, s, whole⟩ := parts.text_eq sees
  obtain ⟨rest, eq⟩ := sees_iff.mp sees
  have first : (c.upTo close.offset).head? = some '#' := by
    cases start : c.upTo close.offset with
    | nil =>
        rw [start, List.nil_append, eq] at whole
        cases whole
    | cons ch u =>
        rw [start, List.cons_append, eq] at whole
        exact congrArg some (List.cons.inj whole).1.symm
  obtain ⟨tail, start⟩ := List.head?_eq_some_iff.mp first
  refine ⟨?_, fun _ => ⟨⟨'#', tail ++ [']'], by rw [text, start]; rfl, rfl⟩, fun ch mem => ?_⟩⟩
  · rw [parts.text]
    exact (List.take_prefix _ _).isInfix
  · rw [text, List.getLast?_concat, Option.mem_some] at mem
    rw [← mem]
    rfl

/-- **The attributes of a prelude are stretches of the text ahead.** -/
theorem Prelude.writtenIn {attrs : List Attribute} (h : Prelude c attrs d) :
    ∀ a ∈ attrs, a.WrittenIn c.ahead := by
  intro a mem
  obtain ⟨p, onward, doc | ⟨sees, read⟩⟩ := h.exists_place a mem
  · refine Attribute.WrittenIn.mono ?_ onward.isSuffix.isInfix
    obtain ⟨n, _, rfl⟩ := doc.exists_lexeme
    obtain ⟨blank, eq, _⟩ := Text.exists_trimEnd_append (p.ahead.take n)
    refine ⟨(List.prefix_append _ blank).isInfix.trans ?_, fun noDoc => absurd rfl noDoc⟩
    rw [← eq]
    exact (List.take_prefix n _).isInfix
  · exact (readAttribute_writtenIn sees read).mono onward.isSuffix.isInfix

end Cursor

/-- The entry is a stretch of `t`; one that is no derive and no doc stands in its brackets. -/
structure Metadata.WrittenIn (t : Text) (m : Metadata) : Prop where
  text : m.text <:+: t
  closed : m.category = .other → m.text.Closed

/-- An entry has the text of its attribute. -/
theorem Metadata.ofAttribute_ok {a : Attribute} {m : Metadata} (read : ofAttribute a = .ok m) :
    m.text = a.text ∧ (m.category = .other → a.path ≠ "doc") := by
  unfold ofAttribute at read
  split at read
  · cases read
    exact ⟨rfl, nofun⟩
  · next noDoc =>
    split at read
    · split at read
      · obtain ⟨pieces, _, read⟩ := bind_ok_iff.mp read
        obtain ⟨traits, _, read⟩ := bind_ok_iff.mp read
        cases read
        exact ⟨rfl, nofun⟩
      · cases read
        exact ⟨rfl, fun _ => noDoc⟩
    · cases read
      exact ⟨rfl, fun _ => noDoc⟩

theorem Metadata.ofAttribute_writtenIn {t : Text} {a : Attribute} {m : Metadata} (h : a.WrittenIn t)
    (read : ofAttribute a = .ok m) : m.WrittenIn t := by
  obtain ⟨text, noDoc⟩ := ofAttribute_ok read
  constructor
  case text =>
    rw [text]
    exact h.text
  case closed =>
    intro other
    rw [text]
    exact h.closed (noDoc other)

theorem Shape.classify_ok {fields : List Field} {index : Nat} {shape : Shape}
    (h : classify fields index = .ok shape) :
    shape.fields = fields ∧ (shape.kind = .unit → fields = []) := by
  unfold classify at h
  split at h
  · next none =>
    cases h
    exact ⟨(List.isEmpty_iff.mp none).symm, fun _ => List.isEmpty_iff.mp none⟩
  · split at h
    · cases h
      exact ⟨rfl, nofun⟩
    · split at h
      · cases h
        exact ⟨rfl, nofun⟩
      · cases h

namespace Variant

variable {source : Text}

/-- The listed entries are those of a prelude of the source. -/
theorem Directives.listedAttrs_ok {a : Attribute} {entries : List Metadata}
    (h : listedAttrs source a = .ok entries) : ∃ i attrs place,
      Prelude (source.cursor i) attrs place
        ∧ List.Forall₂ (fun a m => Metadata.ofAttribute a = .ok m) attrs entries := by
  unfold listedAttrs at h
  split at h
  · cases h
  · next args _ =>
    obtain ⟨⟨attrs, place⟩, prelude, h⟩ := bind_ok_iff.mp h
    obtain ⟨behind, _, h⟩ := bind_ok_iff.mp h
    dsimp only at h
    refine ⟨args.start, attrs, place, readPrelude_ok_iff.mp prelude, ?_⟩
    split at h
    · cases h
    · exact mapM_ok_iff.mp h

/-- Every entry of a variant is a stretch of the source. -/
theorem Directives.Adds.writtenIn {d d' : Directives} {a : Attribute} (adds : Adds source d a d')
    (h : a.WrittenIn source) (known : ∀ m ∈ d.metadata, m.WrittenIn source) :
    ∀ m ∈ d'.metadata, m.WrittenIn source := by
  cases adds with
  | exclude => exact known
  | other => exact known
  | doc _ read =>
      exact List.forall_mem_append.mpr
        ⟨known, List.forall_mem_singleton.mpr (Metadata.ofAttribute_writtenIn h read)⟩
  | listed _ _ read =>
      obtain ⟨i, attrs, place, prelude, entries⟩ := listedAttrs_ok read
      refine List.forall_mem_append.mpr ⟨known, fun m mem => ?_⟩
      obtain ⟨b, memb, ofAttribute⟩ := exists_of_forall₂_right entries mem
      exact Metadata.ofAttribute_writtenIn
        ((prelude.writtenIn b memb).mono (cursor_isSuffix source i).isInfix) ofAttribute

/-- The fields of a variant are read from pieces of the text ahead. -/
theorem readFields_ok {place rest : Cursor} {stop : Nat} {fields : List Field}
    (h : readFields place stop = .ok (fields, rest)) : ∀ f ∈ fields, ∃ p named,
      place.LeadsTo p.start ∧ Field.read named p = .ok f := by
  unfold readFields at h
  split at h
  · obtain ⟨close, closing, h⟩ := bind_ok_iff.mp h
    obtain ⟨found, list, h⟩ := bind_ok_iff.mp h
    obtain ⟨_, _, h⟩ := bind_ok_iff.mp h
    cases h
    obtain ⟨code, encloses⟩ := closing_ok_iff.mp closing
    obtain ⟨pieces, cut, list⟩ := bind_ok_iff.mp list
    have sound := (encloses.pieces_sound (Level.start place) cut).2
    intro f mem
    obtain ⟨p, memp, read⟩ := exists_of_forall₂_right (mapM_ok_iff.mp list) mem
    exact ⟨p, _, (sound p memp).level.leadsTo, read⟩
  · cases h
    exact nofun

/-- **The attributes of a variant** and of its fields are stretches of the source. -/
theorem read_attributes {p : Piece} {v : Variant} (h : read source p = .ok v)
    (part : p.start.ahead <:+ source) :
    (∀ m ∈ v.metadata, m.WrittenIn source)
      ∧ ∀ f ∈ v.shape.fields, ∀ attr ∈ f.attrs, attr <:+: source := by
  obtain ⟨attrs, fields, d, head, behind, place, rest, parts⟩ := read_ok_iff.mp h
  constructor
  · have all : Gives (fun d : Directives => ∀ m ∈ d.metadata, m.WrittenIn source)
        (attrs.foldlM (Directives.add source) Directives.empty) := by
      refine .foldlM nofun fun d known a mem => ?_
      have written := (parts.prelude.writtenIn a mem).mono part.isInfix
      cases adds : Directives.add source d a with
      | error => trivial
      | ok d' => exact (Directives.add_ok_iff.mp adds).writtenIn written known
    rw [parts.metadata]
    exact all.of_ok parts.directives
  · rw [(Shape.classify_ok parts.shape).1]
    intro f mem attr memAttr
    obtain ⟨piece, named, leads, read⟩ := readFields_ok parts.read f mem
    obtain ⟨attrs', _, _, _, _, _, fparts⟩ := Field.read_ok_iff.mp read
    rw [fparts.eq] at memAttr
    obtain ⟨a, mema, rfl⟩ := List.mem_map.mp memAttr
    have toPlace := (parts.prelude.leadsTo.trans (leadsTo_identifier parts.name).1).trans
      parts.toFields.leadsTo
    exact (fparts.prelude.writtenIn a mema).text.trans
      ((toPlace.trans leads).isSuffix.trans part).isInfix

end Variant

/-- The attributes of an enum's variants are stretches of the source. -/
theorem EnumDecl.variant_attributes {source : Text} {item : Item} {enum : EnumDecl}
    (h : read source item = .ok enum) : ∀ v ∈ enum.variants,
      (∀ m ∈ v.metadata, m.WrittenIn source)
        ∧ ∀ f ∈ v.shape.fields, ∀ attr ∈ f.attrs, attr <:+: source := by
  obtain ⟨body, close, pieces, parts⟩ := read_ok_iff.mp h
  obtain ⟨code, encloses⟩ := closing_ok_iff.mp parts.closing
  intro v mem
  obtain ⟨p, memp, read⟩ := exists_of_forall₂_right (Variant.readAll_ok_iff.mp parts.variants).1 mem
  have leads := ((encloses.pieces_sound (Level.start body) parts.cut).2 p memp).level.leadsTo
  exact Variant.read_attributes read
    ((parts.toBody.leadsTo.trans leads).isSuffix.trans (cursor_isSuffix source _))

/-! ## §4. Attributes in a block. -/

theorem StructDecl.metadata_isInfix {struct : StructDecl} {m : Metadata} (mem : m ∈ struct.metadata) :
    m.text.lines <:+: struct.lines :=
  List.IsInfix.trans (flatMap_isInfix (f := fun m : Metadata => m.text.lines) mem)
    (List.prefix_append _ _).isInfix

/-- The lines of a struct that has fields with attributes have each of these on a line. -/
theorem StructDecl.exists_line {struct : StructDecl} {f : Field} {attr : Text}
    (some : struct.shape.kind = .unit → struct.shape.fields = []) (mem : f ∈ struct.shape.fields)
    (memAttr : attr ∈ f.attrs) : ("    " ++ attr : Text) ∈ struct.lines := by
  have own (member : Field → Text) : ("    " ++ attr : Text) ∈ Field.memberLines member f :=
    List.mem_map_of_mem (List.mem_append_left _ memAttr)
  have among (member : Field → Text) :
      ("    " ++ attr : Text) ∈ struct.shape.fields.flatMap (Field.memberLines member) :=
    List.mem_flatMap.mpr ⟨f, mem, own member⟩
  refine List.mem_append_right _ ?_
  unfold declarationLines
  dsimp only
  split
  · next unit =>
    rw [some unit] at mem
    cases mem
  · have attributes : struct.shape.fields.any (!·.attrs.isEmpty) = true :=
      List.any_eq_true.mpr ⟨f, mem, by rw [List.isEmpty_eq_false_iff_exists_mem.mpr ⟨attr, memAttr⟩]; rfl⟩
    rw [if_pos attributes]
    exact List.mem_append_left _ (List.mem_cons_of_mem _ (among _))
  · exact List.mem_append_left _ (List.mem_cons_of_mem _ (among _))

namespace Block

variable {enum : EnumDecl} {options : ExtractOptions} {block : Block}

/-- The lines of a struct stand together in its block. -/
theorem lines_isInfix (h : extractAll enum options = .ok block) {struct : StructDecl}
    (mem : struct ∈ block.structs) : struct.lines <:+: block.lines := by
  obtain ⟨partition, _, eq⟩ := extractAll_partition h
  rw [eq]
  refine List.IsInfix.trans ?_ (List.infix_append _ _ _)
  split
  · exact mem_intercalate_isInfix (List.mem_map_of_mem mem)
  · next impl =>
    have same := (partition.conversions ((Bool.not_eq_true _).mp impl)).length_eq
    rw [List.length_zip, partition.structs.length_eq, Nat.min_self] at same
    obtain ⟨i, lt, rfl⟩ := List.mem_iff_getElem.mp mem
    have here : i < (List.zipWith (fun s c => s.lines ++ c.lines) block.structs
        block.conversions).length := by
      rw [List.length_zipWith]
      omega
    have group : _ <:+: List.intercalate [[]] (List.zipWith (fun s c => s.lines ++ c.lines)
        block.structs block.conversions) := mem_intercalate_isInfix (List.getElem_mem here)
    rw [List.getElem_zipWith] at group
    exact (List.prefix_append _ _).isInfix.trans group

/-- **What a block has of attributes.**  Those of a struct are printed line by line behind the
indentation, those of its fields as they are. -/
theorem insertion_attributes (h : extractAll enum options = .ok block) {struct : StructDecl}
    (mem : struct ∈ block.structs) (indent : Text) :
    (∀ m ∈ struct.metadata, indented indent m.text <:+: block.insertion indent)
      ∧ ((struct.shape.kind = .unit → struct.shape.fields = []) →
        ∀ f ∈ struct.shape.fields, ∀ attr ∈ f.attrs, attr <:+: block.insertion indent) := by
  have printed {lines : List Text} (part : lines <:+: struct.lines) :
      join "\n" (lines.map (indentedLine indent)) <:+: block.insertion indent :=
    (intercalate_isInfix ((part.trans (lines_isInfix h mem)).map _)).trans
      (List.suffix_append _ _).isInfix
  constructor
  · exact fun m memMetadata => printed (StructDecl.metadata_isInfix memMetadata)
  · intro some f memf attr memAttr
    have line := StructDecl.exists_line some memf memAttr
    obtain ⟨before, after, eq⟩ := List.append_of_mem line
    have single : ["    " ++ attr] <:+: struct.lines :=
      ⟨before, after, by rw [eq, List.append_assoc, List.singleton_append]⟩
    have own := printed single
    rw [List.map_singleton, join, List.intercalate_singleton] at own
    exact ((List.suffix_append _ _).trans (List.suffix_append _ _)).isInfix.trans own

end Block

/-! ## §5. Transformed sources. -/

/-- How the attributes of a struct, and those of its fields, come from the source to the block
that is inserted behind an indentation. -/
structure Forwards (source indent inserted : Text) (metadata : List Metadata) (fields : List Field) :
    Prop where
  /-- An attribute of the struct is printed line by line, and so as it was unless it goes over
  several lines and is indented, or has other line breaks than line feeds. -/
  listed : ∀ m ∈ metadata, m.category = .other → m.text <:+: source
    ∧ indented indent m.text <:+: inserted
    ∧ (indented indent m.text = indent ++ m.text
      ↔ (∀ ch ∈ m.text, isLineBreak ch = true → ch = '\n') ∧ (indent = [] ∨ '\n' ∉ m.text))
  /-- An attribute of a field is printed as it was. -/
  fields : ∀ f ∈ fields, ∀ attr ∈ f.attrs, attr <:+: source ∧ attr <:+: inserted

/-- The indentation of a line is spaces and tabs. -/
theorem Text.lineIndent_plain (t : Text) (i : Nat) : ∀ ch ∈ t.lineIndent i, isLineBreak ch = false := by
  intro ch mem
  have blank := List.all_eq_true.mp (List.all_takeWhile
    (p := fun c => c == ' ' || c == '\t') (l := t.slice (t.lineStart i) i)) ch mem
  rw [Bool.or_eq_true, beq_iff_eq, beq_iff_eq] at blank
  rcases blank with rfl | rfl <;> rfl

/-- The block of a change stands in the text with its edits made. -/
theorem Change.insertion_isInfix {source : Text} {changes : List Change} {change : Change}
    (mem : change ∈ changes) :
    change.block.insertion change.indent
      <:+: source.applyEdits (changes.flatMap (Change.edits source)) :=
  replacement_isInfix (e := ⟨change.stop, change.stop, change.block.insertion change.indent⟩)
    (List.mem_flatMap.mpr ⟨change, mem, List.mem_append_right _ List.mem_cons_self⟩)

/-- The attributes of each variant that is not excluded come to the block. -/
theorem Block.forwards {source : Text} {item : Item} {enum : EnumDecl} {options : ExtractOptions}
    {block : Block} (henum : EnumDecl.read source item = .ok enum)
    (h : extractAll enum options = .ok block) {v : Variant} (mem : v ∈ enum.variants)
    {metadata : List Metadata} (resolved : v.structMetadata? enum.metadata = some metadata) :
    Forwards source (source.lineIndent item.start) (block.insertion (source.lineIndent item.start))
      metadata v.shape.fields := by
  obtain ⟨entries, attrs⟩ := EnumDecl.variant_attributes henum v mem
  have included : v.excluded = false := by
    cases excluded : v.excluded with
    | false => rfl
    | true =>
        rw [Variant.structMetadata?, if_pos excluded] at resolved
        cases resolved
  obtain ⟨struct, memStruct, made⟩ := exists_of_forall₂_left (extractAll_partition h).1.structs
    (List.mem_filter.mpr ⟨mem, by rw [included]; rfl⟩)
  have same := made.metadata
  rw [resolved, Option.some_inj] at same
  obtain ⟨listed, ofFields⟩ := insertion_attributes h memStruct (source.lineIndent item.start)
  rw [← same] at listed
  rw [made.shape] at ofFields
  refine ⟨fun m memMetadata other => ?_, fun f memf attr memAttr => ⟨attrs f memf attr memAttr,
    ofFields ?_ f memf attr memAttr⟩⟩
  · have written := entries m (v.mem_of_structMetadata resolved memMetadata (by rw [other]; decide))
    exact ⟨written.text, listed m memMetadata,
      (written.closed other).indented_eq_iff (source.lineIndent_plain item.start)⟩
  · obtain ⟨body, close, pieces, parts⟩ := EnumDecl.read_ok_iff.mp henum
    obtain ⟨p, _, read⟩ := exists_of_forall₂_right (Variant.readAll_ok_iff.mp parts.variants).1 mem
    obtain ⟨_, fields, _, head, _, _, _, vparts⟩ := Variant.read_ok_iff.mp read
    obtain ⟨eq, unit⟩ := Shape.classify_ok vparts.shape
    rw [eq]
    exact unit

/-- **Attributes are forwarded.**  Each marked enum of a transformed source has its block in the
text.  The block has each attribute of a field as it is written, and each attribute that is listed
for a variant with its lines indented. -/
theorem transform_forwards {source label : Text} {schema : List EnumSource} {rendered : Rendered}
    (h : transform source schema label = .ok rendered) :
    ∃ items, source.items = .ok items
      ∧ List.Forall₂ (fun item block => item.kind = .enum → ∃ enum,
          EnumDecl.read source item = .ok enum
            ∧ block.insertion (source.lineIndent item.start) <:+: rendered.text
            ∧ ∀ v ∈ enum.variants, ∀ metadata, v.structMetadata? enum.metadata = some metadata →
              Forwards source (source.lineIndent item.start)
                (block.insertion (source.lineIndent item.start)) metadata v.shape.fields)
        (items.filter (·.isAnnotated)) rendered.blocks := by
  obtain ⟨changes, hplan, hrendered⟩ := bind_ok_iff.mp h
  cases hrendered
  obtain ⟨items, hitems, made⟩ := plan_ok hplan
  have inserted : ∀ change ∈ changes, change.block.insertion change.indent
      <:+: source.applyEdits (changes.flatMap (Change.edits source)) :=
    fun change mem => Change.insertion_isInfix mem
  refine ⟨items, hitems, List.forall₂_map_right_iff.mpr ?_⟩
  refine ((List.forall₂_and_left _ _).mpr ⟨inserted, made.flip⟩).flip.imp
    fun item change ⟨hin, hmade⟩ kind => ?_
  obtain ⟨enum, options, henum, _, hblock⟩ := hmade.extracts kind
  rw [hmade.indent] at hin
  exact ⟨enum, henum, hin, fun v mem metadata resolved => Block.forwards henum hblock mem resolved⟩

/-- An indented enum with an attribute for its struct that goes over two lines, in a text. -/
def twoLineNote : Text :=
  "mod m \x7b\n    #[extract_variant]\n    enum E \x7b\n        #[variant_attrs(#[note(\"a\nb\")])]\n"
    ++ "        A(#[serde(skip)] u8),\n    \x7d\n\x7d\n"

theorem twoLineNote_forwards :
    ∃ rendered, transform twoLineNote [] "" = .ok rendered
      ∧ ∃ items, twoLineNote.items = .ok items
        ∧ List.Forall₂ (fun item block => item.kind = .enum → ∃ enum,
            EnumDecl.read twoLineNote item = .ok enum
              ∧ block.insertion (twoLineNote.lineIndent item.start) <:+: rendered.text
              ∧ ∀ v ∈ enum.variants, ∀ metadata, v.structMetadata? enum.metadata = some metadata →
                Forwards twoLineNote (twoLineNote.lineIndent item.start)
                  (block.insertion (twoLineNote.lineIndent item.start)) metadata v.shape.fields)
          (items.filter (·.isAnnotated)) rendered.blocks := by
  obtain ⟨rendered, h, _⟩ := exists_ok_of_decide (x := transform twoLineNote [] "")
    (p := fun _ => True) (by decide +kernel)
  exact ⟨rendered, h, transform_forwards h⟩

/-- **The note is not forwarded as it is written**: nowhere in the result does it stand. -/
theorem twoLineNote_reindented :
    ∃ rendered, transform twoLineNote [] "" = .ok rendered
      ∧ ∃ block ∈ rendered.blocks, ∃ struct ∈ block.structs, ∃ m ∈ struct.metadata,
          m.category = .other ∧ m.text <:+: twoLineNote ∧ ¬ m.text <:+: rendered.text := by
  obtain ⟨rendered, h, listed, absent⟩ := exists_ok_of_decide (x := transform twoLineNote [] "")
    (p := fun r => r.blocks.map (fun b => b.structs.map (·.metadata))
          = [[[⟨.other, "#[note(\"a\nb\")]", []⟩]]]
        ∧ ¬ ("#[note(\"a\nb\")]" : Text) <:+: r.text)
    (by decide +kernel)
  obtain ⟨block, eq, hblock⟩ := List.map_eq_singleton_iff.mp listed
  obtain ⟨struct, eq', hstruct⟩ := List.map_eq_singleton_iff.mp hblock
  refine ⟨rendered, h, block, by rw [eq]; simp, struct, by rw [eq']; simp, _,
    by rw [hstruct]; exact List.mem_cons_self, rfl, by decide +kernel, absent⟩

end EnumExtract
