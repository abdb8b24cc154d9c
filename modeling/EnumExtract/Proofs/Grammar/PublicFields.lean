/-
  EnumExtract.Proofs.Grammar.PublicFields
  ────────────────────────────────
  The fields of a struct as they are printed, and what their reader makes of
  them.

      field   remarks, `pub`, a name and a colon in a named struct, a type
      list    fields with a comma between two, or behind each

  A remark here is any attribute or doc comment that has been read, so its text
  is not in the grammar of attributes.  What stands in front of the
  label is therefore known by its leaves, and what stands behind `pub` by its tokens.

  Main results:
    • `Attribute.OneLine.exists_remark`   an attribute on one line is a remark,
    • `PublicField.read`                  a printed field is read as it is printed,
    • `PublicField.ListedAs.readList`     and so is a list of them in brackets.
-/
import EnumExtract.Proofs.Grammar.Collapsed
import Mathlib.Data.List.DropRight

namespace EnumExtract

open Cursor

/-! ## §1. Attributes on one line. -/

/-- An attribute in brackets or a `///` comment, as it has been read in some prelude, without a line break. -/
structure Attribute.OneLine (a : Attribute) : Prop where
  read : ∃ c attrs head, Cursor.readPrelude c = .ok (attrs, head) ∧ a ∈ attrs
  begins : Text.startsWith a.text "#[" = true ∨ Text.startsWith a.text "///" = true
  plain : ∀ ch ∈ a.text, isLineBreak ch = false

/-- The remark stands on one line, on which `x` is what is carried along of it. -/
inductive Remark.OnLine : Remark → Text → Prop where
  | doc {d : DocComment} (line : d.text = d.shown ++ "\n") : OnLine (.doc d) d.shown
  | bracketed (a : ReadAttribute) : OnLine (.bracketed a) a.text

theorem Remark.OnLine.shown {r : Remark} {x : Text} (h : r.OnLine x) : r.shown = x := by
  cases h <;> rfl

theorem Text.trimEnd_trimEnd (t : Text) : t.trimEnd.trimEnd = t.trimEnd := by
  rw [trimEnd, trimEnd, List.reverse_reverse, List.dropWhile_idempotent]

/-- The text of a doc comment stands where it has been read. -/
theorem Cursor.DocAt.exists_ahead {p : Cursor} {a : Attribute} (h : DocAt p a) : ∃ v, p.ahead = a.text ++ v := by
  obtain ⟨n, _, rfl⟩ := h.exists_lexeme
  obtain ⟨b, cut, _⟩ := Text.exists_trimEnd_append (p.ahead.take n)
  refine ⟨b ++ p.ahead.drop n, ?_⟩
  rw [← List.append_assoc, ← cut, List.take_append_drop]

theorem Remark.map_shown {rs : List Remark} {xs : List Text} (h : List.Forall₂ OnLine rs xs) :
    rs.map (·.shown) = xs := by
  induction h with
  | nil => rfl
  | cons first _ ih => rw [List.map_cons, first.shown, ih]

/-- What remarks are read as has their texts. -/
theorem Remark.map_text_of_readAs {c : Cursor} {rs : List Remark} {attrs : List Attribute}
    (h : List.Forall₂ (Remark.ReadAs c) rs attrs) : attrs.map (·.text) = rs.map (·.shown) := by
  induction h with
  | nil => rfl
  | @cons r attr rs attrs first rest ih =>
      obtain ⟨p, w, _, _, rfl⟩ := first
      rw [List.map_cons, List.map_cons, ih, r.text_placed]

/-- A doc comment with three slashes that has been read is one on a line of its own. -/
theorem Cursor.DocAt.exists_docComment {p : Cursor} {a : Attribute} (h : DocAt p a)
    (begins : Text.startsWith a.text "///" = true) (plain : ∀ ch ∈ a.text, isLineBreak ch = false) :
    ∃ d : DocComment, d.shown = a.text ∧ d.text = a.text ++ "\n" := by
  obtain ⟨v, ahead⟩ := h.exists_ahead
  obtain ⟨n, _, rfl⟩ := h.exists_lexeme
  obtain ⟨body, eq⟩ := List.isPrefixOf_iff_prefix.mp begins
  have eq : "///" ++ body = Text.trimEnd (p.ahead.take n) := eq
  rw [← eq] at plain ahead
  have noSlash : body.head? ≠ some '/' := by
    intro slash
    obtain ⟨u, rfl⟩ := List.head?_eq_some_iff.mp slash
    have starts := h.starts
    rw [ahead] at starts
    cases starts
  have line : '\n' ∉ body := fun mem => by cases plain '\n' (List.mem_append_right _ mem)
  refine ⟨⟨body, line, noSlash⟩, ?_, ?_⟩
  · show Text.trimEnd ("///" ++ body) = _
    rw [eq, Text.trimEnd_trimEnd]
  · show "///" ++ body ++ "\n" = _
    rw [eq]

/-- **An attribute on one line is a remark.** -/
theorem Attribute.OneLine.exists_remark {a : Attribute} (h : a.OneLine) :
    ∃ r : Remark, r.OnLine a.text ∧ ∀ offset, (r.placed offset).path = a.path := by
  obtain ⟨c, attrs, head, read, mem⟩ := h.read
  obtain ⟨p, placed⟩ := ((readPrelude_ok_iff.mp read).laid (Level.start c).near).placed a mem
  rcases placed.kind with doc | bracketed
  · have begins : Text.startsWith a.text "///" = true := by
      refine h.begins.resolve_left fun bracket => ?_
      obtain ⟨u, eq⟩ := List.isPrefixOf_iff_prefix.mp bracket
      obtain ⟨v, ahead⟩ := doc.exists_ahead
      have starts := doc.starts
      rw [ahead, ← eq] at starts
      cases starts
    obtain ⟨d, shown, text⟩ := doc.exists_docComment begins h.plain
    refine ⟨.doc d, ?_, fun _ => ?_⟩
    · rw [← shown] at text ⊢
      exact .doc text
    · obtain ⟨n, _, rfl⟩ := doc.exists_lexeme
      rfl
  · exact ⟨.bracketed ⟨a, p, bracketed.sees, bracketed.read⟩, .bracketed _, fun _ => rfl⟩

/-- The lines with a line feed behind each. -/
def Text.ended (lines : List Text) : Text :=
  lines.flatMap (· ++ ['\n'])

theorem Text.ended_cons (line : Text) (lines : List Text) :
    ended (line :: lines) = line ++ '\n' :: ended lines := by
  simp [ended]

section Lines

variable {tail w : Text} {ls : List Leaf}

/-- A remark on a line in front of other leaves. -/
theorem Printed.line {r : Remark} {x : Text} (h : r.OnLine x) (rest : Printed tail ls w) :
    Printed tail (.remark r :: ls) (x ++ '\n' :: w) := by
  cases h with
  | @doc d line =>
      have leaf := rest.leaf (l := .remark (.doc d)) trivial
      rw [show (Leaf.remark (.doc d)).text = d.shown ++ "\n" from line, List.append_assoc] at leaf
      exact leaf
  | bracketed a => exact (rest.gap IsGap.feed).leaf (l := .remark (.bracketed a)) (fun tick => by cases tick)

/-- Remarks on lines of their own. -/
theorem Printed.lines {indent : Text} (blank : IsGap indent) (rest : Printed tail ls w) {rs : List Remark}
    {xs : List Text} (h : List.Forall₂ Remark.OnLine rs xs) :
    Printed tail (rs.map .remark ++ ls) (Text.ended (xs.map (indent ++ ·)) ++ w) := by
  induction h with
  | nil => exact rest
  | @cons r x rs xs first _ ih =>
      have line := (Printed.line first ih).gap blank
      rw [List.map_cons, List.map_cons, Text.ended_cons]
      simpa using line

end Lines

/-! ## §2. Fields. -/

theorem pub_reserved : ("pub" : Text) ∈ reservedWords := by
  decide

/-- A field of a struct; a positional field has no label. -/
structure PublicField where
  remarks : List Remark
  label? : Option Identifier
  type : TypeSyntax
  unjoined : Token.Unjoined type.tokens

namespace PublicField

variable (f : PublicField)

/-- What stands behind `pub`. -/
def tokens : List Token :=
  FieldSyntax.label f.label? ++ f.type.tokens

def leaves : List Leaf :=
  f.remarks.map .remark ++ .keyword "pub" pub_reserved :: f.tokens.flatMap Token.leaves

/-- The text writes the field, and `x` stands behind it.  What stands behind `pub` is not
taken for a scope. -/
inductive WrittenAs (x : Text) : Text → Prop where
  | mk {mid t : Text} (head : Printed mid (f.remarks.map .remark ++ [.keyword "pub" pub_reserved]) t)
      (spells : Spaced x f.tokens mid) (still : mid.Still) (noScope : scopeLength? mid = none) : WrittenAs x t

/-- The field has the name, the type and the attributes that are written. -/
structure IsReadAs (field : Field) : Prop where
  name : field.name = f.label?.map (·.text)
  type : field.type.tokens = f.type.tokens.flatMap Token.parts
  attrs : field.attrs = f.remarks.map (·.shown)

theorem noNote : ∀ tok ∈ f.tokens, tok.isNote = false :=
  FieldSyntax.noNote_label f.label? f.type.noNote

theorem track (o : Opened) : o.track f.tokens = some o :=
  FieldSyntax.track_label f.label? (f.type.track o)

theorem unjoined_tokens : Token.Unjoined f.tokens :=
  FieldSyntax.unjoined_label f.label? f.unjoined

/-- A label or a type comes first. -/
theorem exists_first : ∃ (tok : Token) (us : List Token), f.tokens = tok :: us ∧ tok.isNote = false :=
  FieldSyntax.exists_firstToken f.label? f.type.beginType.ne_nil f.type.noNote

variable {f} {x t : Text} {c d : Cursor}

theorem WrittenAs.gap {gap : Text} (blank : IsGap gap) (h : f.WrittenAs x t) : f.WrittenAs x (gap ++ t) := by
  cases h with
  | mk head spells still noScope => exact .mk (head.gap blank) spells still noScope

/-- A written field is one of its leaves. -/
theorem WrittenAs.printed (h : f.WrittenAs x t) : Printed x f.leaves t := by
  cases h with
  | mk head spells =>
      have all := head.append spells.printed
      rw [List.append_assoc] at all
      exact all

end PublicField

/-! ## §3. Reading a field. -/

section Heads

variable {tail w : Text} {o : Opened} {c : Cursor} {mem : ("pub" : Text) ∈ reservedWords}

theorem Remark.reading {r : Remark} (eq : c.ahead = r.text ++ w) (apart : r.Apart w) (clear : c.Clear) :
    Token.Reading c r.text o o ∧ (c.advance r.text.length).Clear := by
  cases r with
  | doc d =>
      have apart : (Token.note (.doc d)).Apart w := trivial
      exact ⟨Token.reading eq apart clear rfl, Token.clear eq apart⟩
  | bracketed a =>
      obtain ⟨inner, shape⟩ := a.exists_text
      exact ⟨ReadAttribute.reading eq apart,
        .behind ('#' :: '[' :: inner) ']' eq (by rw [Remark.text, shape]; rfl) rfl⟩

/-- Remarks and `pub` open nothing. -/
theorem Printed.carries : ∀ {rs : List Remark} {c : Cursor},
    Printed tail (rs.map .remark ++ [.keyword "pub" mem]) c.ahead → c.Clear →
      ∃ u, c.ahead = u ++ tail ∧ Token.Reading c u o o ∧ (c.advance u.length).Clear := by
  intro rs
  induction rs with
  | nil =>
      intro c h clear
      generalize eq : c.ahead = t at h
      cases h with
      | @cons b w _ _ blank apart rest =>
          cases rest with
          | @nil b' blank' =>
              have ahead : (c.advance b.length).ahead = "pub" ++ (b' ++ tail) := ahead_advance eq
              have word := Token.reading_word (o := o) ahead (by decide) (plainWord_sealed isIdentifier_pub ahead apart)
              have behind := ahead_advance ahead
              have clear' : ((c.advance b.length).advance ("pub" : Text).length).Clear :=
                .behindWord ahead (by decide) (by decide) fun ch first => (apart ch first).1
              refine ⟨b ++ ("pub" ++ b'), by simp [Leaf.text],
                (Token.reading_gap blank eq).append (word.append (Token.reading_gap blank' behind)), ?_⟩
              have last := clear'.gap blank' behind
              rwa [advance_advance, advance_advance, ← List.length_append, ← List.length_append] at last
  | cons r rs ih =>
      intro c h clear
      generalize eq : c.ahead = t at h
      cases h with
      | @cons b w _ _ blank apart rest =>
          have ahead : (c.advance b.length).ahead = r.text ++ w := ahead_advance eq
          obtain ⟨reading, clear'⟩ := Remark.reading (o := o) ahead apart (clear.gap blank eq)
          have behind := ahead_advance ahead
          rw [← behind] at rest
          obtain ⟨u, more, reading', clear''⟩ := ih rest clear'
          refine ⟨b ++ (r.text ++ u), ?_, (Token.reading_gap blank eq).append (reading.append reading'), ?_⟩
          · rw [behind] at more
            simp [Leaf.text, more]
          · rwa [advance_advance, advance_advance, ← List.length_append, ← List.length_append] at clear''

/-- What skips trivia stops at an attribute or at `pub`. -/
theorem Printed.skip : ∀ {rs : List Remark} {c : Cursor},
    Printed tail (rs.map .remark ++ [.keyword "pub" mem]) c.ahead → c.Fresh →
      ∃ x, Trivia false c x ∧ tail.length < x.ahead.length := by
  have longer {l : Leaf} {ls : List Leaf} {w : Text} {d : Cursor} (h : Stands tail l ls d w) (more : l.text ≠ []) :
      tail.length < d.ahead.length := by
    have pos := List.length_pos_of_ne_nil more
    have le := h.rest.length_le
    rw [h.ahead, List.length_append]
    omega
  intro rs
  induction rs with
  | nil =>
      intro c h fresh
      obtain ⟨x, w, trivia, stands⟩ := Printed.trivia (l := .keyword "pub" mem) h fresh rfl
      exact ⟨x, trivia false, longer stands (List.cons_ne_nil _ _)⟩
  | cons r rs ih =>
      intro c h fresh
      obtain ⟨b, d, w, eq, blank, rfl, stands⟩ := Printed.toFirst h fresh
      cases r with
      | doc d =>
          have ahead : (c.advance b.length).ahead = d.text ++ w := stands.ahead
          obtain ⟨rest, fresh'⟩ := stands.behind
          obtain ⟨x, trivia, lt⟩ := ih rest fresh'
          have first : (c.advance b.length).ahead.head? = some '/' := by rw [ahead]; rfl
          refine ⟨x, .blanks eq blank (.pass ?_ trivia), lt⟩
          rw [trivium?_of_notBlank first rfl, DocComment.comment? ahead]
          rfl
      | bracketed a =>
          obtain ⟨inner, shape⟩ := a.exists_text
          have first : (c.advance b.length).ahead.head? = some '#' := by
            rw [stands.ahead, Leaf.text, Remark.text, shape]
            rfl
          refine ⟨_, .blanks eq blank (.stop (trivium?_of_first first rfl (by decide))), longer stands ?_⟩
          rw [Leaf.text, Remark.text, shape]
          exact List.cons_ne_nil _ _

end Heads

namespace PublicField

variable {f : PublicField} {x t : Text} {c d : Cursor}

/-- A written field opens nothing, and it is not cut. -/
theorem WrittenAs.carries (h : f.WrittenAs x c.ahead) (clear : c.Clear) :
    ∃ code d, Reads c code d ∧ d.ahead = x ∧ d.Clear ∧ Carries code .start .start := by
  generalize eq : c.ahead = t at h
  cases h with
  | @mk mid _ head spells =>
      rw [← eq] at head
      obtain ⟨u, cut, ⟨code, reads, carries⟩, clear'⟩ := head.carries clear
      rw [← ahead_advance cut] at spells
      obtain ⟨more, d, reads', ahead, clear'', carries'⟩ := spells.reads clear' (f.track .start)
      exact ⟨code ++ more, d, reads.trans reads', ahead, clear'', carries.append carries'⟩

/-- **A written field is read as it is written.** -/
theorem WrittenAs.read (h : f.WrittenAs d.ahead c.ahead) (fresh : c.Fresh) (onward : c.LeadsTo d) :
    ∃ field, Field.read f.label?.isSome ⟨c, d.offset⟩ = .ok field ∧ f.IsReadAs field := by
  generalize eq : c.ahead = t at h
  cases h with
  | @mk mid _ head spells still noScope =>
      rw [← eq] at head
      obtain ⟨attrs, at', w, prelude, readAs, stands⟩ :=
        Printed.prelude (l := .keyword "pub" pub_reserved) rfl head fresh
      -- `pub` alone is the visibility, and the label or the type is behind it
      have pub : at'.identifier? = some (("pub" : Text), at'.advance 3) := stands.identifier? rfl
      obtain ⟨rest, _⟩ := stands.behind
      obtain ⟨gap, ahead, blank⟩ : ∃ gap, (at'.advance 3).ahead = gap ++ mid ∧ IsGap gap := by
        generalize behind : (at'.advance (Leaf.keyword "pub" pub_reserved).text.length).ahead = t at rest
        cases rest with
        | nil blank => exact ⟨_, behind, blank⟩
      have here := ahead_advance ahead
      have clear : ((at'.advance 3).advance gap.length).Clear :=
        Clear.gap (.behindWord (u := "pub") stands.ahead (by decide) (by decide)
          fun ch first => (stands.apart ch first).1) blank ahead
      generalize hplace : (at'.advance 3).advance gap.length = place at here clear
      rw [← here] at spells still noScope
      have toPlace : Trivia false (at'.advance 3) place := by
        rw [← hplace] at still ⊢
        exact .blanks ahead blank (.stop still.trivium?)
      have toType : c.LeadsTo place :=
        prelude.leadsTo.trans ((leadsTo_identifier pub).1.trans toPlace.leadsTo)
      have toEnd : place.LeadsTo d := spells.leadsTo toType onward
      have atPlace : At d.ahead (FieldSyntax.label f.label? ++ f.type.tokens) place := ⟨spells, still, clear⟩
      obtain ⟨found, label, names, spaced, toEnd', clear'⟩ :=
        FieldSyntax.exists_label f.type.beginType f.type.noNote atPlace toEnd
      have text := spaced.upTo toEnd'
      have written := spaced.withoutComments toEnd' clear' (f.type.track .start) f.type.noNote
      obtain ⟨tok, us, first, _⟩ := f.exists_first
      have inside : place.offset < d.offset := by
        rw [first] at spells
        exact spells.offset_lt toType onward
      have kind : f.label?.isSome = found.isSome := by
        have same := congrArg Option.isSome names
        rwa [Option.isSome_map, Option.isSome_map, eq_comm] at same
      generalize (place.advance (found.elim 0 (·.2))).upTo d.offset = w at text written
      refine ⟨⟨found.map (·.1), FieldType.ofText (Text.trim w), attrs.map (·.text)⟩,
        Field.read_ok_iff.mpr ⟨attrs, "pub", at', at'.advance 3, place, w, ?_⟩, ?_⟩
      · constructor
        case prelude => exact prelude
        case visible => exact .bare pub toPlace noScope
        case toLabel => exact toPlace
        case inside => exact inside
        case kind =>
          rw [label]
          exact kind
        case type =>
          rw [label]
          exact written
        case nonempty => exact List.isEmpty_eq_false_iff.mpr (text.trim_ne_nil f.type.noNote f.type.beginType.ne_nil)
        case eq => rw [label]
      · constructor
        case name => exact names
        case type =>
          show FieldType.tokenize _ = _
          rw [FieldType.tokenize_trim, text.tokenize f.type.noNote]
        case attrs => exact Remark.map_text_of_readAs readAs

/-- A written field fills its piece. -/
theorem WrittenAs.isFilled (h : f.WrittenAs d.ahead c.ahead) (fresh : c.Fresh) (onward : c.LeadsTo d) :
    (Piece.mk c d.offset).isFilled = .ok true := by
  generalize eq : c.ahead = t at h
  cases h with
  | @mk mid _ head spells =>
      rw [← eq] at head
      obtain ⟨x, trivia, lt⟩ := head.skip fresh
      obtain ⟨u, rfl, _⟩ := spells.exists_text
      rw [List.length_append] at lt
      have ends := trivia.leadsTo.end_eq
      have ends' := onward.end_eq
      have before : x.offset < d.offset := by omega
      exact Piece.isFilled_ok_iff.mpr ⟨x, trivia, (decide_eq_true before).symm⟩

/-! ## §4. Lists of fields. -/

/-- The text writes the fields with commas between them, or behind each, and `tail` stands behind. -/
inductive ListedAs (tail : Text) : List PublicField → Text → Prop where
  | nil {gap : Text} (blank : IsGap gap) : ListedAs tail [] (gap ++ tail)
  | last {f : PublicField} {t : Text} (h : f.WrittenAs tail t) : ListedAs tail [f] t
  | more {f : PublicField} {fs : List PublicField} {t u : Text} (h : f.WrittenAs (',' :: u) t)
      (rest : ListedAs tail fs u) : ListedAs tail (f :: fs) t

/-- The piece is filled, and the field is read of it. -/
def IsReadOf (named : Bool) (f : PublicField) (p : Piece) : Prop :=
  p.isFilled = .ok true ∧ ∃ field, Field.read named p = .ok field ∧ f.IsReadAs field

variable {fs : List PublicField} {w : Text} {closer : Char} {named : Bool}

/-- The piece up to the end of a written field. -/
theorem WrittenAs.isReadOf (h : f.WrittenAs d.ahead c.ahead) (kind : f.label?.isSome = named) (fresh : c.Fresh)
    (onward : c.LeadsTo d) : f.IsReadOf named ⟨c, d.offset⟩ := by
  refine ⟨h.isFilled fresh onward, ?_⟩
  rw [← kind]
  exact h.read fresh onward

/-- **The stretches of a list are those of its fields.** -/
theorem ListedAs.cut (closes : isCloser closer = true) (h : ListedAs (closer :: w) fs t) :
    ∀ {c : Cursor}, c.ahead = t → c.Fresh → c.Clear → (∀ f ∈ fs, f.label?.isSome = named) →
      ∃ code d, Reads c code d ∧ Balanced code ∧ d.ahead = closer :: w
        ∧ Fills (IsReadOf named) fs ((Cutting.over ⟨[], c, 0, 0⟩ code).pieces d.offset) := by
  induction h with
  | @nil gap blank =>
      intro c eq fresh clear kind
      obtain ⟨code, reads, carries⟩ := Token.reading_gap (o := .start) blank eq
      have ahead := ahead_advance eq
      have firm : Text.Firm (c.advance gap.length).ahead := by
        rw [ahead]
        exact .of_isCloser closes
      refine ⟨code, _, reads, carries.balanced, ahead, ?_⟩
      rw [carries.uncut]
      refine .empty (Piece.isFilled_ok_iff.mpr ⟨_, .blanks eq blank (.stop firm.still.trivium?), ?_⟩)
      exact (decide_eq_false (Nat.lt_irrefl _)).symm
  | @last f t h =>
      intro c eq fresh clear kind
      subst eq
      obtain ⟨code, d, reads, ahead, _, carries⟩ := h.carries clear
      refine ⟨code, d, reads, carries.balanced, ahead, ?_⟩
      rw [carries.uncut]
      rw [← ahead] at h
      exact .last (h.isReadOf (kind f List.mem_cons_self) fresh reads.leadsTo)
  | @more f fs t u h rest ih =>
      intro c eq fresh clear kind
      subst eq
      obtain ⟨code, y, reads, comma, _, carries⟩ := h.carries clear
      obtain ⟨more, d, reads', balanced', ahead, fills⟩ := ih (c := y.advance 1)
        (by rw [advance_ahead, comma]; rfl) (.behind (u := []) comma rfl)
        (.behind (u := [',']) (w := u) [] ',' comma rfl rfl)
        fun f mem => kind f (List.mem_cons_of_mem _ mem)
      refine ⟨code ++ (y, ',') :: more, d, reads.comma comma reads', carries.balanced.comma balanced', ahead, ?_⟩
      rw [carries.pieces_comma]
      rw [← comma] at h
      exact .more (h.isReadOf (kind f List.mem_cons_self) fresh reads.leadsTo) fills

/-- **A list of fields in brackets is read as it is written.** -/
theorem ListedAs.readList {opening : Cursor} {opener : Char} {v : Text} (opens : opening.ahead = opener :: v)
    (pair : closer? opener = some closer) (h : ListedAs (closer :: w) fs v)
    (kind : ∀ f ∈ fs, f.label?.isSome = named) :
    ∃ close fields, opening.closing = .ok close ∧ close.ahead = closer :: w
      ∧ Field.readList opening close.offset named = .ok fields ∧ List.Forall₂ IsReadAs fs fields := by
  obtain ⟨code, close, reads, balanced, ahead, fills⟩ := h.cut (isCloser_of_closer? pair).1
    (c := opening.advance 1) (by rw [advance_ahead, opens]; rfl)
    (.behind (u := []) opens (not_isWord_of_closer? pair))
    (.behind (u := [opener]) (w := v) [] opener opens rfl (isClearing_of_closer? pair)) kind
  obtain ⟨closing, ps, pieces, holds⟩ := fills.pieces opens pair reads balanced ahead fun f _ p h => h.1
  obtain ⟨fields, read, readAs⟩ := exists_mapM_of_forall₂ (f := Field.read named) holds fun h => h.2
  exact ⟨close, fields, closing, ahead, bind_ok_iff.mpr ⟨ps, pieces, read⟩, readAs⟩

/-! ## §5. Fields in bodies. -/

theorem closed_leaves (f : PublicField) : Closed f.leaves := by
  obtain ⟨tok, us, eq, plain⟩ := f.exists_first
  obtain ⟨l, vs, leaves, noRemark, _⟩ := Token.exists_firstLeaf plain
  have type : Closed (f.tokens.flatMap Token.leaves) := .tokens f.track f.unjoined_tokens f.noNote
  refine .remarks f.remarks ⟨type.closed, fun {ms} isBody stop => ⟨⟨rfl, fun l' first => ?_⟩, type.isBody isBody stop⟩⟩
  rw [eq, List.flatMap_cons, leaves] at first
  cases first
  exact noRemark

/-- A written list is one of leaves that may stand in a body. -/
theorem ListedAs.printed {tail : Text} (h : ListedAs tail fs t) : ∃ ls, Printed tail ls t ∧ Closed ls := by
  induction h with
  | nil blank => exact ⟨[], .nil blank, .nil⟩
  | @last f t h => exact ⟨f.leaves, h.printed, f.closed_leaves⟩
  | @more f fs t u h rest ih =>
      obtain ⟨ls, printed, closed⟩ := ih
      exact ⟨_, Printed.append h.printed (printed.symbol _ (by decide)), f.closed_leaves.comma closed⟩

end PublicField

end EnumExtract
