/-
  EnumExtract.Proofs.Prelude
  ────────────────────────────────
  Attributes and preludes as relations, and where in a reading they lie.

  `AttributeParts` and `Prelude` are the runs of `readAttribute` and of
  `readPrelude`.

  Main results:
    • `readAttribute_ok_iff`, `readPrelude_ok_iff`   readers and relations agree,
    • `Prelude.exists_of_append`   the rest of a prelude is a prelude,
    • `Prelude.laid`               the attributes of a prelude follow one another
                                   on its own level, and hold all its code.
-/
import EnumExtract.Proofs.Trivia
import EnumExtract.Source.Attribute

namespace EnumExtract

/-! ## §1. Doc comments as text. -/

/-- What is cut off at the end of a text is blank. -/
theorem Text.exists_trimEnd_append (t : Text) :
    ∃ b : Text, t = t.trimEnd ++ b ∧ ∀ ch ∈ b, EnumExtract.isBlank ch = true := by
  refine ⟨(t.reverse.takeWhile EnumExtract.isBlank).reverse, ?_, ?_⟩
  · rw [trimEnd, ← List.reverse_append, List.takeWhile_append_dropWhile, List.reverse_reverse]
  · intro ch mem
    rw [List.mem_reverse] at mem
    exact List.all_eq_true.mp List.all_takeWhile ch mem

theorem Text.trimEnd_ne_nil {t : Text} {ch : Char} (mem : ch ∈ t)
    (plain : EnumExtract.isBlank ch = false) : t.trimEnd ≠ [] := by
  intro empty
  obtain ⟨b, eq, blank⟩ := t.exists_trimEnd_append
  rw [empty, List.nil_append] at eq
  rw [eq] at mem
  rw [blank ch mem] at plain
  cases plain

/-- A doc comment begins as a line comment or as a block comment. -/
theorem exists_of_startsDocComment {t : Text} (h : startsDocComment t = true) :
    (∃ rest, t = '/' :: '/' :: '/' :: rest) ∨ (∃ rest, t = '/' :: '*' :: '*' :: rest) := by
  rw [startsDocComment] at h
  split at h
  next line =>
    obtain ⟨rest, eq⟩ := List.isPrefixOf_iff_prefix.mp line
    exact .inl ⟨rest, eq.symm⟩
  next =>
    rw [Bool.and_eq_true] at h
    obtain ⟨rest, eq⟩ := List.isPrefixOf_iff_prefix.mp h.1
    exact .inr ⟨rest, eq.symm⟩

namespace Cursor

variable {o c d e : Cursor} {n : Nat} {m : Int}

/-! ## §2. Attributes. -/

/-- What the reader of the attribute at `p` has found: where its bracket closes, where its
path begins and what follows the path. -/
structure AttributeParts (p : Cursor) (a : Attribute) (close head next : Cursor) : Prop where
  closing : (p.advance 1).closing = .ok close
  toPath : Trivia false (p.advance 2) head
  named : Text.pathLength (head.upTo close.offset) ≠ 0
  toArgs : Trivia false (head.advance (Text.pathLength (head.upTo close.offset))) next
  path : a.path = Text.unspaced (head.ahead.take (Text.pathLength (head.upTo close.offset)))
  text : a.text = p.upTo (close.offset + 1)
  start : a.start = p.offset
  stop : a.stop = close.offset + 1
  args : ((next.offset < close.offset ∧ next.sees "(" = true) ∧ ∃ argsClose,
        next.closing = .ok argsClose
          ∧ a.args = some ⟨(next.advance 1).upTo argsClose.offset, next.offset + 1⟩)
      ∨ (¬ (next.offset < close.offset ∧ next.sees "(" = true) ∧ a.args = none)

theorem readAttribute_ok_iff {p : Cursor} {a : Attribute} :
    p.readAttribute = .ok a ↔ ∃ close head next, AttributeParts p a close head next := by
  rw [readAttribute]
  simp only [bind_ok_iff]
  constructor
  · rintro ⟨close, closing, head, toPath, h⟩
    split at h
    next => cases h
    next named =>
      obtain ⟨next, toArgs, h⟩ := bind_ok_iff.mp h
      refine ⟨close, head, next, ?_⟩
      rw [skipTrivia_ok_iff] at toPath toArgs
      split at h
      next args =>
        obtain ⟨argsClose, hargs, h⟩ := bind_ok_iff.mp h
        cases h
        rw [Bool.and_eq_true, decide_eq_true_iff] at args
        exact ⟨closing, toPath, named, toArgs, rfl, rfl, rfl, rfl, .inl ⟨args, argsClose, hargs, rfl⟩⟩
      next args =>
        cases h
        rw [Bool.and_eq_true, decide_eq_true_iff] at args
        exact ⟨closing, toPath, named, toArgs, rfl, rfl, rfl, rfl, .inr ⟨args, rfl⟩⟩
  · rintro ⟨close, head, next, h⟩
    refine ⟨close, h.closing, head, skipTrivia_ok_iff.mpr h.toPath, ?_⟩
    rw [if_neg h.named]
    refine bind_ok_iff.mpr ⟨next, skipTrivia_ok_iff.mpr h.toArgs, ?_⟩
    obtain ⟨path, text, start, stop, args⟩ := a
    have eqs := And.intro h.path (And.intro h.text (And.intro h.start h.stop))
    simp only at eqs
    obtain ⟨rfl, rfl, rfl, rfl⟩ := eqs
    rcases h.args with ⟨some, argsClose, hargs, eq⟩ | ⟨none, eq⟩
    · simp only at eq
      subst eq
      rw [if_pos (by rw [Bool.and_eq_true, decide_eq_true_iff]; exact some)]
      exact bind_ok_iff.mpr ⟨argsClose, hargs, rfl⟩
    · simp only at eq
      subst eq
      rw [if_neg (by rw [Bool.and_eq_true, decide_eq_true_iff]; exact none)]
      rfl

/-- The bracketed attribute `a` stands at `p`, a place of the reading from `o`. -/
structure Bracketed (o p : Cursor) (m : Int) (a : Attribute) : Prop where
  code : CodeAt o p '#' m
  sees : p.sees "#[" = true
  read : p.readAttribute = .ok a

theorem sees_iff {p : Cursor} {word : Text} : p.sees word = true ↔ ∃ rest, p.ahead = word ++ rest := by
  rw [sees, Text.startsWith, List.isPrefixOf_iff_prefix]
  constructor
  · rintro ⟨rest, eq⟩
    exact ⟨rest, eq.symm⟩
  · rintro ⟨rest, eq⟩
    exact ⟨rest, eq.symm⟩

theorem length_le_of_sees {p : Cursor} {word : Text} (h : p.sees word = true) :
    word.length ≤ p.ahead.length :=
  (List.isPrefixOf_iff_prefix.mp h).length_le

theorem first_of_sees {p : Cursor} {ch : Char} (h : p.sees [ch] = true) : p.ahead.head? = some ch := by
  obtain ⟨rest, eq⟩ := sees_iff.mp h
  rw [eq]
  rfl

theorem Level.hash {p : Cursor} (h : Level o p m) (sees : p.sees "#[" = true) : CodeAt o p '#' m := by
  obtain ⟨rest, eq⟩ := sees_iff.mp sees
  have first : p.ahead.head? = some '#' := by rw [eq]; rfl
  refine ⟨h, lexeme?_eq_none fun ch first' => ?_, first⟩
  rw [first] at first'
  cases first'
  rfl

theorem Bracketed.start {p : Cursor} {a : Attribute} (h : Bracketed o p m a) : a.start = p.offset := by
  obtain ⟨close, head, next, parts⟩ := readAttribute_ok_iff.mp h.read
  exact parts.start

/-- What is between the brackets of an attribute, and the place behind it. -/
theorem Bracketed.encloses {p : Cursor} {a : Attribute} (h : Bracketed o p m a) :
    ∃ code close, Encloses (p.advance 1) code close ∧ a.stop = close.offset + 1
      ∧ Level o (p.advance 1) m ∧ p.advance (a.stop - a.start) = close.advance 1
      ∧ close.ahead.head? = some ']' := by
  obtain ⟨close, head, next, parts⟩ := readAttribute_ok_iff.mp h.read
  obtain ⟨code, encloses⟩ := closing_ok_iff.mp parts.closing
  obtain ⟨rest, eq⟩ := sees_iff.mp h.sees
  have bracket := h.code.next
  rw [show bracketWeight '#' = 0 from rfl, Int.add_zero] at bracket
  refine ⟨code, close, encloses, parts.stop, bracket, ?_, ?_⟩
  · have all := (leadsTo_first h.code.first).trans encloses.leadsTo
    rw [all.eq_advance, advance_offset, parts.start, parts.stop]
  · obtain ⟨opener, closer, first, hcloser, hlast⟩ := encloses.closes
    rw [advance_ahead, eq] at first
    cases first
    cases hcloser
    exact hlast

theorem Bracketed.lt {p : Cursor} {a : Attribute} (h : Bracketed o p m a) : a.start + 2 ≤ a.stop := by
  obtain ⟨code, close, encloses, stop, _⟩ := h.encloses
  have := encloses.lt
  rw [advance_offset] at this
  rw [h.start, stop]
  omega

theorem Bracketed.level_after {p : Cursor} {a : Attribute} (h : Bracketed o p m a) :
    Level o (p.advance (a.stop - a.start)) m := by
  obtain ⟨code, close, encloses, _, level, eq, _⟩ := h.encloses
  rw [eq]
  exact encloses.level_after level

/-- Strictly inside an attribute everything is deeper than the attribute. -/
theorem Bracketed.deeper {p x : Cursor} {a : Attribute} {k : Int} (h : Bracketed o p m a)
    (hx : Level o x k) (lt : a.start + 1 < x.offset) (below : x.offset < a.stop) : m + 1 ≤ k := by
  obtain ⟨code, close, encloses, stop, level, _⟩ := h.encloses
  refine encloses.deeper level hx ?_ (by omega)
  rw [advance_offset, ← h.start]
  exact lt

/-- The doc comment `a` stands at `p`. -/
structure DocAt (p : Cursor) (a : Attribute) : Prop where
  starts : startsDocComment p.ahead = true
  read : p.readDocComment = .ok a

theorem comment?_of_startsDocComment {p : Cursor} (h : startsDocComment p.ahead = true) :
    p.comment? ≠ .ok none := by
  intro none
  obtain ⟨line, block⟩ := comment?_none none
  rcases exists_of_startsDocComment h with ⟨rest, eq⟩ | ⟨rest, eq⟩
  · exact line _ eq
  · exact block _ eq

theorem trivium?_of_doc (h : startsDocComment c.ahead = true) : c.trivium? true = .ok none := by
  have slash : ∃ rest, c.ahead = '/' :: rest := by
    rcases exists_of_startsDocComment h with ⟨rest, eq⟩ | ⟨rest, eq⟩
    · exact ⟨_, eq⟩
    · exact ⟨_, eq⟩
  obtain ⟨rest, eq⟩ := slash
  unfold trivium?
  rw [eq] at h ⊢
  simp only
  rw [if_neg (by decide), h]
  rfl

/-- A doc comment is a lexeme; as an attribute it leaves out the blanks at its end. -/
theorem DocAt.exists_lexeme {p : Cursor} {a : Attribute} (h : DocAt p a) :
    ∃ n, p.lexeme? = .ok (some n) ∧ a = ⟨"doc", Text.trimEnd (p.ahead.take n), p.offset,
      p.offset + (Text.trimEnd (p.ahead.take n)).length, none⟩ := by
  have read := h.read
  rw [readDocComment] at read
  obtain ⟨length?, hl, read⟩ := bind_ok_iff.mp read
  cases length? with
  | none => exact absurd (lexeme?_none_iff.mp hl).1 (comment?_of_startsDocComment h.starts)
  | some n =>
      cases read
      exact ⟨n, hl, rfl⟩

theorem DocAt.start {p : Cursor} {a : Attribute} (h : DocAt p a) : a.start = p.offset := by
  obtain ⟨n, _, rfl⟩ := h.exists_lexeme
  rfl

theorem DocAt.bounds {p : Cursor} {a : Attribute} (h : DocAt p a) :
    0 < a.stop - a.start ∧ a.stop - a.start ≤ p.ahead.length := by
  obtain ⟨n, hl, rfl⟩ := h.exists_lexeme
  have bounds := lexeme?_bounds hl
  obtain ⟨b, eq, _⟩ := Text.exists_trimEnd_append (p.ahead.take n)
  have slash : '/' ∈ p.ahead.take n := by
    have first : ∃ rest, p.ahead = '/' :: rest := by
      rcases exists_of_startsDocComment h.starts with ⟨rest, eq⟩ | ⟨rest, eq⟩
      · exact ⟨_, eq⟩
      · exact ⟨_, eq⟩
    obtain ⟨rest, eq⟩ := first
    rw [eq, show n = n - 1 + 1 from by omega, List.take_succ_cons]
    exact List.mem_cons_self
  have pos := List.length_pos_of_ne_nil (Text.trimEnd_ne_nil slash rfl)
  have total := congrArg List.length eq
  rw [List.length_append, List.length_take] at total
  simp only
  omega

/-- The place behind a doc comment is near the reading. -/
theorem DocAt.near {p : Cursor} {a : Attribute} (h : DocAt p a) (hp : Level o p m) :
    Near o (p.advance (a.stop - a.start)) m ∧ BlankCode o p.offset a.stop := by
  have bounds := h.bounds
  obtain ⟨n, hl, rfl⟩ := h.exists_lexeme
  obtain ⟨b, eq, blank⟩ := Text.exists_trimEnd_append (p.ahead.take n)
  have lexeme := lexeme?_bounds hl
  have total := congrArg List.length eq
  rw [List.length_append, List.length_take] at total
  have next := hp.reads (.lexeme hl (.here _))
  rw [chars_nil, level_nil, Int.add_zero] at next
  simp only [Nat.add_sub_cancel_left] at bounds ⊢
  generalize hk : (Text.trimEnd (p.ahead.take n)).length = k at *
  refine ⟨⟨p.advance n, next, hp.leadsTo.trans (leadsTo_advance bounds.2), ⟨n - k, ?_, ?_⟩, ?_⟩, ?_⟩
  · rw [advance_ahead, List.length_drop]
    omega
  · rw [advance_advance]
    congr 1
    omega
  · intro ch mem
    refine blank ch ?_
    rw [upTo, advance_offset, advance_offset, advance_ahead,
      show p.offset + n - (p.offset + k) = n - k from by omega, ← List.drop_take, eq,
      ← hk, List.drop_left] at mem
    exact mem
  · intro x ch m' hx le lt
    obtain ⟨before, after, eq', _⟩ := hx.mem hp (.lexeme hl (.here _)) le
      (by rw [advance_offset]; omega)
    simp at eq'

/-! ## §3. Preludes. -/

/-- The prelude from a cursor holds these attributes and ends at another cursor. -/
inductive Prelude : Cursor → List Attribute → Cursor → Prop where
  | stop {c : Cursor} (h : c.trivium? true = .ok none) (noDoc : startsDocComment c.ahead = false)
      (noAttribute : c.sees "#[" = false) : Prelude c [] c
  | trivia {c head : Cursor} {attrs : List Attribute} {n : Nat}
      (h : c.trivium? true = .ok (some n)) (rest : Prelude (c.advance n) attrs head) :
      Prelude c attrs head
  | doc {c head : Cursor} {a : Attribute} {attrs : List Attribute}
      (h : c.trivium? true = .ok none) (doc : DocAt c a)
      (rest : Prelude (c.advance (a.stop - a.start)) attrs head) : Prelude c (a :: attrs) head
  | bracketed {c head : Cursor} {a : Attribute} {attrs : List Attribute}
      (h : c.trivium? true = .ok none) (noDoc : startsDocComment c.ahead = false)
      (sees : c.sees "#[" = true) (read : c.readAttribute = .ok a)
      (rest : Prelude (c.advance (a.stop - a.start)) attrs head) : Prelude c (a :: attrs) head

theorem readAttribute_bounds {p : Cursor} {a : Attribute} (sees : p.sees "#[" = true)
    (h : p.readAttribute = .ok a) :
    0 < a.stop - a.start ∧ a.stop - a.start ≤ p.ahead.length := by
  have here : Bracketed p p 0 a := ⟨(Level.start p).hash sees, sees, h⟩
  have lt := here.lt
  have after := here.level_after.leadsTo.end_eq
  rw [advance_offset] at after
  omega

/-- The text through the character at a place. -/
theorem LeadsTo.upTo_succ {ch : Char} (h : c.LeadsTo d) (first : d.ahead.head? = some ch) :
    c.upTo (d.offset + 1) = c.upTo d.offset ++ [ch] := by
  obtain ⟨s, last⟩ := List.head?_eq_some_iff.mp first
  have length := h.length_upTo
  have forward := h.offset_le
  rw [upTo, h.ahead_eq, last, List.take_append, List.take_of_length_le (by omega),
    show d.offset + 1 - c.offset - (c.upTo d.offset).length = 1 from by omega, List.take_succ_cons,
    List.take_zero]

/-- The text of an attribute ends with its closing bracket. -/
theorem AttributeParts.text_eq {p close head next : Cursor} {a : Attribute}
    (h : AttributeParts p a close head next) (sees : p.sees "#[" = true) :
    p.LeadsTo close ∧ a.text = p.upTo close.offset ++ [']']
      ∧ ∃ s, p.ahead = p.upTo close.offset ++ ']' :: s := by
  have here : Bracketed p p 0 a :=
    ⟨(Level.start p).hash sees, sees, readAttribute_ok_iff.mpr ⟨close, head, next, h⟩⟩
  obtain ⟨code, close', encloses, stop, level, _, bracket⟩ := here.encloses
  have toClose := (encloses.level_closer level).leadsTo
  obtain rfl : close' = close := by
    refine LeadsTo.eq_of_offset toClose ?_ (by rw [h.stop] at stop; omega)
    obtain ⟨_, encloses'⟩ := closing_ok_iff.mp h.closing
    exact (encloses'.level_closer level).leadsTo
  obtain ⟨s, last⟩ := List.head?_eq_some_iff.mp bracket
  refine ⟨toClose, by rw [h.text, toClose.upTo_succ bracket], s, ?_⟩
  rw [← last]
  exact toClose.ahead_eq

/-- What one step of a prelude can do. -/
theorem preludeStep_ok_iff {attrs : List Attribute} {c : Cursor}
    {s : Step (List Attribute) (List Attribute × Cursor)} :
    preludeStep attrs c = .ok s ↔
      (∃ n, c.trivium? true = .ok (some n) ∧ s = .move attrs n)
        ∨ (c.trivium? true = .ok none ∧
            ((∃ a, DocAt c a ∧ s = .move (a :: attrs) (a.stop - a.start))
              ∨ (startsDocComment c.ahead = false ∧ c.sees "#[" = true ∧
                  ∃ a, c.readAttribute = .ok a ∧ s = .move (a :: attrs) (a.stop - a.start))
              ∨ (startsDocComment c.ahead = false ∧ c.sees "#[" = false
                  ∧ s = .stop (attrs.reverse, c)))) := by
  rw [preludeStep, bind_ok_iff]
  constructor
  · rintro ⟨length?, ht, h⟩
    cases length? with
    | some n =>
        cases h
        exact .inl ⟨n, ht, rfl⟩
    | none =>
        refine .inr ⟨ht, ?_⟩
        simp only at h
        split at h
        next doc =>
          obtain ⟨a, read, h⟩ := bind_ok_iff.mp h
          cases h
          exact .inl ⟨a, ⟨doc, read⟩, rfl⟩
        next noDoc =>
          rw [Bool.not_eq_true] at noDoc
          split at h
          next sees =>
            obtain ⟨a, read, h⟩ := bind_ok_iff.mp h
            cases h
            exact .inr (.inl ⟨noDoc, sees, a, read, rfl⟩)
          next sees =>
            cases h
            exact .inr (.inr ⟨noDoc, by rwa [Bool.not_eq_true] at sees, rfl⟩)
  · rintro (⟨n, ht, rfl⟩ | ⟨ht, ⟨a, doc, rfl⟩ | ⟨noDoc, sees, a, read, rfl⟩ | ⟨noDoc, sees, rfl⟩⟩)
    · exact ⟨some n, ht, rfl⟩
    · refine ⟨none, ht, ?_⟩
      simp only [doc.starts, if_true]
      exact bind_ok_iff.mpr ⟨a, doc.read, rfl⟩
    · refine ⟨none, ht, ?_⟩
      simp only [noDoc, Bool.false_eq_true, if_false, sees, if_true]
      exact bind_ok_iff.mpr ⟨a, read, rfl⟩
    · refine ⟨none, ht, ?_⟩
      simp only [noDoc, Bool.false_eq_true, if_false, sees]
      rfl

theorem preludeStep_steady : Steady preludeStep := by
  intro attrs c attrs' n more h
  rcases preludeStep_ok_iff.mp h with ⟨k, ht, eq⟩ | ⟨_, ⟨a, doc, eq⟩ | ⟨_, sees, a, read, eq⟩ | ⟨_, _, eq⟩⟩
  · cases eq
    exact trivium?_bounds ht
  · cases eq
    exact doc.bounds
  · cases eq
    exact readAttribute_bounds sees read
  · cases eq

theorem preludeStep_walks {acc : List Attribute} {c : Cursor} {r : List Attribute × Cursor} :
    Walks preludeStep (fun attrs place => .ok (attrs.reverse, place)) acc c r ↔
      ∃ attrs, r.1 = acc.reverse ++ attrs ∧ Prelude c attrs r.2 := by
  constructor
  · intro h
    induction h with
    | @finish acc c r atEnd h =>
        cases h
        refine ⟨[], by rw [List.append_nil], .stop (trivium?_of_end atEnd) ?_ ?_⟩
        · rw [atEnd]
          rfl
        · rw [sees, atEnd]
          rfl
    | @stop acc c r more h =>
        rcases preludeStep_ok_iff.mp h with
          ⟨_, _, eq⟩ | ⟨ht, ⟨_, _, eq⟩ | ⟨_, _, _, _, eq⟩ | ⟨noDoc, sees, eq⟩⟩
        · cases eq
        · cases eq
        · cases eq
        · cases eq
          exact ⟨[], by rw [List.append_nil], .stop ht noDoc sees⟩
    | @move acc acc' c n r h _ _ _ ih =>
        obtain ⟨attrs, eq', prelude⟩ := ih
        rcases preludeStep_ok_iff.mp h with
          ⟨_, ht, eq⟩ | ⟨ht, ⟨a, doc, eq⟩ | ⟨noDoc, sees, a, read, eq⟩ | ⟨_, _, eq⟩⟩
        · cases eq
          exact ⟨attrs, eq', .trivia ht prelude⟩
        · cases eq
          refine ⟨a :: attrs, ?_, .doc ht doc prelude⟩
          rw [eq', List.reverse_cons, List.append_assoc, List.singleton_append]
        · cases eq
          refine ⟨a :: attrs, ?_, .bracketed ht noDoc sees read prelude⟩
          rw [eq', List.reverse_cons, List.append_assoc, List.singleton_append]
        · cases eq
  · rintro ⟨attrs, eq, prelude⟩
    obtain ⟨all, head⟩ := r
    simp only at eq prelude
    subst eq
    induction prelude generalizing acc with
    | @stop c ht noDoc noAttribute =>
        by_cases atEnd : c.ahead = []
        · exact .finish atEnd (by rw [List.append_nil])
        · refine .stop atEnd (preludeStep_ok_iff.mpr (.inr ⟨ht, .inr (.inr ⟨noDoc, noAttribute, ?_⟩)⟩))
          rw [List.append_nil]
    | trivia ht _ ih =>
        exact .move (preludeStep_ok_iff.mpr (.inl ⟨_, ht, rfl⟩)) (trivium?_bounds ht).1
          (trivium?_bounds ht).2 ih
    | @doc c head a attrs ht doc _ ih =>
        refine .move (preludeStep_ok_iff.mpr (.inr ⟨ht, .inl ⟨a, doc, rfl⟩⟩)) doc.bounds.1
          doc.bounds.2 ?_
        have rest := @ih (a :: acc)
        rwa [List.reverse_cons, List.append_assoc, List.singleton_append] at rest
    | @bracketed c head a attrs ht noDoc sees read _ ih =>
        have bounds := readAttribute_bounds sees read
        refine .move (preludeStep_ok_iff.mpr (.inr ⟨ht, .inr (.inl ⟨noDoc, sees, a, read, rfl⟩)⟩))
          bounds.1 bounds.2 ?_
        have rest := @ih (a :: acc)
        rwa [List.reverse_cons, List.append_assoc, List.singleton_append] at rest

/-- **A prelude is read to its end.** -/
theorem readPrelude_ok_iff {c head : Cursor} {attrs : List Attribute} :
    c.readPrelude = .ok (attrs, head) ↔ Prelude c attrs head := by
  rw [readPrelude, walk_ok_iff preludeStep_steady, preludeStep_walks]
  simp

theorem Prelude.unique {c head head' : Cursor} {attrs attrs' : List Attribute}
    (h : Prelude c attrs head) (h' : Prelude c attrs' head') : attrs = attrs' ∧ head = head' := by
  rw [← readPrelude_ok_iff] at h h'
  rw [h] at h'
  cases h'
  exact ⟨rfl, rfl⟩

theorem Prelude.leadsTo {c head : Cursor} {attrs : List Attribute} (h : Prelude c attrs head) :
    c.LeadsTo head := by
  induction h with
  | stop _ _ _ => exact .refl _
  | trivia ht _ ih => exact (leadsTo_advance (trivium?_bounds ht).2).trans ih
  | doc _ doc _ ih => exact (leadsTo_advance doc.bounds.2).trans ih
  | bracketed _ _ sees read _ ih =>
      exact (leadsTo_advance (readAttribute_bounds sees read).2).trans ih

/-- A prelude ends where neither trivia nor a doc comment nor an attribute stands. -/
theorem Prelude.ends {c head : Cursor} {attrs : List Attribute} (h : Prelude c attrs head) :
    head.trivium? true = .ok none ∧ startsDocComment head.ahead = false
      ∧ head.sees "#[" = false := by
  induction h with
  | stop ht noDoc noAttribute => exact ⟨ht, noDoc, noAttribute⟩
  | trivia _ _ ih => exact ih
  | doc _ _ _ ih => exact ih
  | bracketed _ _ _ _ _ ih => exact ih

/-- Each attribute of a prelude has been read at a place ahead. -/
theorem Prelude.exists_place {c head : Cursor} {attrs : List Attribute} (h : Prelude c attrs head) :
    ∀ a ∈ attrs, ∃ p, c.LeadsTo p ∧ (DocAt p a ∨ (p.sees "#[" = true ∧ p.readAttribute = .ok a)) := by
  induction h with
  | stop _ _ _ => exact nofun
  | trivia ht _ ih =>
      intro a mem
      obtain ⟨p, onward, kind⟩ := ih a mem
      exact ⟨p, (leadsTo_advance (trivium?_bounds ht).2).trans onward, kind⟩
  | @doc c head a attrs _ doc _ ih =>
      refine List.forall_mem_cons.mpr ⟨⟨c, .refl c, .inl doc⟩, fun b mem => ?_⟩
      obtain ⟨p, onward, kind⟩ := ih b mem
      exact ⟨p, (leadsTo_advance doc.bounds.2).trans onward, kind⟩
  | @bracketed c head a attrs _ _ sees read _ ih =>
      refine List.forall_mem_cons.mpr ⟨⟨c, .refl c, .inr ⟨sees, read⟩⟩, fun b mem => ?_⟩
      obtain ⟨p, onward, kind⟩ := ih b mem
      exact ⟨p, (leadsTo_advance (readAttribute_bounds sees read).2).trans onward, kind⟩

/-- Where no trivia stands, the first attribute begins at once. -/
theorem Prelude.start_first {c head : Cursor} {attrs : List Attribute} (h : Prelude c attrs head)
    (none : c.trivium? true = .ok none) : ∀ a ∈ attrs.head?, a.start = c.offset := by
  cases h with
  | stop _ _ _ => exact nofun
  | trivia ht _ =>
      rw [none] at ht
      cases ht
  | doc _ doc _ =>
      rintro a ⟨⟩
      exact doc.start
  | bracketed _ _ _ read _ =>
      rintro a ⟨⟩
      obtain ⟨_, _, _, parts⟩ := readAttribute_ok_iff.mp read
      exact parts.start

/-- What remains of a prelude from one of its attributes on is a prelude. -/
theorem Prelude.exists_of_append {c head : Cursor} {before after : List Attribute} {a : Attribute}
    (h : Prelude c (before ++ a :: after) head) :
    ∃ p, a.start = p.offset ∧ c.LeadsTo p ∧ Prelude p (a :: after) head := by
  generalize eq : before ++ a :: after = attrs at h
  induction h generalizing before with
  | stop _ _ _ => simp at eq
  | trivia ht _ ih =>
      obtain ⟨p, start, onward, rest⟩ := ih eq
      exact ⟨p, start, (leadsTo_advance (trivium?_bounds ht).2).trans onward, rest⟩
  | @doc c head b attrs ht doc rest ih =>
      cases before with
      | nil =>
          cases eq
          exact ⟨c, doc.start, .refl c, .doc ht doc rest⟩
      | cons b before =>
          cases eq
          obtain ⟨p, start, onward, rest⟩ := ih rfl
          exact ⟨p, start, (leadsTo_advance doc.bounds.2).trans onward, rest⟩
  | @bracketed c head b attrs ht noDoc sees read rest ih =>
      cases before with
      | nil =>
          cases eq
          obtain ⟨close, first, next, parts⟩ := readAttribute_ok_iff.mp read
          exact ⟨c, parts.start, .refl c, .bracketed ht noDoc sees read rest⟩
      | cons b before =>
          cases eq
          obtain ⟨p, start, onward, rest⟩ := ih rfl
          exact ⟨p, start, (leadsTo_advance (readAttribute_bounds sees read).2).trans onward, rest⟩

/-! ## §4. Preludes in a reading. -/

/-- An attribute of a prelude that begins at or after offset `i`, on the level `m`. -/
structure Placed (o p : Cursor) (i j : Nat) (m : Int) (a : Attribute) : Prop where
  start : a.start = p.offset
  after : i ≤ a.start
  nonempty : a.start < a.stop
  before : a.stop ≤ j
  kind : DocAt p a ∨ Bracketed o p m a

/-- How the attributes of a prelude lie between its ends. -/
structure Laid (o c : Cursor) (attrs : List Attribute) (head : Cursor) (m : Int) : Prop where
  level : Level o head m
  order : attrs.Pairwise fun a b => a.stop ≤ b.start
  placed : ∀ a ∈ attrs, ∃ p, Placed o p c.offset head.offset m a
  /-- All code of the prelude is in its attributes. -/
  code : ∀ ⦃x : Cursor⦄ ⦃ch : Char⦄ ⦃k : Int⦄, CodeAt o x ch k → c.offset ≤ x.offset →
    x.offset < head.offset → isBlank ch = true
      ∨ ∃ a ∈ attrs, (∃ p, Bracketed o p m a) ∧ a.start ≤ x.offset ∧ x.offset < a.stop

/-- **The attributes of a prelude follow one another on its own level.** -/
theorem Prelude.laid {c head : Cursor} {attrs : List Attribute} (h : Prelude c attrs head)
    (near : Near o c m) : Laid o c attrs head m := by
  induction h with
  | @stop c ht _ _ =>
      refine ⟨near.level (trivium?_none ht).1, .nil, nofun, ?_⟩
      intro x ch k _ le lt
      omega
  | @trivia c head attrs n ht rest ih =>
      obtain ⟨next, blank⟩ := near.trivium ht
      have tail := ih next
      refine ⟨tail.level, tail.order, fun a mem => ?_, fun x ch k hx le lt => ?_⟩
      · obtain ⟨p, placed⟩ := tail.placed a mem
        have := placed.after
        rw [advance_offset] at this
        exact ⟨p, placed.start, by omega, placed.nonempty, placed.before, placed.kind⟩
      · by_cases early : x.offset < c.offset + n
        · exact .inl (blank hx le early)
        · exact tail.code hx (by rw [advance_offset]; omega) lt
  | @doc c head a attrs ht doc rest ih =>
      have level := near.level (trivium?_none ht).1
      obtain ⟨next, blank⟩ := doc.near level
      have tail := ih next
      have bounds := doc.bounds
      have onward := rest.leadsTo.offset_le
      have start := doc.start
      rw [advance_offset] at onward
      refine ⟨tail.level, List.pairwise_cons.mpr ⟨fun b mem => ?_, tail.order⟩, fun b mem => ?_,
        fun x ch k hx le lt => ?_⟩
      · obtain ⟨p, placed⟩ := tail.placed b mem
        have := placed.after
        rw [advance_offset] at this
        omega
      · rcases List.mem_cons.mp mem with rfl | mem
        · exact ⟨c, start, by omega, by omega, by omega, .inl doc⟩
        · obtain ⟨p, placed⟩ := tail.placed b mem
          have := placed.after
          rw [advance_offset] at this
          exact ⟨p, placed.start, by omega, placed.nonempty, placed.before, placed.kind⟩
      · by_cases early : x.offset < a.stop
        · exact .inl (blank hx le early)
        · rcases tail.code hx (by rw [advance_offset]; omega) lt with isBlank | ⟨b, mem, inside⟩
          · exact .inl isBlank
          · exact .inr ⟨b, List.mem_cons_of_mem _ mem, inside⟩
  | @bracketed c head a attrs ht noDoc sees read rest ih =>
      have level := near.level (trivium?_none ht).1
      have here : Bracketed o c m a := ⟨level.hash sees, sees, read⟩
      have tail := ih here.level_after.near
      have bounds := readAttribute_bounds sees read
      have onward := rest.leadsTo.offset_le
      have start := here.start
      rw [advance_offset] at onward
      refine ⟨tail.level, List.pairwise_cons.mpr ⟨fun b mem => ?_, tail.order⟩, fun b mem => ?_,
        fun x ch k hx le lt => ?_⟩
      · obtain ⟨p, placed⟩ := tail.placed b mem
        have := placed.after
        rw [advance_offset] at this
        omega
      · rcases List.mem_cons.mp mem with rfl | mem
        · exact ⟨c, start, by omega, by omega, by omega, .inr here⟩
        · obtain ⟨p, placed⟩ := tail.placed b mem
          have := placed.after
          rw [advance_offset] at this
          exact ⟨p, placed.start, by omega, placed.nonempty, placed.before, placed.kind⟩
      · by_cases early : x.offset < a.stop
        · exact .inr ⟨a, List.mem_cons_self, ⟨c, here⟩, by omega, early⟩
        · rcases tail.code hx (by rw [advance_offset]; omega) lt with isBlank | ⟨b, mem, inside⟩
          · exact .inl isBlank
          · exact .inr ⟨b, List.mem_cons_of_mem _ mem, inside⟩

end Cursor

end EnumExtract
