/-
  EnumExtract.Proofs.Grammar.TraitLists
  ────────────────────────────────
  Lists of traits as they are written, and the traits that are read of them.

      list      entries with commas between them, perhaps one behind the last
      entry     a path with trivia around it
      path      names with `::` and trivia between them, perhaps a `::` in front
      trivia    blanks, line comments with their line feed, block comments

  A name is any text that no reader stops at: no blank, bracket, quote, slash,
  comma or colon stands in it.  Identifiers are names.

  A comment is passed over when a list is cut, whatever stands in it, and a
  blank is put in its place when the text of a piece is taken.  So what is left
  of an entry without its blanks is the path that it writes.

  Main results:
    • `IsTrivia.trivia`      written trivia is skipped to its end,
    • `IsEntry.strips`       what is left of an entry is its path,
    • `IsTraitList.cut`      a list is cut into its entries,
    • `IsTraitList.traits`   the traits of a list are its paths, in order.
-/
import EnumExtract.Proofs.Collapse
import EnumExtract.Proofs.Grammar.TypeLists
import EnumExtract.Proofs.InPlace

namespace EnumExtract

open Cursor

variable {c d : Cursor} {t t' u v v' w tail : Text} {ch : Char}

/-! ## §1. Trivia. -/

/-- A comment that ends whatever stands behind it. -/
inductive IsComment : Text → Prop where
  | line {u : Text} (feed : '\n' ∉ u) : IsComment ('/' :: '/' :: u ++ ['\n'])
  | block {u : Text} (nested : blockLength? 0 ('/' :: '*' :: u) = some (u.length + 2)) :
      IsComment ('/' :: '*' :: u)

theorem IsComment.isLexeme (h : IsComment u) : IsLexeme u := by
  cases h with
  | line feed => exact .line feed
  | block nested => exact .block nested

theorem IsComment.exists_first (h : IsComment u) : ∃ v, u = '/' :: v := by
  cases h with
  | line feed => exact ⟨_, rfl⟩
  | block nested => exact ⟨_, rfl⟩

theorem IsComment.comment? (h : IsComment u) (eq : c.ahead = u ++ w) : c.comment? = .ok (some u.length) := by
  have fresh : c.Fresh := .of_stop fun ch first => by
    obtain ⟨v, rfl⟩ := h.exists_first
    rw [eq] at first
    cases first
    rfl
  rcases lexeme?_some_iff.mp (h.isLexeme.lexeme? eq fresh) with comment | ⟨none, _⟩
  · exact comment
  · obtain ⟨line, block⟩ := comment?_none none
    cases h with
    | line feed => exact absurd eq (line _)
    | block nested => exact absurd eq (block _)

/-- Blanks and comments. -/
inductive IsTrivia : Text → Prop where
  | nil : IsTrivia []
  | blank {ch : Char} {t : Text} (h : isBlank ch = true) (rest : IsTrivia t) : IsTrivia (ch :: t)
  | comment {u t : Text} (h : IsComment u) (rest : IsTrivia t) : IsTrivia (u ++ t)

namespace IsTrivia

theorem space : IsTrivia " " :=
  .blank rfl .nil

theorem append (h : IsTrivia t) (h' : IsTrivia t') : IsTrivia (t ++ t') := by
  induction h with
  | nil => exact h'
  | blank blank rest ih => exact .blank blank ih
  | comment comment rest ih =>
      rw [List.append_assoc]
      exact .comment comment ih

/-- Trivia begins with a blank or with a slash. -/
theorem first (h : IsTrivia t) : ∀ ch, t.head? = some ch → isBlank ch = true ∨ ch = '/' := by
  cases h with
  | nil => exact nofun
  | blank blank rest =>
      rintro _ ⟨⟩
      exact .inl blank
  | comment comment rest =>
      obtain ⟨v, rfl⟩ := comment.exists_first
      rintro _ ⟨⟩
      exact .inr rfl

theorem sealed (h : IsTrivia t) (rest : w.Sealed) : Text.Sealed (t ++ w) := by
  refine head?_append_cases (fun ch first => ?_) rest
  rcases h.first ch first with blank | rfl
  · exact ⟨not_isWord_of_isBlank blank, ne_of_isBlank blank rfl, ne_of_isBlank blank rfl,
      ne_of_isBlank blank rfl⟩
  · decide

/-- **Written trivia is skipped to its end**, where no more of it follows. -/
theorem trivia (h : IsTrivia t) : ∀ {c : Cursor}, c.ahead = t ++ w →
    (c.advance t.length).trivium? false = .ok none → Trivia false c (c.advance t.length) := by
  induction h with
  | nil =>
      intro c _ stop
      rw [List.length_nil, advance_zero] at stop ⊢
      exact .stop stop
  | @blank ch t blank rest ih =>
      intro c eq stop
      have first : c.ahead.head? = some ch := by rw [eq]; rfl
      have size : (c.advance 1).advance t.length = c.advance (ch :: t).length := by
        rw [advance_advance, Nat.add_comm, List.length_cons]
      rw [← size] at stop ⊢
      exact .pass (trivium?_of_blank first blank) (ih (ahead_advance (u := [ch]) eq) stop)
  | @comment u t comment rest ih =>
      intro c eq stop
      rw [List.append_assoc] at eq
      have first : c.ahead.head? = some '/' := by
        obtain ⟨v, rfl⟩ := comment.exists_first
        rw [eq]
        rfl
      rw [List.length_append, ← advance_advance] at stop ⊢
      have here : c.trivium? false = .ok (some u.length) :=
        (trivium?_of_notBlank first rfl).trans (comment.comment? eq)
      exact .pass here (ih (ahead_advance eq) stop)

end IsTrivia

/-! ## §2. What is left without comments. -/

/-- The text `u` ahead is read to its end and leaves nothing open, and `v` is left of it when
its comments are taken out. -/
structure Cursor.Strips (c : Cursor) (u v : Text) : Prop where
  reading : Token.Reading c u .start .start
  stripped : Stripped c v (c.advance u.length)

namespace Cursor.Strips

theorem nil (c : Cursor) : c.Strips [] [] :=
  ⟨⟨[], .here c, .nil _⟩, .here c⟩

theorem append (h : c.Strips u v) (h' : (c.advance u.length).Strips t v') : c.Strips (u ++ t) (v ++ v') := by
  refine ⟨h.reading.append h'.reading, ?_⟩
  rw [List.length_append, ← advance_advance]
  exact h.stripped.append h'.stripped

/-- A character on its own. -/
theorem char (eq : c.ahead = ch :: w) (none : c.lexeme? = .ok none) (plain : Carries.plainChar ch = true) :
    c.Strips [ch] [ch] := by
  have first : c.ahead.head? = some ch := by rw [eq]; rfl
  exact ⟨⟨[(c, ch)], .char none first (.here _), .single plain⟩, .char none first (.here _)⟩

/-- A space stands for a comment. -/
theorem comment (h : IsComment u) (eq : c.ahead = u ++ w) : c.Strips u " " := by
  have comment := h.comment? eq
  exact ⟨⟨[], .lexeme (lexeme?_some_iff.mpr (.inl comment)) (.here _), .nil _⟩, .comment comment (.here _)⟩

/-- Blanks are left of trivia. -/
theorem trivia (h : IsTrivia t) : ∀ {c : Cursor}, c.ahead = t ++ w → ∃ b, IsGap b ∧ c.Strips t b := by
  induction h with
  | nil => exact fun _ => ⟨[], IsGap.nil, .nil _⟩
  | @blank ch t blank rest ih =>
      intro c eq
      have first : c.ahead.head? = some ch := by rw [eq]; rfl
      have here : c.Strips [ch] [ch] := .char eq (lexeme?_of_blank first blank) (plainChar_of_isBlank blank)
      obtain ⟨b, gap, behind⟩ := ih (c := c.advance 1) (ahead_advance (u := [ch]) eq)
      exact ⟨ch :: b, List.forall_mem_cons.mpr ⟨blank, gap⟩, here.append behind⟩
  | @comment u t comment rest ih =>
      intro c eq
      rw [List.append_assoc] at eq
      obtain ⟨b, gap, behind⟩ := ih (ahead_advance eq)
      exact ⟨" " ++ b, IsGap.space.append gap, (Strips.comment comment eq).append behind⟩

theorem colons (eq : c.ahead = "::" ++ w) : c.Strips "::" "::" := by
  have colon {d : Cursor} {w : Text} (eq : d.ahead = ':' :: w) : d.Strips [':'] [':'] := by
    refine .char eq (lexeme?_eq_none fun ch first => ?_) rfl
    rw [eq] at first
    cases first
    rfl
  exact (colon eq).append (colon (w := w) (by rw [advance_ahead, eq]; rfl))

end Cursor.Strips

/-! ## §3. Paths. -/

/-- A character of a name: it begins no comment or literal, it neither opens nor closes nor
separates, and it is no blank and no colon. -/
def isSegmentChar (ch : Char) : Bool :=
  Carries.plainChar ch && !isBlank ch && ch != ':' && ch != '/' && ch != '"' && ch != '\''

/-- A name in a path. -/
structure IsSegment (n : Text) : Prop where
  filled : n ≠ []
  plain : ∀ ch ∈ n, isSegmentChar ch = true

theorem isSegmentChar_iff : isSegmentChar ch = true ↔ Carries.plainChar ch = true ∧ isBlank ch = false
    ∧ ch ≠ ':' ∧ ch ≠ '/' ∧ ch ≠ '"' ∧ ch ≠ '\'' := by
  simp only [isSegmentChar, Bool.and_eq_true, Bool.not_eq_true', bne_iff_ne, and_assoc]

/-- An identifier is a name. -/
theorem IsIdentifier.isSegment {n : Text} (h : IsIdentifier n) : IsSegment n := by
  refine ⟨h.ne_nil, fun ch mem => ?_⟩
  have word := h.isWord ch mem
  have solid : isBlank ch = false := by
    rcases word with word | rfl
    · exact not_isBlank_of_isWord word
    · rfl
  refine isSegmentChar_iff.mpr ⟨plainChar_of_isWord word, solid, ?_⟩
  refine ⟨?_, ?_, ?_, ?_⟩ <;> rintro rfl <;> rcases word with word | hash <;> contradiction

namespace IsSegment

variable {n : Text}

theorem run (h : IsSegment n) : Text.IsRun n :=
  fun ch mem => (isSegmentChar_iff.mp (h.plain ch mem)).2.1

theorem not_mem (h : IsSegment n) (other : isSegmentChar ch = false) : ch ∉ n := by
  intro mem
  rw [h.plain ch mem] at other
  cases other

/-- No raw string begins in a name. -/
theorem rawOpener? (plain : ∀ ch ∈ n, isSegmentChar ch = true) (sealed : w.Sealed) :
    EnumExtract.rawOpener? (n ++ w) = none := by
  cases found : EnumExtract.rawOpener? (n ++ w) with
  | none => rfl
  | some k =>
      obtain ⟨letters, mem, v, eq, _⟩ := exists_of_rawOpener? found
      exfalso
      have opening : ∀ ch ∈ letters ++ List.replicate k.2 '#', isWord ch = true ∨ ch = '#' := by
        have word : ∀ letters ∈ rawLetters, ∀ ch ∈ letters, isWord ch = true := by decide
        intro ch here
        rcases List.mem_append.mp here with here | here
        · exact .inl (word letters mem ch here)
        · exact .inr (List.eq_of_mem_replicate here)
      rcases List.append_eq_append_iff.mp eq with ⟨more, cut, rest⟩ | ⟨more, cut, rest⟩
      · -- the quotation mark stands behind the name, and what begins there is sealed off
        cases more with
        | nil => exact (sealed '"' (by rw [rest]; rfl)).2.2.1 rfl
        | cons x more =>
            have first := sealed x (by rw [rest]; rfl)
            rcases opening x (by rw [cut]; simp) with word | hash
            · rw [first.1] at word
              cases word
            · exact first.2.1 hash
      · cases more with
        | nil => exact (sealed '"' (by rw [← List.nil_append w, ← rest]; rfl)).2.2.1 rfl
        | cons x more =>
            obtain rfl := (List.cons.inj rest).1
            have quote := plain '"' (by rw [cut]; simp)
            cases quote

/-- Nothing but characters is read in a name. -/
theorem lexeme? (plain : ∀ ch ∈ n, isSegmentChar ch = true) (more : n ≠ []) (sealed : w.Sealed)
    (eq : c.ahead = n ++ w) : c.lexeme? = .ok none := by
  obtain ⟨ch, v, rfl⟩ := List.exists_cons_of_ne_nil more
  obtain ⟨_, _, _, slash, quote, tick⟩ := isSegmentChar_iff.mp (plain ch List.mem_cons_self)
  have noComment : c.comment? = .ok none := comment?_eq_none_of_ne (by rw [eq]; simpa using slash)
  have noOpener : c.rawOpener? = none := by
    rw [Cursor.rawOpener?, eq, rawOpener? plain sealed, ite_self]
  refine lexeme?_none_iff.mpr ⟨noComment, literal?_eq_none noOpener ?_ ?_⟩
  · intro rest same
    rw [eq] at same
    exact quote (List.cons.inj same).1
  · intro rest same
    rw [eq] at same
    exact tick (List.cons.inj same).1

/-- A name is left as it is. -/
theorem strips (plain : ∀ ch ∈ n, isSegmentChar ch = true) (sealed : w.Sealed) :
    ∀ {c : Cursor}, c.ahead = n ++ w → c.Strips n n := by
  induction n with
  | nil => exact fun _ => .nil _
  | cons ch n ih =>
      intro c eq
      obtain ⟨first, rest⟩ := List.forall_mem_cons.mp plain
      have here : c.Strips [ch] [ch] :=
        .char eq (lexeme? plain (List.cons_ne_nil _ _) sealed eq) (isSegmentChar_iff.mp first).1
      exact here.append (ih rest (ahead_advance (u := [ch]) eq))

end IsSegment

/-- Names with two colons behind each but the last. -/
def joinedNames (qs : List Text) (n : Text) : Text :=
  (qs.flatMap fun q => q ++ ("::" : Text)) ++ n

theorem joinedNames_cons (q : Text) (qs : List Text) (n : Text) :
    joinedNames (q :: qs) n = q ++ (("::" : Text) ++ joinedNames qs n) := by
  simp only [joinedNames, List.flatMap_cons, List.append_assoc]

/-- The path of a trait. -/
structure TraitPath where
  rooted : Bool
  /-- The names in front of the last one. -/
  qualifiers : List Text
  name : Text
  deriving DecidableEq

namespace TraitPath

/-- The path without blanks and comments. -/
def text (p : TraitPath) : Text :=
  (if p.rooted then ("::" : Text) else []) ++ joinedNames p.qualifiers p.name

theorem text_bare {p : TraitPath} (root : p.rooted = false) : p.text = joinedNames p.qualifiers p.name := by
  rw [text, root]
  rfl

theorem text_rooted {p : TraitPath} (root : p.rooted = true) :
    p.text = ("::" : Text) ++ joinedNames p.qualifiers p.name := by
  rw [text, root]
  rfl

end TraitPath

/-- Names as they are written, with colons and trivia between them. -/
inductive IsNames : List Text → Text → Text → Prop where
  | last {n : Text} (h : IsSegment n) : IsNames [] n n
  | more {q n t t' w : Text} {qs : List Text} (h : IsSegment q) (before : IsTrivia t) (after : IsTrivia t')
      (rest : IsNames qs n w) : IsNames (q :: qs) n (q ++ (t ++ ("::" ++ (t' ++ w))))

/-- A path as it is written. -/
inductive TraitPath.IsWritten (p : TraitPath) : Text → Prop where
  | bare {w : Text} (root : p.rooted = false) (names : IsNames p.qualifiers p.name w) : p.IsWritten w
  | rooted {t w : Text} (root : p.rooted = true) (after : IsTrivia t) (names : IsNames p.qualifiers p.name w) :
      p.IsWritten ("::" ++ (t ++ w))

/-- A path in a list, with the trivia around it. -/
inductive TraitPath.IsEntry (p : TraitPath) : Text → Prop where
  | mk {t w t' : Text} (before : IsTrivia t) (path : p.IsWritten w) (behind : IsTrivia t') :
      p.IsEntry (t ++ (w ++ t'))

theorem sealed_colons (w : Text) : Text.Sealed ("::" ++ w) := by
  rintro _ ⟨⟩
  decide

theorem unspaced_colons : Text.unspaced "::" = "::" :=
  rfl

namespace IsNames

variable {qs : List Text} {n : Text}

theorem first (h : IsNames qs n w) : ∃ ch v, w = ch :: v ∧ isSegmentChar ch = true := by
  have names {q : Text} (h : IsSegment q) (r : Text) : ∃ ch v, q ++ r = ch :: v ∧ isSegmentChar ch = true := by
    obtain ⟨ch, v, rfl⟩ := List.exists_cons_of_ne_nil h.filled
    exact ⟨ch, v ++ r, rfl, h.plain ch List.mem_cons_self⟩
  cases h with
  | last h =>
      have found := names h []
      rwa [List.append_nil] at found
  | more h before after rest => exact names h _

theorem strips (h : IsNames qs n w) (sealed : tail.Sealed) : ∀ {c : Cursor}, c.ahead = w ++ tail →
    ∃ v, c.Strips w v ∧ Text.unspaced v = joinedNames qs n := by
  induction h with
  | last h => exact fun eq => ⟨_, IsSegment.strips h.plain sealed eq, h.run.unspaced⟩
  | @more q n t t' w qs h before after rest ih =>
      intro c eq
      simp only [List.append_assoc] at eq
      have ahead := ahead_advance eq
      have behind := ahead_advance ahead
      obtain ⟨b, gap, skipped⟩ := Strips.trivia before ahead
      obtain ⟨b', gap', skipped'⟩ := Strips.trivia after (ahead_advance behind)
      obtain ⟨v, names, left⟩ := ih (ahead_advance (ahead_advance behind))
      have here := IsSegment.strips h.plain (before.sealed (sealed_colons _)) eq
      refine ⟨_, here.append (skipped.append ((Strips.colons behind).append (skipped'.append names))), ?_⟩
      simp only [Text.unspaced_append, gap.unspaced, gap'.unspaced, h.run.unspaced, unspaced_colons, left,
        joinedNames_cons, List.nil_append]

end IsNames

namespace TraitPath

variable {p : TraitPath}

/-- A path begins with a name or with a colon. -/
theorem IsWritten.first (h : p.IsWritten w) : ∃ ch v, w = ch :: v ∧ isBlank ch = false ∧ ch ≠ '/' := by
  cases h with
  | bare root names =>
      obtain ⟨ch, v, eq, plain⟩ := names.first
      obtain ⟨_, solid, _, slash, _⟩ := isSegmentChar_iff.mp plain
      exact ⟨ch, v, eq, solid, slash⟩
  | rooted root after names => exact ⟨':', _, rfl, rfl, by decide⟩

theorem IsWritten.strips (h : p.IsWritten w) (sealed : tail.Sealed) (eq : c.ahead = w ++ tail) :
    ∃ v, c.Strips w v ∧ Text.unspaced v = p.text := by
  cases h with
  | bare root names =>
      obtain ⟨v, names, left⟩ := names.strips sealed eq
      exact ⟨v, names, by rw [left, text_bare root]⟩
  | @rooted t w root after names =>
      simp only [List.append_assoc] at eq
      have ahead := ahead_advance eq
      obtain ⟨b, gap, skipped⟩ := Strips.trivia after ahead
      obtain ⟨v, names, left⟩ := names.strips sealed (ahead_advance ahead)
      refine ⟨_, (Strips.colons eq).append (skipped.append names), ?_⟩
      rw [Text.unspaced_append, Text.unspaced_append, gap.unspaced, unspaced_colons, left, text_rooted root,
        List.nil_append]

/-- **What is left of an entry is its path.** -/
theorem IsEntry.strips (h : p.IsEntry u) (sealed : tail.Sealed) (eq : c.ahead = u ++ tail) :
    ∃ v, c.Strips u v ∧ Text.unspaced v = p.text := by
  obtain ⟨before, path, behind⟩ := h
  simp only [List.append_assoc] at eq
  have ahead := ahead_advance eq
  obtain ⟨b, gap, skipped⟩ := Strips.trivia before eq
  obtain ⟨v, path, left⟩ := path.strips (behind.sealed sealed) ahead
  obtain ⟨b', gap', skipped'⟩ := Strips.trivia behind (ahead_advance ahead)
  refine ⟨_, skipped.append (path.append skipped'), ?_⟩
  rw [Text.unspaced_append, Text.unspaced_append, gap.unspaced, gap'.unspaced, left, List.nil_append,
    List.append_nil]

/-- The piece holds the entry: something is in it, and that is the path. -/
def Fills (p : TraitPath) (piece : Piece) : Prop :=
  ∃ v, piece.Shows true v ∧ Text.unspaced v = p.text

theorem IsEntry.fills (h : p.IsEntry u) (sealed : tail.Sealed) (eq : c.ahead = u ++ tail) :
    p.Fills ⟨c, c.offset + u.length⟩ := by
  obtain ⟨v, strips, left⟩ := h.strips sealed eq
  refine ⟨v, ⟨?_, withoutComments_of_stripped strips.stripped⟩, left⟩
  obtain @⟨t, w, t', before, path, behind⟩ := h
  obtain ⟨ch, w, rfl, solid, slash⟩ := path.first
  rw [List.append_assoc] at eq
  have first : (c.advance t.length).ahead.head? = some ch := by
    rw [ahead_advance eq]
    rfl
  refine Piece.isFilled_ok_iff.mpr ⟨_, before.trivia eq (trivium?_of_first first solid slash),
    (decide_eq_true ?_).symm⟩
  rw [advance_offset]
  simp

end TraitPath

/-! ## §4. Lists. -/

/-- The text writes the paths with commas between them, perhaps with one behind the last. -/
inductive IsTraitList : List TraitPath → Text → Prop where
  | nil {t : Text} (trivia : IsTrivia t) : IsTraitList [] t
  | last {p : TraitPath} {u : Text} (entry : p.IsEntry u) : IsTraitList [p] u
  | more {p : TraitPath} {ps : List TraitPath} {u l : Text} (entry : p.IsEntry u) (rest : IsTraitList ps l) :
      IsTraitList (p :: ps) (u ++ ',' :: l)

namespace IsTraitList

variable {ps : List TraitPath} {l : Text}

/-- Trivia in front of a list belongs to it. -/
theorem prepend (h : IsTraitList ps l) (trivia : IsTrivia t) : IsTraitList ps (t ++ l) := by
  have longer {p : TraitPath} {u : Text} (entry : p.IsEntry u) : p.IsEntry (t ++ u) := by
    obtain ⟨before, path, behind⟩ := entry
    rw [← List.append_assoc]
    exact ⟨trivia.append before, path, behind⟩
  cases h with
  | nil trivia' => exact .nil (trivia.append trivia')
  | last entry => exact .last (longer entry)
  | more entry rest =>
      rw [← List.append_assoc]
      exact .more (longer entry) rest

/-- **A list is cut into its entries.**  The last piece may hold nothing. -/
theorem cut (h : IsTraitList ps l) (closes : tail.Closes) : ∀ {c : Cursor}, c.ahead = l ++ tail →
    ∃ code, Reads c code (c.advance l.length) ∧ Balanced code
      ∧ Fills TraitPath.Fills ps
        ((Cutting.over ⟨[], c, 0, 0⟩ code).pieces (c.advance l.length).offset) := by
  induction h with
  | @nil t trivia =>
      -- the piece behind the last comma holds nothing
      intro c eq
      have stop : (c.advance t.length).trivium? false = .ok none := by
        have ahead := ahead_advance eq
        cases tail with
        | nil => exact trivium?_of_end ahead
        | cons ch tail =>
            have bracket := isBracket_not_blank (.inr (closes ch rfl))
            refine trivium?_of_first (by rw [ahead]; rfl) bracket ?_
            rintro rfl
            cases closes '/' rfl
      obtain ⟨b, _, ⟨code, reads, carries⟩, _⟩ := Strips.trivia trivia eq
      refine ⟨code, reads, carries.balanced, ?_⟩
      rw [carries.uncut]
      refine .empty (Piece.isFilled_ok_iff.mpr ⟨_, trivia.trivia eq stop, ?_⟩)
      exact (decide_eq_false (Nat.lt_irrefl _)).symm
  | last entry =>
      intro c eq
      obtain ⟨v, ⟨⟨code, reads, carries⟩, _⟩, _⟩ := entry.strips closes.sealed eq
      refine ⟨code, reads, carries.balanced, ?_⟩
      rw [carries.uncut]
      exact .last (entry.fills closes.sealed eq)
  | @more p ps u l entry rest ih =>
      intro c eq
      rw [List.append_assoc] at eq
      have comma := ahead_advance eq
      -- the entry is uncut, and the comma ends its piece
      obtain ⟨v, ⟨⟨code, reads, carries⟩, _⟩, _⟩ := entry.strips sealed_comma eq
      obtain ⟨more, reads', balanced, fills⟩ := ih (c := (c.advance u.length).advance 1)
        (by rw [advance_ahead, comma]; rfl)
      have size : ((c.advance u.length).advance 1).advance l.length = c.advance (u ++ ',' :: l).length := by
        rw [advance_advance, advance_advance, List.length_append, List.length_cons]
        congr 1
        omega
      rw [size] at reads' fills
      refine ⟨_, reads.comma comma reads', carries.balanced.comma balanced, ?_⟩
      rw [carries.pieces_comma]
      exact .more (entry.fills sealed_comma eq) fills

/-- A list is read to its end in front of the bracket that closes it. -/
theorem readsBalanced (h : IsTraitList ps l) : ReadsBalanced l := by
  intro c tail eq closes _
  obtain ⟨code, reads, balanced, _⟩ := h.cut closes eq
  exact ⟨code, reads, balanced⟩

/-- **The traits of a list are its paths, in order.** -/
theorem traits (h : IsTraitList ps l) : (l.cursor 0).traits l.length = .ok (ps.map (·.text)) := by
  have eq : (l.cursor 0).ahead = l ++ [] := (List.append_nil l).symm
  have closes : Text.Closes [] := fun ch first => by cases first
  obtain ⟨code, reads, _, fills⟩ := h.cut closes eq
  have stop : ((l.cursor 0).advance l.length).offset = l.length := Nat.zero_add _
  obtain ⟨known, found⟩ := fills.exists_filter fun p _ piece ⟨_, shows, _⟩ => shows.isFilled
  have all := allPieces_of_reads reads
  rw [stop] at all known found
  refine bind_ok_iff.mpr ⟨_, bind_ok_iff.mpr ⟨_, all, filterM_ok_iff.mpr ⟨known, rfl⟩⟩, mapM_ok_iff.mpr ?_⟩
  rw [List.forall₂_map_right_iff]
  refine found.flip.imp fun piece p fills => ?_
  obtain ⟨v, shows, left⟩ := fills
  exact bind_ok_iff.mpr ⟨v, shows.withoutComments, by rw [← left]; rfl⟩

end IsTraitList

end EnumExtract
