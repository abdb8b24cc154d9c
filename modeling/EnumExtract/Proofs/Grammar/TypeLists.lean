/-
  EnumExtract.Proofs.Grammar.TypeLists
  ────────────────────────────────
  Lists of types, separated by commas, and the pieces that they are cut into.

  What is cut knows nothing of types but their brackets, so a type is taken for
  less than it is: tokens and comments, with angle brackets that close around
  further types, and other brackets that close around any code.

      A<B, C = D>  <T as A>::B      angle brackets around types
      (A, B)  [T; 1 << N]  m!{..}   brackets around any code
      Fn(A) -> B                    an arrow, which closes no angle bracket
      &'a T                         a tick, which begins no character

  A comma is allowed inside brackets only; there a list is not cut.  Which
  brackets stand around a place is its region.  The types of the grammar are such
  types (`TypeSyntax.isType`).

  The literals in such code are those that are read as a whole.  An escape with
  an underscore in its braces is none of them, nor is a raw string for C that ends in
  a backslash: what is read of those goes on as code.

  Main results:
    • `IsTypeCode.reading`          the code of a type is read to its end, and it
                                    leaves open what was open,
    • `TypeList.pieces_stretches`   a list has one piece for each type, in order, and
                                    without its white space a piece is the type.
-/
import EnumExtract.Proofs.Grammar.Lists

namespace EnumExtract

open Cursor

/-! ## §1. The code of a type. -/

/-- Which brackets stand around a place in a list of types: none, angle brackets only, or others. -/
inductive Region where
  | list
  | angles
  | brackets

/-- The characters that are tokens of their own in the region, and blanks. -/
def Region.allows : Region → Char → Bool
  | list, ch => isTreeMark ch && ch != '<' && ch != '>' && ch != ','
  | angles, ch => isTreeMark ch && ch != '<' && ch != '>'
  | brackets, ch => isTreeMark ch

/-- A comment or literal that ends whatever stands behind it. -/
inductive IsLexeme : Text → Prop where
  | line {u : Text} (feed : '\n' ∉ u) : IsLexeme ('/' :: '/' :: u ++ ['\n'])
  | block {u : Text} (nested : blockLength? 0 ('/' :: '*' :: u) = some (u.length + 2)) :
      IsLexeme ('/' :: '*' :: u)
  | string {u : Text} (body : IsStringBody u) : IsLexeme ('"' :: u ++ ['"'])
  | rawString {letters u : Text} {hashes : Nat} (mem : letters ∈ rawLetters)
      (closed : ¬ rawCloser hashes <:+: u) :
      IsLexeme (letters ++ List.replicate hashes '#' ++ '"' :: u ++ rawCloser hashes)
  | character {u : Text} (tail : CharacterTail u) : IsLexeme ('\'' :: u)

/-- The code of types in a region. -/
inductive IsTypeCode : Region → Text → Prop where
  | nil {r : Region} : IsTypeCode r []
  | mark {r : Region} {ch : Char} {w : Text} (allowed : r.allows ch = true) (rest : IsTypeCode r w) :
      IsTypeCode r (ch :: w)
  /-- A slash that starts no comment. -/
  | slash {r : Region} {w : Text} (line : w.head? ≠ some '/') (block : w.head? ≠ some '*')
      (rest : IsTypeCode r w) : IsTypeCode r ('/' :: w)
  /-- A name, number or keyword, or the prefix of a string that is not raw. -/
  | word {r : Region} {u w : Text} (word : ∀ ch ∈ u, isWord ch = true)
      (stop : ∀ ch, w.head? = some ch → isWord ch = false)
      (noRaw : u ∈ rawLetters → ∀ hashes v, w ≠ List.replicate hashes '#' ++ '"' :: v)
      (rest : IsTypeCode r w) : IsTypeCode r (u ++ w)
  /-- The tick of a lifetime. -/
  | tick {r : Region} {ch : Char} {w : Text} (escape : ch ≠ '\\') (character : w.head? ≠ some '\'')
      (rest : IsTypeCode r (ch :: w)) : IsTypeCode r ('\'' :: ch :: w)
  | lexeme {r : Region} {u w : Text} (h : IsLexeme u) (rest : IsTypeCode r w) : IsTypeCode r (u ++ w)
  | arrow {r : Region} {w : Text} (rest : IsTypeCode r w) : IsTypeCode r ('-' :: '>' :: w)
  | group {r : Region} {opener closer : Char} {u w : Text} (pair : closer? opener = some closer)
      (inner : IsTypeCode .brackets u) (rest : IsTypeCode r w) : IsTypeCode r (opener :: u ++ closer :: w)
  /-- Angle brackets, of which the closing one belongs to no operator. -/
  | generics {r : Region} {u w : Text} (operator : ∀ ch, u.getLast? = some ch → ch ≠ '-' ∧ ch ≠ '=')
      (inner : IsTypeCode .angles u) (rest : IsTypeCode r w) : IsTypeCode r ('<' :: u ++ '>' :: w)

/-- A word that is not the letters of a raw string. -/
theorem IsTypeCode.name {r : Region} {u w : Text} (word : ∀ ch ∈ u, isWord ch = true) (free : u ∉ rawLetters)
    (stop : w.head?.all (!isWord ·) = true) (rest : IsTypeCode r w) : IsTypeCode r (u ++ w) := by
  refine .word word (fun ch first => ?_) (fun mem => absurd mem free) rest
  rw [first] at stop
  simpa using stop

/-- The region in which brackets are open. -/
def Region.Holds (o : Opened) : Region → Prop
  | list => True
  | angles => ¬ o.Cuts
  | brackets => o.closers ≠ []

/-! ## §2. Reading the code of a type. -/

/-- A place where the code of a type may end: in front of white space, a comma or a bracket. -/
def Text.Ends (tail : Text) : Prop :=
  ∀ ch, tail.head? = some ch → EnumExtract.isBlank ch = true ∨ ch = ',' ∨ ch = '>' ∨ isCloser ch = true

theorem Text.Ends.ne {tail : Text} (h : tail.Ends) {ch : Char}
    (other : EnumExtract.isBlank ch = false ∧ ch ≠ ',' ∧ ch ≠ '>' ∧ isCloser ch = false) :
    tail.head? ≠ some ch := by
  intro first
  obtain ⟨blank, comma, angle, closer⟩ := other
  rcases h ch first with h | h | h | h
  · rw [blank] at h
    cases h
  · exact comma h
  · exact angle h
  · rw [closer] at h
    cases h

theorem Text.Ends.sealed {tail : Text} (h : tail.Ends) : tail.Sealed := by
  intro ch first
  have notWord : isWord ch = false := by
    rcases h ch first with h | rfl | rfl | h
    · exact not_isWord_of_isBlank h
    · rfl
    · rfl
    · exact not_isWord_of_isCloser h
  refine ⟨notWord, ?_, ?_, ?_⟩ <;> rintro rfl <;> exact h.ne (by decide) first

theorem Region.isTreeMark_of_allows {r : Region} {ch : Char} (h : r.allows ch = true) : isTreeMark ch = true := by
  cases r with
  | brackets => exact h
  | _ =>
      simp only [allows, Bool.and_eq_true] at h
      simp only [h]

/-- A character of the region changes nothing there. -/
theorem Region.carries {r : Region} {ch : Char} {x : Cursor} {o : Opened} (allowed : r.allows ch = true)
    (holds : r.Holds o) : Carries [(x, ch)] o o := by
  obtain ⟨-, weight, -⟩ := plain_of_isTreeMark (isTreeMark_of_allows allowed)
  cases r with
  | list =>
      simp only [allows, Bool.and_eq_true] at allowed
      exact .single (by simp [Carries.plainChar, weight, allowed])
  | angles =>
      simp only [allows, Bool.and_eq_true] at allowed
      by_cases comma : ch = ','
      · subst comma
        exact .comma holds
      · exact .single (by simp [Carries.plainChar, weight, comma, allowed])
  | brackets => exact .inside weight holds

/-- A block comment ends in a slash. -/
theorem exists_last_of_blockLength? {depth n : Nat} {t : Text} (h : blockLength? depth t = some n) :
    ∃ v, t.take n = v ++ ['/'] := by
  induction depth, t using blockLength?.induct generalizing n with
  | case1 depth rest ih =>
      rw [blockLength?] at h
      obtain ⟨m, found, rfl⟩ := Option.map_eq_some_iff.mp h
      obtain ⟨v, last⟩ := ih found
      exact ⟨'/' :: '*' :: v, by simp [last]⟩
  | case2 depth rest shallow =>
      rw [blockLength?, if_pos shallow] at h
      cases h
      exact ⟨['*'], rfl⟩
  | case3 depth rest deep ih =>
      rw [blockLength?, if_neg deep] at h
      obtain ⟨m, found, rfl⟩ := Option.map_eq_some_iff.mp h
      obtain ⟨v, last⟩ := ih found
      exact ⟨'*' :: '/' :: v, by simp [last]⟩
  | case4 depth ch rest notOpen notClose ih =>
      rw [blockLength?.eq_3 _ _ _ notOpen notClose] at h
      obtain ⟨m, found, rfl⟩ := Option.map_eq_some_iff.mp h
      obtain ⟨v, last⟩ := ih found
      exact ⟨ch :: v, by simp [last]⟩
  | case5 =>
      rw [blockLength?] at h
      cases h

theorem IsLexeme.exists_last {u : Text} (h : IsLexeme u) : ∃ v ch, u = v ++ [ch] ∧ isWord ch = false := by
  cases h with
  | line => exact ⟨_, '\n', rfl, rfl⟩
  | @block u nested =>
      obtain ⟨v, last⟩ := exists_last_of_blockLength? nested
      exact ⟨v, '/', by simpa using last, rfl⟩
  | string => exact ⟨_, '"', rfl, rfl⟩
  | @rawString letters u hashes =>
      obtain ⟨v, ch, last, plain⟩ := exists_last_rawCloser hashes
      exact ⟨letters ++ List.replicate hashes '#' ++ '"' :: u ++ v, ch, by rw [last]; simp, plain⟩
  | character tail =>
      obtain ⟨v, rfl⟩ := tail.exists_last
      exact ⟨'\'' :: v, '\'', rfl, rfl⟩

/-- A comment or literal is passed over as a whole. -/
theorem IsLexeme.lexeme? {u w : Text} {c : Cursor} (h : IsLexeme u) (eq : c.ahead = u ++ w)
    (fresh : c.Fresh) : c.lexeme? = .ok (some u.length) := by
  cases h with
  | @line u feed =>
      have line : '\n' ∉ ('/' :: '/' :: u : Text) := by simpa using feed
      have cut : c.ahead = ('/' :: '/' :: u) ++ '\n' :: w := by rw [eq]; simp
      have comment : c.comment? = .ok (some (lineLength c.ahead)) := by
        rw [comment?.eq_def, cut]
        rfl
      rw [cut, Cursor.lineLength_append line] at comment
      exact lexeme?_some_iff.mpr (.inl (by rw [comment]; simp))
  | @block u nested =>
      obtain ⟨v, w', cut, size, settled⟩ := blockLength?_settled 0 _ _ nested
      have whole : v = '/' :: '*' :: u := by
        have none : w' = [] := by
          have length := congrArg List.length cut
          simp only [List.length_cons, List.length_append] at length
          exact List.eq_nil_of_length_eq_zero (by omega)
        rw [cut, none, List.append_nil]
      have found := settled w
      rw [whole] at found
      simp only [List.cons_append] at eq found
      refine lexeme?_some_iff.mpr (.inl ?_)
      rw [comment?.eq_def, eq]
      simp only [found, List.length_cons]
  | @string u body =>
      have whole := lexeme?_string (w := w) body (by rw [eq]; simp)
      rw [whole]
      simp
  | @rawString letters u hashes mem closed =>
      have start := fresh.rawLetters mem (by rw [eq]; simp)
      have whole := lexeme?_rawString (w := w) mem closed start (by rw [eq]; simp)
      rw [whole]
      simp only [rawCloser, List.length_append, List.length_replicate, List.length_cons]
      congr 2
      omega
  | character tail => exact lexeme?_character tail (by rw [eq])

/-- What is open inside an angle bracket. -/
def Opened.less (o : Opened) : Opened :=
  if o.closers = [] then ⟨[], o.angles + 1⟩ else o

theorem Opened.not_cuts_less (o : Opened) : ¬ o.less.Cuts := by
  unfold less Cuts
  split
  next => simp
  next inside => exact fun cuts => inside cuts.1

/-- An angle bracket closes the one that was opened last. -/
theorem Carries.closeLess {o : Opened} {x : Cursor} (clear : ∀ b, x.before = some b → b ≠ '-' ∧ b ≠ '=') :
    Carries [(x, '>')] o.less o := by
  have closes := Carries.greater (o := o.less) clear
  unfold Opened.less at closes ⊢
  obtain ⟨closers, angles⟩ := o
  by_cases none : closers = []
  · subst none
    simpa using closes
  · simpa [none] using closes

/-- The character before the place behind a text is the last of the text. -/
theorem Cursor.before_behind {c : Cursor} {u w : Text} (eq : c.ahead = u ++ w) (some : u ≠ []) :
    (c.advance u.length).before = u.getLast? := by
  rcases List.eq_nil_or_concat u with rfl | ⟨v, ch, rfl⟩
  · exact absurd rfl some
  · rw [List.concat_eq_append, List.append_assoc] at eq
    rw [List.concat_eq_append, List.length_append, List.length_singleton, before_advance eq,
      List.getLast?_concat]

/-- The text `u` ahead is read to its end, leaves open what was open, and no word goes on behind it. -/
structure Cursor.ReadsOpen (c : Cursor) (o : Opened) (u : Text) : Prop where
  reading : Token.Reading c u o o
  fresh : (c.advance u.length).Fresh

namespace Cursor.ReadsOpen

variable {c : Cursor} {o : Opened} {u w : Text} {ch : Char}

theorem append (h : c.ReadsOpen o u) (h' : (c.advance u.length).ReadsOpen o w) : c.ReadsOpen o (u ++ w) := by
  refine ⟨h.reading.append h'.reading, ?_⟩
  rw [List.length_append, ← advance_advance]
  exact h'.fresh

/-- A character on its own. -/
theorem char (eq : c.ahead = ch :: w) (none : c.lexeme? = .ok none) (carries : Carries [(c, ch)] o o)
    (plain : isWord ch = false) : c.ReadsOpen o [ch] :=
  ⟨⟨[(c, ch)], .char none (by rw [eq]; rfl) (.here _), carries⟩, .behind (u := []) eq plain⟩

/-- A word that opens no raw string, up to its end. -/
theorem word (eq : c.ahead = u ++ w) (word : ∀ ch ∈ u, isWord ch = true)
    (stop : ∀ ch, w.head? = some ch → isWord ch = false)
    (noRaw : u ∈ rawLetters → ∀ hashes v, w ≠ List.replicate hashes '#' ++ '"' :: v) : c.ReadsOpen o u := by
  have noOpener : c.rawOpener? = none := by
    rw [Cursor.rawOpener?, eq, rawOpener?_word word stop noRaw, ite_self]
  refine ⟨Token.reading_word eq (fun ch mem => .inl (word ch mem)) (plainWord_of_first eq word noOpener), ?_⟩
  refine .of_stop fun ch first => stop ch ?_
  rwa [ahead_advance eq] at first

theorem lexeme (h : IsLexeme u) (eq : c.ahead = u ++ w) (fresh : c.Fresh) : c.ReadsOpen o u := by
  refine ⟨⟨[], .lexeme (h.lexeme? eq fresh) (.here _), .nil o⟩, ?_⟩
  obtain ⟨v, ch, rfl, plain⟩ := h.exists_last
  rw [List.length_append]
  exact .behind (w := w) (by rw [eq]; simp) plain

/-- A bracket around what is read with the bracket open. -/
theorem group {opener closer : Char} (pair : closer? opener = some closer)
    (eq : c.ahead = opener :: u ++ closer :: w)
    (inner : (c.advance 1).ReadsOpen (o.push closer) u) : c.ReadsOpen o (opener :: u ++ [closer]) := by
  have closes := (isCloser_of_closer? pair).1
  have first : c.ahead.head? = some opener := by rw [eq]; rfl
  have behind : ((c.advance 1).advance u.length).ahead = closer :: w :=
    ahead_advance (by rw [advance_ahead, eq]; rfl)
  have last : ((c.advance 1).advance u.length).ahead.head? = some closer := by rw [behind]; rfl
  have opening : Token.Reading c [opener] o (o.push closer) :=
    ⟨_, .char (lexeme?_of_bracket first (.inl (by rw [pair]; rfl))) first (.here _), .push pair⟩
  have closing : Token.Reading ((c.advance 1).advance u.length) [closer] (o.push closer) o :=
    ⟨_, .char (lexeme?_of_bracket last (.inr closes)) last (.here _),
      .pop closes (by simp [Opened.pop, Opened.push])⟩
  refine ⟨opening.append (inner.reading.append closing), ?_⟩
  rw [List.length_append]
  exact .behind (u := opener :: u) eq (not_isWord_of_isCloser closes)

/-- Angle brackets around what is read with an angle bracket open. -/
theorem generics (eq : c.ahead = '<' :: u ++ '>' :: w)
    (operator : ∀ ch, u.getLast? = some ch → ch ≠ '-' ∧ ch ≠ '=')
    (inner : (c.advance 1).ReadsOpen o.less u) : c.ReadsOpen o ('<' :: u ++ ['>']) := by
  have behind : ((c.advance 1).advance u.length).ahead = '>' :: w :=
    ahead_advance (by rw [advance_ahead, eq]; rfl)
  -- in front of the closing bracket stands the last character inside, or the opening bracket
  have clear : ∀ b, ((c.advance 1).advance u.length).before = some b → b ≠ '-' ∧ b ≠ '=' := by
    intro b before
    rw [advance_advance, Nat.add_comm, ← List.length_cons, before_behind eq (List.cons_ne_nil _ _),
      List.getLast?_cons] at before
    cases last : u.getLast? with
    | none =>
        rw [last] at before
        cases before
        decide
    | some ch =>
        rw [last] at before
        cases before
        exact operator ch last
  have opening : Token.Reading c ['<'] o o.less := Token.reading_char eq rfl .less
  have closing : Token.Reading ((c.advance 1).advance u.length) ['>'] o.less o :=
    Token.reading_char behind rfl (.closeLess clear)
  refine ⟨opening.append (inner.reading.append closing), ?_⟩
  rw [List.length_append]
  exact .behind (u := '<' :: u) eq rfl

end Cursor.ReadsOpen

/-- **The code of a type is read to its end**, and it leaves open what was open. -/
theorem IsTypeCode.reading {r : Region} {w : Text} (h : IsTypeCode r w) :
    ∀ {c : Cursor} {tail : Text} {o : Opened}, c.ahead = w ++ tail → tail.Ends → c.Fresh → r.Holds o →
      c.ReadsOpen o w := by
  -- what is open is any state of the region, so that the code inside of a bracket is an instance
  induction h with
  | nil =>
      intro c tail o _ _ fresh _
      exact ⟨⟨[], .here c, .nil o⟩, fresh⟩
  | @mark r ch w allowed rest ih =>
      intro c tail o eq ends _ holds
      obtain ⟨notWord, _, noStart⟩ := plain_of_isTreeMark (r.isTreeMark_of_allows allowed)
      have none : c.lexeme? = .ok none := lexeme?_eq_none fun first h => by
        rw [eq] at h
        cases h
        exact noStart
      have here : c.ReadsOpen o [ch] := .char eq none (r.carries allowed holds) notWord
      exact here.append (ih (ahead_advance (u := [ch]) eq) ends here.fresh holds)
  | @slash r w line block rest ih =>
      intro c tail o eq ends _ holds
      have none := lexeme?_slash eq (head?_append_ne line (ends.ne (by decide)))
        (head?_append_ne block (ends.ne (by decide)))
      have here : c.ReadsOpen o ['/'] := .char eq none (.single rfl) rfl
      exact here.append (ih (ahead_advance (u := ['/']) eq) ends here.fresh holds)
  | @word r u w word stop noRaw rest ih =>
      intro c tail o eq ends _ holds
      rw [List.append_assoc] at eq
      have here : c.ReadsOpen o u := .word eq word
        (head?_append_cases stop fun ch first => (ends.sealed ch first).1)
        fun mem hashes => append_ne_raw ends.sealed hashes (noRaw mem hashes)
      exact here.append (ih (ahead_advance eq) ends here.fresh holds)
  | @tick r ch w escape character rest ih =>
      intro c tail o eq ends _ holds
      have noTick := head?_append_ne character (ends.ne (by decide))
      have whole := lexeme?_loneTick (characterLength?_eq_none escape noTick) eq
      have here : c.ReadsOpen o ['\''] := ⟨⟨[], .lexeme whole (.here _), .nil o⟩, .behind (u := []) eq rfl⟩
      exact here.append (ih (ahead_advance (u := ['\'']) eq) ends here.fresh holds)
  | @lexeme r u w h rest ih =>
      intro c tail o eq ends fresh holds
      rw [List.append_assoc] at eq
      have here : c.ReadsOpen o u := .lexeme h eq fresh
      exact here.append (ih (ahead_advance eq) ends here.fresh holds)
  | @arrow r w rest ih =>
      intro c tail o eq ends _ holds
      have here : c.ReadsOpen o ['-', '>'] :=
        ⟨Token.reading_arrow eq, .behind (u := ['-']) eq rfl⟩
      exact here.append (ih (ahead_advance (u := ['-', '>']) eq) ends here.fresh holds)
  | @group r opener closer u w pair inner rest ihInner ih =>
      intro c tail o eq ends _ holds
      have cut : opener :: u ++ closer :: w = (opener :: u ++ [closer]) ++ w := by simp
      rw [cut] at eq ⊢
      have eq' : c.ahead = opener :: u ++ closer :: (w ++ tail) := by rw [eq]; simp
      -- behind the code inside stands the closing bracket, not what stands behind the group
      have closes : Text.Ends (closer :: (w ++ tail)) := by
        rintro _ ⟨⟩
        exact .inr (.inr (.inr (isCloser_of_closer? pair).1))
      have inside := ihInner (c := c.advance 1) (o := o.push closer) (by rw [advance_ahead, eq']; rfl) closes
        (.behind (u := []) eq' (not_isWord_of_closer? pair)) (List.cons_ne_nil _ _)
      have here : c.ReadsOpen o (opener :: u ++ [closer]) := .group pair eq' inside
      exact here.append (ih (ahead_advance (by rw [eq, List.append_assoc])) ends here.fresh holds)
  | @generics r u w operator inner rest ihInner ih =>
      intro c tail o eq ends _ holds
      have cut : '<' :: u ++ '>' :: w = ('<' :: u ++ ['>']) ++ w := by simp
      rw [cut] at eq ⊢
      have eq' : c.ahead = '<' :: u ++ '>' :: (w ++ tail) := by rw [eq]; simp
      have closes : Text.Ends ('>' :: (w ++ tail)) := by
        rintro _ ⟨⟩
        exact .inr (.inr (.inl rfl))
      have inside := ihInner (c := c.advance 1) (o := o.less) (by rw [advance_ahead, eq']; rfl) closes
        (.behind (u := []) eq' rfl) o.not_cuts_less
      have here : c.ReadsOpen o ('<' :: u ++ ['>']) := .generics eq' operator inside
      exact here.append (ih (ahead_advance (by rw [eq, List.append_assoc])) ends here.fresh holds)

/-! ## §3. Lists of types. -/

/-- The text is a type, with white space at neither end. -/
structure IsType (t : Text) : Prop where
  code : IsTypeCode .list t
  first : ∃ ch v, t = ch :: v ∧ isBlank ch = false ∧ ch ≠ '/'
  last : t.trimEnd = t

/-- A lifetime in a list of generics. -/
theorem isType_map : IsType "Map<K, &'a V>" where
  code := by
    refine .name (u := "Map") (w := "<K, &'a V>") (by decide) (by decide) rfl ?_
    refine .generics (u := "K, &'a V") (w := []) (by rintro _ ⟨⟩; decide) ?_ .nil
    refine .name (u := "K") (w := ", &'a V") (by decide) (by decide) rfl ?_
    refine .mark rfl (.mark rfl (.mark rfl (.tick (by decide) (by decide) ?_)))
    refine .name (u := "a") (w := " V") (by decide) (by decide) rfl (.mark rfl ?_)
    exact .name (u := "V") (w := []) (by decide) (by decide) rfl .nil
  first := ⟨'M', _, rfl, rfl, by decide⟩
  last := rfl

/-- Two angle brackets that are closed together. -/
theorem isType_qualified : IsType "<T as A<B>>::C" where
  code := by
    refine .generics (u := "T as A<B>") (w := "::C") (by rintro _ ⟨⟩; decide) ?_ ?_
    · refine .name (u := "T") (w := " as A<B>") (by decide) (by decide) rfl (.mark rfl ?_)
      refine .name (u := "as") (w := " A<B>") (by decide) (by decide) rfl (.mark rfl ?_)
      refine .name (u := "A") (w := "<B>") (by decide) (by decide) rfl ?_
      refine .generics (u := "B") (w := []) (by rintro _ ⟨⟩; decide) ?_ .nil
      exact .name (u := "B") (w := []) (by decide) (by decide) rfl .nil
    · refine .mark rfl (.mark rfl ?_)
      exact .name (u := "C") (w := []) (by decide) (by decide) rfl .nil
  first := ⟨'<', _, rfl, rfl, by decide⟩
  last := rfl

/-- A function pointer with a result. -/
theorem isType_function : IsType "fn(A, B) -> C" where
  code := by
    refine .name (u := "fn") (w := "(A, B) -> C") (by decide) (by decide) rfl ?_
    refine @IsTypeCode.group _ '(' ')' "A, B" " -> C" rfl ?_ (.mark rfl (.arrow (.mark rfl ?_)))
    · refine .name (u := "A") (w := ", B") (by decide) (by decide) rfl (.mark rfl (.mark rfl ?_))
      exact .name (u := "B") (w := []) (by decide) (by decide) rfl .nil
    · exact .name (u := "C") (w := []) (by decide) (by decide) rfl .nil
  first := ⟨'f', _, rfl, rfl, by decide⟩
  last := rfl

/-- An array whose length is a shift. -/
theorem isType_array : IsType "[u8; 1 << 2]" where
  code := by
    refine @IsTypeCode.group _ '[' ']' "u8; 1 << 2" [] rfl ?_ .nil
    refine .name (u := "u8") (w := "; 1 << 2") (by decide) (by decide) rfl (.mark rfl (.mark rfl ?_))
    refine .name (u := "1") (w := " << 2") (by decide) (by decide) rfl ?_
    refine .mark rfl (.mark rfl (.mark rfl (.mark rfl ?_)))
    exact .name (u := "2") (w := []) (by decide) (by decide) rfl .nil
  first := ⟨'[', _, rfl, rfl, by decide⟩
  last := rfl

/-- A type in a list, with the white space around it. -/
structure ListedType where
  before : Text
  type : Text
  behind : Text
  blank : IsGap before
  isType : IsType type
  blankBehind : IsGap behind

namespace ListedType

def text (x : ListedType) : Text :=
  x.before ++ (x.type ++ x.behind)

/-- The stretches of a list at the cursor, which end one character in front of one another. -/
def stretches : Cursor → List ListedType → List Piece
  | _, [] => []
  | c, x :: xs => ⟨c, c.offset + x.text.length⟩ :: stretches (c.advance (x.text.length + 1)) xs

end ListedType

/-- The text writes the types with commas between them, perhaps with one behind the last. -/
inductive TypeList : List ListedType → Text → Prop where
  | nil {gap : Text} (blank : IsGap gap) : TypeList [] gap
  | last (x : ListedType) : TypeList [x] x.text
  | more (x : ListedType) {xs : List ListedType} {t : Text} (rest : TypeList xs t) :
      TypeList (x :: xs) (x.text ++ ',' :: t)

theorem IsGap.ends {b w : Text} (h : IsGap b) (rest : w.Ends) : Text.Ends (b ++ w) :=
  head?_append_cases (fun ch first => .inl (h ch (List.mem_of_head? first))) rest

namespace ListedType

variable {x : ListedType} {c : Cursor} {w : Text}

/-- A type is left when the white space around it is taken away. -/
theorem trim_text (x : ListedType) : x.text.trim = x.type := by
  obtain ⟨ch, v, eq, notBlank, _⟩ := x.isType.first
  have start : Text.trimStart x.text = x.type ++ x.behind := by
    rw [Text.trimStart, text, List.dropWhile_append_of_pos x.blank, eq, List.cons_append,
      List.dropWhile_cons_of_neg (by rw [notBlank]; decide)]
  rw [Text.trim, start, Text.trimEnd_append x.blankBehind, x.isType.last]

/-- A type is read to its end, with the white space around it. -/
theorem reading (eq : c.ahead = x.text ++ w) (ends : w.Ends) (fresh : c.Fresh) :
    Token.Reading c x.text .start .start := by
  rw [text, List.append_assoc] at eq
  have ahead := ahead_advance eq
  rw [List.append_assoc] at ahead
  have type := x.isType.code.reading (o := .start) ahead (x.blankBehind.ends ends) (fresh.gap x.blank eq) trivial
  exact (Token.reading_gap x.blank eq).append
    (type.reading.append (Token.reading_gap x.blankBehind (ahead_advance ahead)))

/-- The piece holds the type and the white space around it. -/
structure Fills (x : ListedType) (p : Piece) : Prop where
  isFilled : p.isFilled = .ok true
  text : p.text = x.text

theorem fills (eq : c.ahead = x.text ++ w) : x.Fills ⟨c, c.offset + x.text.length⟩ := by
  refine ⟨?_, by rw [Piece.text, upTo, Nat.add_sub_cancel_left, eq, List.take_left]⟩
  obtain ⟨ch, v, type, notBlank, noSlash⟩ := x.isType.first
  rw [text, List.append_assoc] at eq
  have first : (c.advance x.before.length).ahead.head? = some ch := by
    rw [ahead_advance eq, type]
    rfl
  refine Piece.isFilled_ok_iff.mpr
    ⟨_, .blanks eq x.blank (.stop (trivium?_of_first first notBlank noSlash)), (decide_eq_true ?_).symm⟩
  rw [advance_offset, text, type]
  simp

end ListedType

/-- What is cut is the stretches of the types, and perhaps one of white space. -/
theorem TypeList.cut {xs : List ListedType} {t : Text} (h : TypeList xs t) :
    ∀ {c : Cursor}, c.ahead = t → c.Fresh →
      ∃ code d, Reads c code d ∧ d.ahead = []
        ∧ Fills (· = ·) (ListedType.stretches c xs) ((Cutting.over ⟨[], c, 0, 0⟩ code).pieces d.offset) := by
  induction h with
  | @nil gap blank =>
      intro c eq fresh
      have eq' : c.ahead = gap ++ [] := by rw [eq, List.append_nil]
      obtain ⟨code, reads, carries⟩ := Token.reading_gap (o := .start) blank eq'
      have ahead := ahead_advance eq'
      refine ⟨code, _, reads, ahead, ?_⟩
      rw [carries.uncut]
      refine .empty (Piece.isFilled_ok_iff.mpr ⟨_, .blanks eq' blank (.stop (trivium?_of_end ahead)), ?_⟩)
      exact (decide_eq_false (Nat.lt_irrefl _)).symm
  | last x =>
      intro c eq fresh
      have eq' : c.ahead = x.text ++ [] := by rw [eq, List.append_nil]
      obtain ⟨code, reads, carries⟩ := x.reading eq' nofun fresh
      refine ⟨code, _, reads, ahead_advance eq', ?_⟩
      rw [carries.uncut]
      exact .last rfl
  | @more x xs t rest ih =>
      intro c eq fresh
      have comma := ahead_advance eq
      have ends : Text.Ends (',' :: t) := by
        rintro _ ⟨⟩
        exact .inr (.inl rfl)
      obtain ⟨code, reads, carries⟩ := x.reading eq ends fresh
      obtain ⟨more, d, reads', ahead, fills⟩ := ih (c := (c.advance x.text.length).advance 1)
        (by rw [advance_ahead, comma]; rfl) (.behind (u := []) comma rfl)
      refine ⟨_, d, reads.comma comma reads', ahead, ?_⟩
      rw [carries.pieces_comma]
      rw [advance_advance] at fills ⊢
      exact .more rfl fills

/-- Each stretch holds its type. -/
theorem TypeList.fills {xs : List ListedType} {t : Text} (h : TypeList xs t) :
    ∀ {c : Cursor}, c.ahead = t → List.Forall₂ ListedType.Fills xs (ListedType.stretches c xs) := by
  induction h with
  | nil => exact fun _ => .nil
  | last x => exact fun eq => .cons (ListedType.fills (w := []) (by rw [eq, List.append_nil])) .nil
  | more x rest ih =>
      intro c eq
      refine .cons (ListedType.fills eq) (ih ?_)
      rw [← advance_advance, advance_ahead, ahead_advance eq]
      rfl

/-- **A list of types has one piece for each of them, in order**, and what is left of a piece without
the white space at its ends is the type. -/
theorem TypeList.pieces_stretches {xs : List ListedType} {t : Text} (h : TypeList xs t) :
    (t.cursor 0).pieces t.length = .ok (ListedType.stretches (t.cursor 0) xs)
      ∧ (ListedType.stretches (t.cursor 0) xs).map (·.text.trim) = xs.map (·.type) := by
  have fills := h.fills (c := t.cursor 0) rfl
  constructor
  · obtain ⟨code, d, reads, ahead, cut⟩ := h.cut (c := t.cursor 0) rfl fun _ _ _ => rfl
    have stop : d.offset = t.length := by
      have ends := reads.leadsTo.end_eq
      rw [ahead] at ends
      simpa [Text.cursor] using ends
    have filled : ∀ p ∈ ListedType.stretches (t.cursor 0) xs, ∀ q, p = q → q.isFilled = .ok true := by
      rintro p mem _ rfl
      obtain ⟨x, _, here⟩ := exists_of_forall₂_right fills mem
      exact here.isFilled
    obtain ⟨known, same⟩ := cut.exists_filter filled
    rw [List.forall₂_eq_eq_eq] at same
    rw [← stop, same]
    exact bind_ok_iff.mpr ⟨_, allPieces_of_reads reads, filterM_ok_iff.mpr ⟨known, rfl⟩⟩
  · clear h
    generalize ListedType.stretches (t.cursor 0) xs = ps at fills
    induction fills with
    | nil => rfl
    | @cons x p _ _ here _ ih => rw [List.map_cons, List.map_cons, ih, here.text, x.trim_text]

/-- Four types, and a comma behind the last. -/
def sampleTypes : Text := "Map<K, &'a V>,\n <T as A<B>>::C , fn(A, B) -> C, [u8; 1 << 2],\n"

theorem sampleTypes_pieces : ∃ xs, TypeList xs sampleTypes
    ∧ (sampleTypes.cursor 0).pieces sampleTypes.length = .ok (ListedType.stretches (sampleTypes.cursor 0) xs)
    ∧ (ListedType.stretches (sampleTypes.cursor 0) xs).map (fun p => (p.start.offset, p.stop))
        = [(0, 13), (14, 31), (32, 46), (47, 60)] := by
  have blank : IsGap " " := IsGap.space
  have h : TypeList [⟨[], _, [], nofun, isType_map, nofun⟩,
      ⟨"\n ", _, " ", List.forall_mem_cons.mpr ⟨rfl, blank⟩, isType_qualified, blank⟩,
      ⟨" ", _, [], blank, isType_function, nofun⟩, ⟨" ", _, [], blank, isType_array, nofun⟩] sampleTypes :=
    .more _ (.more _ (.more _ (.more _ (.nil IsGap.feed))))
  exact ⟨_, h, h.pieces_stretches.1, rfl⟩

/-- An array of characters and a type, with an underscore in the escape of a character. -/
def scoredEscape : Text := "[u8; [']','\\u\x7b5_B\x7d','['].len()], u8"

/-- **An escape with an underscore is read as no character**: what follows it is taken for the start of
one, and a list of two types has one piece. -/
theorem scoredEscape_pieces :
    (do return (← (scoredEscape.cursor 0).pieces scoredEscape.length).map fun p => (p.start.offset, p.stop))
      = (.ok [(0, 35)] : Except Fault (List (Nat × Nat))) := by
  rfl

end EnumExtract
