/-
  EnumExtract.Proofs.Totality
  ────────────────────────────────
  What the readers of the scan need to get through a text.

  `Whole o` says that the text ahead of `o` is read to its end and that its
  brackets nest.  Then each reader gets through wherever the reading comes to,
  with one exception: an attribute that no path stands in is refused.  The
  scan reads an attribute only where no other attribute is around it, which
  is what `Exposed` says of a place.

  Main results:
    • `Whole.exists_trivia`      trivia ends,
    • `Whole.exists_closing`     a bracket that opens is closed,
    • `Whole.exists_headRead`    what may be a head is read, if all paths start,
    • `Whole.exists_items`       so is the whole text, and each declaration found
                                 has outermost attributes only.
-/
import EnumExtract.Proofs.Grammar.Attributes
import EnumExtract.Proofs.Scan

namespace EnumExtract

namespace Cursor

variable {o c d p head : Cursor} {m : Int} {a : Attribute}

/-! ## §1. Texts that are read to their end. -/

/-- The text ahead of `o` is read to its end, and its brackets nest. -/
def Whole (o : Cursor) : Prop :=
  ∃ code stop, Reads o code stop ∧ stop.ahead = [] ∧ nest [] (chars code) = some []

/-- Trivia does not begin with a character that may open a raw string, and no bracket does. -/
theorem stuck_of_opener {ch : Char} (h : ¬ (ch ≠ '#' ∧ ch ≠ '"' ∧ ch ≠ 'r' ∧ ch ≠ 'b')) :
    isBlank ch = false ∧ ch ≠ '/' ∧ closer? ch = none := by
  by_cases hash : ch = '#'
  · subst hash; decide
  by_cases quote : ch = '"'
  · subst quote; decide
  by_cases r : ch = 'r'
  · subst r; decide
  by_cases b : ch = 'b'
  · subst b; decide
  exact absurd ⟨hash, quote, r, b⟩ h

namespace Whole

variable (whole : Whole o)
include whole

/-- From each place of the reading the text is read to its end, and what is open there is closed. -/
theorem reads (level : Level o c m) :
    ∃ outer code stop, Reads c code stop ∧ stop.ahead = [] ∧ nest outer (chars code) = some [] := by
  obtain ⟨all, stop, reads, atEnd, nests⟩ := whole
  obtain ⟨before, toPlace, _⟩ := level
  have le : c.offset ≤ stop.offset := by
    have here := toPlace.leadsTo.end_eq
    have there := reads.leadsTo.end_eq
    rw [atEnd, List.length_nil] at there
    omega
  obtain ⟨code, rfl, tail⟩ := toPlace.split reads le
  rw [chars_append] at nests
  obtain ⟨outer, _, nests⟩ := nest_append nests
  exact ⟨outer, code, stop, tail, atEnd, nests⟩

theorem exists_lexeme? (level : Level o c m) : ∃ length?, c.lexeme? = .ok length? := by
  obtain ⟨_, code, stop, reads, atEnd, _⟩ := whole.reads level
  cases reads with
  | here => exact ⟨none, lexeme?_eq_none (by rw [atEnd]; nofun)⟩
  | lexeme h _ => exact ⟨_, h⟩
  | char h _ _ => exact ⟨none, h⟩

theorem exists_comment? (level : Level o c m) : ∃ length?, c.comment? = .ok length? := by
  obtain ⟨length?, h⟩ := whole.exists_lexeme? level
  cases length? with
  | none => exact ⟨none, (lexeme?_none_iff.mp h).1⟩
  | some length =>
      rcases lexeme?_some_iff.mp h with comment | ⟨noComment, _⟩
      · exact ⟨_, comment⟩
      · exact ⟨none, noComment⟩

theorem exists_trivium? (keepDocs : Bool) (near : Near o c m) : ∃ length?, c.trivium? keepDocs = .ok length? := by
  unfold trivium?
  split
  next => exact ⟨none, rfl⟩
  next ch rest eq =>
    split
    next => exact ⟨some 1, rfl⟩
    next plain =>
      split
      next => exact ⟨none, rfl⟩
      next =>
        have level : Level o c m := near.level fun ch' first => by
          rw [eq] at first
          cases first
          simpa using plain
        exact whole.exists_comment? level

/-- **Trivia ends.** -/
theorem exists_trivia (keepDocs : Bool) (near : Near o c m) : ∃ d, Trivia keepDocs c d := by
  have ends : ∃ d, c.skipTrivia keepDocs = .ok d ∧ True := by
    refine exists_walk skipTrivia_step_steady (I := fun _ place => Near o place m)
      (fun _ place _ near => ?_) (fun _ place _ _ => ⟨place, rfl, trivial⟩) near
    obtain ⟨length?, ht⟩ := whole.exists_trivium? keepDocs near
    cases length? with
    | none => exact .inl ⟨place, bind_ok_iff.mpr ⟨none, ht, rfl⟩, trivial⟩
    | some n => exact .inr ⟨(), n, bind_ok_iff.mpr ⟨some n, ht, rfl⟩, (near.trivium ht).1⟩
  obtain ⟨d, hd, _⟩ := ends
  exact ⟨d, skipTrivia_ok_iff.mp hd⟩

/-- Trivia ends also behind a word that is a place of the reading only if nothing follows it that
may open a raw string.  A bracket behind the trivia is a place of the reading in any case. -/
theorem exists_trivia_behind (reach : ∀ ch, c.ahead.head? = some ch →
      ch ≠ '#' ∧ ch ≠ '"' ∧ ch ≠ 'r' ∧ ch ≠ 'b' → Level o c m) :
    ∃ d, Trivia false c d ∧ ∀ ch, d.ahead.head? = some ch → (closer? ch).isSome = true → Level o d m := by
  cases eq : c.ahead.head? with
  | none =>
      refine ⟨c, .stop (trivium?_of_end (List.head?_eq_none_iff.mp eq)), fun ch first => ?_⟩
      rw [eq] at first
      cases first
  | some ch =>
      by_cases outside : ch ≠ '#' ∧ ch ≠ '"' ∧ ch ≠ 'r' ∧ ch ≠ 'b'
      · have level := reach ch eq outside
        obtain ⟨d, hd⟩ := whole.exists_trivia false level.near
        exact ⟨d, hd, fun _ _ _ => (hd.spec level.near).1⟩
      · -- what may open a raw string is neither trivia nor a bracket
        obtain ⟨plain, noSlash, noBracket⟩ := stuck_of_opener outside
        refine ⟨c, .stop (trivium?_of_first eq plain noSlash), fun ch' first opens => ?_⟩
        rw [eq] at first
        cases first
        rw [noBracket] at opens
        cases opens

/-- **A bracket that opens is closed.** -/
theorem exists_closing {opener closer : Char} (level : Level o c m) (first : c.ahead.head? = some opener)
    (pair : closer? opener = some closer) : ∃ d, c.closing = .ok d := by
  obtain ⟨outer, code, stop, reads, atEnd, nests⟩ := whole.reads level
  have lt : c.offset < stop.offset := by
    have same := reads.leadsTo.end_eq
    have more := List.length_pos_of_mem (List.mem_of_head? first)
    rw [atEnd, List.length_nil] at same
    omega
  obtain ⟨inside, d, encloses, _⟩ := exists_encloses reads first pair lt nests
  exact ⟨d, closing_ok_iff.mpr ⟨inside, encloses⟩⟩

end Whole

/-! ## §2. Places outside of attributes. -/

/-- Each attribute that begins before offset `i` ends before it. -/
def Outside (o : Cursor) (i : Nat) : Prop :=
  ∀ ⦃p close : Cursor⦄ ⦃k : Int⦄, CodeAt o p '#' k → p.sees "#[" = true →
    (p.advance 1).closing = .ok close → p.offset < i → close.offset < i

theorem Outside.start (o : Cursor) : Outside o o.offset := by
  intro p close k code _ _ lt
  have := code.level.leadsTo.offset_le
  omega

theorem Outside.pass {i j : Nat} (h : Outside o i) (none : NoAttribute o i j) (le : i ≤ j) :
    Outside o j := by
  intro p close k code sees hclose lt
  rcases Nat.lt_or_ge p.offset i with before | after
  · have := h code sees hclose before
    omega
  · rw [none code after lt] at sees
    cases sees

/-- Behind an attribute all attributes inside it have ended, too. -/
theorem Outside.behind (h : Outside o p.offset) (here : Bracketed o p m a) : Outside o a.stop := by
  intro q close k code sees hclose lt
  have start := here.start
  have long := here.lt
  obtain ⟨inner, close', encloses, stop, level, _⟩ := here.encloses
  rcases Nat.lt_trichotomy q.offset p.offset with before | same | after
  · have := h code sees hclose before
    omega
  · obtain rfl : q = p := code.level.eq_of_offset here.code.level same
    rw [closing_ok_iff.mpr ⟨inner, encloses⟩] at hclose
    cases hclose
    omega
  · -- the bracket of the inner attribute opens deeper than the place behind the outer one
    have notSecond : q.offset ≠ p.offset + 1 := by
      intro second
      obtain rfl : q = p.advance 1 := code.level.eq_of_offset level (by rw [advance_offset, second])
      obtain ⟨rest, eq⟩ := sees_iff.mp here.sees
      have first := code.first
      rw [advance_ahead, eq] at first
      cases first
    have deep := here.deeper code.level (by omega) lt
    have opens := code.next
    rw [show bracketWeight '#' = 0 from rfl, Int.add_zero] at opens
    have levelStop := here.level_after
    have place : (p.advance (a.stop - a.start)).offset = a.stop := by
      rw [advance_offset]
      omega
    -- and closes before the level is left again
    obtain ⟨_, enclosed⟩ := closing_ok_iff.mp hclose
    rcases Nat.lt_or_ge close.offset a.stop with ends | past
    · exact ends
    · exfalso
      rcases Nat.lt_or_ge (q.advance 1).offset a.stop with inside | least
      · have deeper := enclosed.deeper opens levelStop (by rw [place]; exact inside)
          (by rw [place]; exact past)
        omega
      · rw [advance_offset] at least
        have same := opens.eq_of_offset levelStop (by rw [place, advance_offset]; omega)
        rw [same] at opens
        have := opens.unique levelStop
        omega

/-- Each step through a prelude leads from outside of attributes to outside of them. -/
theorem Outside.trivium {keepDocs : Bool} {n : Nat} (outside : Outside o c.offset) (near : Near o c m)
    (ht : c.trivium? keepDocs = .ok (some n)) :
    Near o (c.advance n) m ∧ Outside o (c.advance n).offset := by
  obtain ⟨next, blank⟩ := near.trivium ht
  exact ⟨next, outside.pass blank.noAttribute (Nat.le_add_right _ _)⟩

theorem Outside.doc (outside : Outside o c.offset) (level : Level o c m) (doc : DocAt c a) :
    Near o (c.advance (a.stop - a.start)) m ∧ Outside o (c.advance (a.stop - a.start)).offset := by
  obtain ⟨next, blank⟩ := doc.near level
  have start := doc.start
  have long := doc.bounds
  refine ⟨next, ?_⟩
  rw [advance_offset, show c.offset + (a.stop - a.start) = a.stop from by omega]
  exact outside.pass blank.noAttribute (by omega)

theorem Outside.bracketed (outside : Outside o c.offset) (here : Bracketed o c m a) :
    Near o (c.advance (a.stop - a.start)) m ∧ Outside o (c.advance (a.stop - a.start)).offset := by
  have start := here.start
  have long := here.lt
  refine ⟨here.level_after.near, ?_⟩
  rw [advance_offset, show c.offset + (a.stop - a.start) = a.stop from by omega]
  exact outside.behind here

/-- A place of the reading that no attribute is around. -/
structure Exposed (o c : Cursor) : Prop where
  place : ∃ m, Level o c m
  outside : Outside o c.offset

theorem Exposed.start (o : Cursor) : Exposed o o :=
  ⟨⟨0, .start o⟩, .start o⟩

/-- A doc comment, or an attribute that no other attribute is around. -/
def Outermost (o : Cursor) (a : Attribute) : Prop :=
  (∃ p, DocAt p a) ∨ ∃ p, Exposed o p ∧ p.sees "#[" = true ∧ p.readAttribute = .ok a

/-- A prelude that no attribute is around leads to such a place, by outermost attributes. -/
theorem Prelude.outermost {attrs : List Attribute} (h : Prelude c attrs head) (near : Near o c m)
    (outside : Outside o c.offset) : Outside o head.offset ∧ ∀ a ∈ attrs, Outermost o a := by
  induction h with
  | stop _ _ _ => exact ⟨outside, nofun⟩
  | @trivia c head attrs n ht _ ih =>
      obtain ⟨near, outside⟩ := outside.trivium near ht
      exact ih near outside
  | @doc c head a attrs ht doc _ ih =>
      obtain ⟨near, outside⟩ := outside.doc (near.level (trivium?_none ht).1) doc
      obtain ⟨behind, all⟩ := ih near outside
      exact ⟨behind, List.forall_mem_cons.mpr ⟨.inl ⟨c, doc⟩, all⟩⟩
  | @bracketed c head a attrs ht _ sees read _ ih =>
      have level := near.level (trivium?_none ht).1
      have exposed : Exposed o c := ⟨⟨m, level⟩, outside⟩
      obtain ⟨near, outside⟩ := outside.bracketed ⟨level.hash sees, sees, read⟩
      obtain ⟨behind, all⟩ := ih near outside
      exact ⟨behind, List.forall_mem_cons.mpr ⟨.inr ⟨c, exposed, sees, read⟩, all⟩⟩

/-- A step of the scan goes on outside every attribute it does not start in. -/
theorem ScanStep.exposed {s s' : Scan} {n : Nat} (h : ScanStep s c (.move s' n)) (more : c.ahead ≠ [])
    (exposed : Exposed o c)
    (plain : c.mayStartItem = true → ∀ item ∈ s'.items, c.PlainlyNamed item) :
    Exposed o (c.advance n) := by
  obtain ⟨m, level⟩ := exposed.place
  obtain ⟨_, _, sound, next⟩ := h.visit more level plain
  refine ⟨next, ?_⟩
  rcases sound.prelude with ⟨attrs, head, prelude, le, none⟩ | none
  · exact (prelude.outermost level.near exposed.outside).1.pass none le
  · exact exposed.outside.pass none (Nat.le_add_right _ _)

/-! ## §3. Readers that get through. -/

/-- Behind each `#[` that no attribute is around, and behind the trivia there, a name starts. -/
def PathsStart (o : Cursor) : Prop :=
  ∀ ⦃p head : Cursor⦄, Exposed o p → p.sees "#[" = true → Trivia false (p.advance 2) head →
    ∃ ch, head.ahead.head? = some ch ∧ isNameStart ch = true

/-- A word behind trivia inside brackets starts before the brackets close: what closes them is
neither blank nor a word. -/
theorem Encloses.word_lt {start close : Cursor} {code : List (Cursor × Char)} {ch : Char} {k : Int}
    (h : Encloses start code close) (outer : Level o start k) (inner : Level o c m)
    (toWord : Trivia false c head) (le : c.offset ≤ close.offset) (first : head.ahead.head? = some ch)
    (word : isWord ch = true) : head.offset < close.offset := by
  obtain ⟨levelHead, blank⟩ := toWord.spec inner.near
  obtain ⟨opener, closer, _, pair, last⟩ := h.closes
  have closes := (isCloser_of_closer? pair).1
  have code := (h.level_closer outer).bracket last (.inr closes)
  rcases Nat.lt_trichotomy head.offset close.offset with lt | same | past
  · exact lt
  · exfalso
    rw [levelHead.eq_of_offset code.level same, last] at first
    cases first
    have weight := bracketWeight_of_isWord (.inl word)
    rw [bracketWeight, closer?_of_isCloser closes, closes] at weight
    cases weight
  · exfalso
    have isBlank : isBlank closer = true := blank code le past
    rw [isBracket_not_blank (.inr closes)] at isBlank
    cases isBlank

theorem pathLength_ne_zero {ch : Char} {t : Text} (first : t.head? = some ch)
    (start : isNameStart ch = true) : Text.pathLength t ≠ 0 := by
  obtain ⟨rest, rfl⟩ := List.head?_eq_some_iff.mp first
  rw [Text.pathLength, Text.nameLength, if_pos start, if_neg (Nat.succ_ne_zero _)]
  omega

namespace Whole

variable (whole : Whole o)
include whole

/-- **An attribute is read**, if its path starts. -/
theorem exists_attribute (level : Level o p m) (sees : p.sees "#[" = true)
    (starts : ∀ head, Trivia false (p.advance 2) head →
      ∃ ch, head.ahead.head? = some ch ∧ isNameStart ch = true) : ∃ a, p.readAttribute = .ok a := by
  obtain ⟨rest, eq⟩ := sees_iff.mp sees
  have bracket := (level.hash sees).next
  rw [show bracketWeight '#' = 0 from rfl, Int.add_zero] at bracket
  have opens : (p.advance 1).ahead.head? = some '[' := by rw [advance_ahead, eq]; rfl
  obtain ⟨close, hclose⟩ := whole.exists_closing bracket opens rfl
  obtain ⟨code, encloses⟩ := closing_ok_iff.mp hclose
  have inner := (bracket.bracket opens (.inl rfl)).next
  rw [advance_advance] at inner
  obtain ⟨head, toPath⟩ := whole.exists_trivia false inner.near
  obtain ⟨ch, first, start⟩ := starts head toPath
  have levelHead := (toPath.spec inner.near).1
  have before : head.offset < close.offset := by
    refine encloses.word_lt bracket inner toPath ?_ first (isWord_of_isNameStart start)
    have long := encloses.lt
    rw [advance_offset] at long ⊢
    omega
  -- the path is cut off at the bracket, but not its first character
  have named : Text.pathLength (head.upTo close.offset) ≠ 0 := by
    refine pathLength_ne_zero ?_ start
    obtain ⟨w, eq⟩ := List.head?_eq_some_iff.mp first
    rw [Cursor.upTo, eq, show close.offset - head.offset = close.offset - head.offset - 1 + 1 from by omega]
    rfl
  obtain ⟨next, toArgs, levelNext⟩ := whole.exists_trivia_behind fun stop first outside => by
    obtain ⟨w, ahead⟩ := List.head?_eq_some_iff.mp first
    exact levelHead.path (Nat.le_of_lt before) ahead outside
  by_cases args : next.offset < close.offset ∧ next.sees "(" = true
  · have paren := first_of_sees args.2
    obtain ⟨argsClose, hargs⟩ := whole.exists_closing (levelNext _ paren rfl) paren rfl
    exact ⟨⟨_, _, _, _, _⟩, readAttribute_ok_iff.mpr ⟨close, head, next, hclose, toPath, named, toArgs,
      rfl, rfl, rfl, rfl, .inl ⟨args, argsClose, hargs, rfl⟩⟩⟩
  · exact ⟨⟨_, _, _, _, _⟩, readAttribute_ok_iff.mpr ⟨close, head, next, hclose, toPath, named, toArgs,
      rfl, rfl, rfl, rfl, .inr ⟨args, rfl⟩⟩⟩

theorem exists_doc (level : Level o p m) (starts : startsDocComment p.ahead = true) : ∃ a, DocAt p a := by
  obtain ⟨length?, h⟩ := whole.exists_lexeme? level
  exact ⟨_, starts, bind_ok_iff.mpr ⟨length?, h, rfl⟩⟩

/-- A prelude is read, if all paths start. -/
theorem exists_prelude (paths : PathsStart o) (near : Near o c m) (outside : Outside o c.offset) :
    ∃ attrs head, Prelude c attrs head := by
  have ends : ∃ r, c.readPrelude = .ok r ∧ True := by
    refine exists_walk preludeStep_steady
      (I := fun _ place => Near o place m ∧ Outside o place.offset)
      (fun attrs place _ inv => ?_) (fun attrs place _ _ => ⟨_, rfl, trivial⟩) ⟨near, outside⟩
    obtain ⟨near, outside⟩ := inv
    obtain ⟨length?, ht⟩ := whole.exists_trivium? true near
    cases length? with
    | some n => exact .inr ⟨attrs, n, preludeStep_ok_iff.mpr (.inl ⟨n, ht, rfl⟩), outside.trivium near ht⟩
    | none =>
        have level := near.level (trivium?_none ht).1
        by_cases doc : startsDocComment place.ahead = true
        · obtain ⟨a, here⟩ := whole.exists_doc level doc
          exact .inr ⟨_, _, preludeStep_ok_iff.mpr (.inr ⟨ht, .inl ⟨a, here, rfl⟩⟩), outside.doc level here⟩
        · rw [Bool.not_eq_true] at doc
          by_cases sees : place.sees "#[" = true
          · have exposed : Exposed o place := ⟨⟨m, level⟩, outside⟩
            obtain ⟨a, read⟩ := whole.exists_attribute level sees fun head toPath => paths exposed sees toPath
            exact .inr ⟨_, _, preludeStep_ok_iff.mpr (.inr ⟨ht, .inr (.inl ⟨doc, sees, a, read, rfl⟩)⟩),
              outside.bracketed ⟨level.hash sees, sees, read⟩⟩
          · rw [Bool.not_eq_true] at sees
            exact .inl ⟨_, preludeStep_ok_iff.mpr (.inr ⟨ht, .inr (.inr ⟨doc, sees, rfl⟩)⟩), trivial⟩
  obtain ⟨⟨attrs, head⟩, read, _⟩ := ends
  exact ⟨attrs, head, readPrelude_ok_iff.mp read⟩

/-- A visibility is read. -/
theorem exists_visibility (level : Level o c m) : ∃ v d, Visibility c v d := by
  by_cases pub : ∃ after, c.identifier? = some (("pub" : Text), after)
  · obtain ⟨after, pub⟩ := pub
    obtain ⟨scope, toScope⟩ := whole.exists_trivia false
      (level.identifier pub (pub_plain pub)).near
    cases found : scopeLength? scope.ahead with
    | none => exact ⟨_, _, .bare pub toScope found⟩
    | some n => exact ⟨_, _, .within pub toScope found⟩
  · exact ⟨[], c, .none fun after h => pub ⟨after, h⟩⟩

/-- **What may be the head of a declaration is read**, if all paths start. -/
theorem exists_headRead (paths : PathsStart o) (level : Level o c m) (outside : Outside o c.offset)
    (module : List Text) : ∃ item? next, HeadRead c module item? next := by
  obtain ⟨attrs, head, prelude⟩ := whole.exists_prelude paths level.near outside
  have levelHead := (prelude.laid level.near).level
  obtain ⟨visibility, behind, hvisibility⟩ := whole.exists_visibility levelHead
  have levelBehind := (hvisibility.spec levelHead).1
  obtain ⟨place, toKeyword⟩ := whole.exists_trivia false levelBehind.near
  have found : HeadAt c attrs head visibility behind place := ⟨prelude, hvisibility, toKeyword⟩
  have levelPlace := (toKeyword.spec levelBehind.near).1
  by_cases keyword : ∃ kind after, place.identifier? = some (DeclKind.keyword kind, after)
  · obtain ⟨kind, after, keyword⟩ := keyword
    have levelAfter := levelPlace.identifier keyword (keyword_plain keyword)
    obtain ⟨name, toName⟩ := whole.exists_trivia false levelAfter.near
    cases named : name.identifier? with
    | none => exact ⟨_, _, .nameless found keyword toName named⟩
    | some word =>
        obtain ⟨word, stop⟩ := word
        let item : Item := ⟨kind, word, attrs, visibility, c.offset, stop.offset, module⟩
        have here : ItemAt c item head place after name stop := ⟨⟨behind, found⟩, keyword, toName, named, rfl, rfl⟩
        exact ⟨some item, _, .item here rfl⟩
  · exact ⟨_, _, .other found fun kind after h => keyword ⟨kind, after, h⟩⟩

/-- What may be an inline module is read. -/
theorem exists_openModule? (level : Level o c m) (keyword : c.startsKeyword ["mod"] = true) :
    ∃ found, c.openModule? = .ok found := by
  have behind := (level.passMod keyword).1
  obtain ⟨name, toName⟩ := whole.exists_trivia false behind.near
  have levelName := (toName.spec behind.near).1
  rw [openModule?]
  cases named : name.identifier? with
  | none => exact ⟨none, bind_ok_iff.mpr ⟨name, skipTrivia_ok_iff.mpr toName, by rw [named]; rfl⟩⟩
  | some word =>
      obtain ⟨word, after⟩ := word
      obtain ⟨body, toBody, levelBody⟩ := whole.exists_trivia_behind fun stop first outside => by
        obtain ⟨rest, eq⟩ := List.head?_eq_some_iff.mp first
        exact levelName.identifier named (plainWord_of_behind named eq outside)
      by_cases sees : body.sees "\x7b" = true
      · have brace := first_of_sees sees
        obtain ⟨close, hclose⟩ := whole.exists_closing (levelBody _ brace rfl) brace rfl
        refine ⟨some (⟨word, close.offset⟩, body), bind_ok_iff.mpr ⟨name, skipTrivia_ok_iff.mpr toName, ?_⟩⟩
        rw [named]
        refine bind_ok_iff.mpr ⟨body, skipTrivia_ok_iff.mpr toBody, ?_⟩
        rw [if_pos sees]
        exact bind_ok_iff.mpr ⟨close, hclose, rfl⟩
      · refine ⟨none, bind_ok_iff.mpr ⟨name, skipTrivia_ok_iff.mpr toName, ?_⟩⟩
        rw [named]
        refine bind_ok_iff.mpr ⟨body, skipTrivia_ok_iff.mpr toBody, ?_⟩
        rw [if_neg sees]
        rfl

/-! ## §4. The scan. -/

/-- The scan takes a step at each place of the reading, if all paths start. -/
theorem exists_scanStep (paths : PathsStart o) (level : Level o c m) (outside : Outside o c.offset)
    (s : Scan) : ∃ step, scanStep s c = .ok step := by
  rw [scanStep]
  simp only
  split
  next keyword =>
    obtain ⟨found, h⟩ := whole.exists_openModule? level keyword
    cases found with
    | none => exact ⟨_, bind_ok_iff.mpr ⟨none, h, rfl⟩⟩
    | some found => exact ⟨_, bind_ok_iff.mpr ⟨some found, h, rfl⟩⟩
  next =>
    split
    next =>
      obtain ⟨item?, next, h⟩ := whole.exists_headRead paths level outside _
      exact ⟨_, bind_ok_iff.mpr ⟨(item?, next), readItem_ok_iff.mpr h, rfl⟩⟩
    next =>
      obtain ⟨length?, h⟩ := whole.exists_lexeme? level
      exact ⟨_, bind_ok_iff.mpr ⟨length?, h, rfl⟩⟩

/-- **The scan comes to its end**, if all paths start and no raw string opens in the name of a
declaration.  What it finds has outermost attributes only. -/
theorem exists_items (paths : PathsStart o)
    (plain : ∀ c, Exposed o c → c.mayStartItem = true → ∀ item, c.PlainlyNamed item) :
    ∃ items, o.items = .ok items ∧ ∀ item ∈ items, ∀ a ∈ item.attrs, Outermost o a := by
  -- a step of the scan starts where no attribute is around, and ends there
  refine exists_walk scanStep_steady
    (I := fun s place => Exposed o place ∧ ∀ item ∈ s.items, ∀ a ∈ item.attrs, Outermost o a)
    (fun s place more inv => ?_)
    (fun s _ _ inv => ⟨_, rfl, fun item mem => inv.2 item (List.mem_reverse.mp mem)⟩)
    ⟨.start o, nofun⟩
  obtain ⟨exposed, known⟩ := inv
  obtain ⟨m, level⟩ := exposed.place
  obtain ⟨step, h⟩ := whole.exists_scanStep paths level exposed.outside s
  cases step with
  | stop _ => cases scanStep_spec h
  | move s' n =>
      have names : place.mayStartItem = true → ∀ item ∈ s'.items, place.PlainlyNamed item :=
        fun starts item _ => plain place exposed starts item
      obtain ⟨found, eq, sound, _⟩ := (scanStep_spec h).visit more level names
      refine .inr ⟨s', n, h, (scanStep_spec h).exposed more exposed names, fun item mem => ?_⟩
      rw [eq, List.mem_append, Option.mem_toList] at mem
      rcases mem with here | mem
      · obtain ⟨_, _, _, _, _, itemAt, _⟩ := sound.item item here
        obtain ⟨_, head⟩ := itemAt.head
        exact (head.prelude.outermost level.near exposed.outside).2
      · exact known item mem

end Whole

end Cursor

end EnumExtract
