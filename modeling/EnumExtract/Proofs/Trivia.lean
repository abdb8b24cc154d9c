/-
  EnumExtract.Proofs.Trivia
  ────────────────────────────────
  Trivia as a relation, and where in a reading it lies.

  `Trivia k c d` is the run of `skipTrivia`.  A reader of trivia need not start
  at a place of the reading: a doc comment ends, as an attribute, before the
  blanks at its end, which for a line comment are still part of the lexeme.
  `Near` takes these places in: from a place near the reading only blanks lead
  up to a place of it.

  Main results:
    • `skipTrivia_ok_iff`   the reader and the relation agree,
    • `Trivia.spec`         trivia leads back to the reading and holds no code.
-/
import EnumExtract.Proofs.Levels
import EnumExtract.Source.Trivia

namespace EnumExtract

/-! ## §1. Trivia. -/

theorem not_isBlank_of_mayStartLexeme {ch : Char} (h : Cursor.mayStartLexeme ch = true) :
    isBlank ch = false := by
  simp only [Cursor.mayStartLexeme, Bool.or_eq_true, beq_iff_eq] at h
  rcases h with (((rfl | rfl) | rfl) | rfl) | rfl <;> rfl

theorem isBracket_not_blank {ch : Char} (h : (closer? ch).isSome = true ∨ isCloser ch = true) :
    isBlank ch = false := by
  rcases h with h | h
  · rw [closer?.eq_def] at h
    split at h <;> first | rfl | cases h
  · simp only [isCloser, Bool.or_eq_true, beq_iff_eq] at h
    rcases h with (rfl | rfl) | rfl <;> rfl

theorem bracketWeight_of_blank {ch : Char} (h : isBlank ch = true) : bracketWeight ch = 0 := by
  rw [bracketWeight]
  split
  next opens =>
    rw [isBracket_not_blank (.inl opens)] at h
    cases h
  next =>
    split
    next closes =>
      rw [isBracket_not_blank (.inr closes)] at h
      cases h
    next => rfl

namespace Cursor

variable {o c d e : Cursor} {keepDocs : Bool} {n : Nat} {m : Int}

/-- A blank, or a comment that counts as trivia. -/
theorem trivium?_some (h : c.trivium? keepDocs = .ok (some n)) :
    ∃ ch, c.ahead.head? = some ch ∧
      ((isBlank ch = true ∧ n = 1)
        ∨ (isBlank ch = false ∧ (keepDocs && startsDocComment c.ahead) = false
          ∧ c.comment? = .ok (some n))) := by
  rw [trivium?] at h
  split at h
  next => cases h
  next ch rest eq =>
    refine ⟨ch, by rw [eq, List.head?_cons], ?_⟩
    split at h
    next blank =>
      cases h
      exact .inl ⟨blank, rfl⟩
    next blank =>
      split at h
      next => cases h
      next doc => exact .inr ⟨by simpa using blank, by simpa using doc, h⟩

/-- Where no trivia stands there is no blank, and a comment only if it is a doc comment. -/
theorem trivium?_none (h : c.trivium? keepDocs = .ok none) :
    (∀ ch, c.ahead.head? = some ch → isBlank ch = false)
      ∧ ((keepDocs && startsDocComment c.ahead) = true ∨ c.comment? = .ok none) := by
  rw [trivium?] at h
  split at h
  next eq =>
    refine ⟨fun ch first => ?_, .inr (comment?_eq_none ?_ ?_)⟩
    · rw [eq] at first
      cases first
    · intro rest eq'
      rw [eq] at eq'
      cases eq'
    · intro rest eq'
      rw [eq] at eq'
      cases eq'
  next ch rest eq =>
    split at h
    next => cases h
    next blank =>
      refine ⟨fun ch' first => ?_, ?_⟩
      · rw [eq] at first
        cases first
        simpa using blank
      · split at h
        next doc => exact .inl doc
        next => exact .inr h

theorem trivium?_bounds (h : c.trivium? keepDocs = .ok (some n)) :
    0 < n ∧ n ≤ c.ahead.length := by
  obtain ⟨ch, first, ⟨_, rfl⟩ | ⟨_, _, comment⟩⟩ := trivium?_some h
  · obtain ⟨rest, eq⟩ := List.head?_eq_some_iff.mp first
    rw [eq, List.length_cons]
    omega
  · exact comment?_bounds comment

/-- The trivia from a cursor on ends at another one. -/
inductive Trivia (keepDocs : Bool) : Cursor → Cursor → Prop where
  | stop {c : Cursor} (h : c.trivium? keepDocs = .ok none) : Trivia keepDocs c c
  | pass {c d : Cursor} {n : Nat} (h : c.trivium? keepDocs = .ok (some n))
      (rest : Trivia keepDocs (c.advance n) d) : Trivia keepDocs c d

theorem skipTrivia_step_steady : Steady (skipTrivia.step keepDocs) := by
  intro s c s' n more h
  rw [skipTrivia.step, bind_ok_iff] at h
  obtain ⟨length?, ht, h⟩ := h
  cases length? with
  | none => cases h
  | some length =>
      cases h
      exact trivium?_bounds ht

theorem trivium?_of_end (h : c.ahead = []) : c.trivium? keepDocs = .ok none := by
  rw [trivium?, h]

/-- A character that is neither blank nor a slash begins no trivia. -/
theorem trivium?_of_first {ch : Char} (first : c.ahead.head? = some ch)
    (notBlank : isBlank ch = false) (noSlash : ch ≠ '/') : c.trivium? keepDocs = .ok none := by
  obtain ⟨rest, eq⟩ := List.head?_eq_some_iff.mp first
  have noComment : c.comment? = .ok none := by
    refine comment?_eq_none_of_ne ?_
    rw [first]
    exact fun same => noSlash (Option.some.inj same)
  have noDoc : startsDocComment c.ahead = false := by
    unfold startsDocComment Text.startsWith
    have other (word : Text) : List.isPrefixOf ('/' :: word) c.ahead = false := by
      rw [eq, List.isPrefixOf, Bool.and_eq_false_iff]
      exact .inl (beq_eq_false_iff_ne.mpr (Ne.symm noSlash))
    rw [show ("///" : Text) = '/' :: ['/', '/'] from rfl, show ("/**" : Text) = '/' :: ['*', '*'] from rfl,
      other, other]
    rfl
  unfold trivium?
  rw [eq] at noDoc ⊢
  simp only
  rw [if_neg (by rw [notBlank]; exact Bool.false_ne_true), noDoc, Bool.and_false,
    if_neg Bool.false_ne_true, noComment]

/-- **Trivia is skipped to its end.** -/
theorem skipTrivia_ok_iff : c.skipTrivia keepDocs = .ok d ↔ Trivia keepDocs c d := by
  rw [skipTrivia, walk_ok_iff skipTrivia_step_steady]
  constructor
  · generalize () = s
    intro h
    induction h with
    | finish atEnd h =>
        cases h
        exact .stop (trivium?_of_end atEnd)
    | stop more h =>
        rw [skipTrivia.step, bind_ok_iff] at h
        obtain ⟨length?, ht, h⟩ := h
        cases length? with
        | none =>
            cases h
            exact .stop ht
        | some length => cases h
    | move h pos fits _ ih =>
        rw [skipTrivia.step, bind_ok_iff] at h
        obtain ⟨length?, ht, h⟩ := h
        cases length? with
        | none => cases h
        | some length =>
            cases h
            exact .pass ht ih
  · intro h
    induction h with
    | @stop c h =>
        by_cases atEnd : c.ahead = []
        · exact .finish atEnd rfl
        · refine .stop atEnd ?_
          rw [skipTrivia.step, h]
          rfl
    | pass h _ ih =>
        refine .move ?_ (trivium?_bounds h).1 (trivium?_bounds h).2 ih
        rw [skipTrivia.step, h]
        rfl

/-- Trivia may begin with blanks. -/
theorem Trivia.blanks {rest : Text} : ∀ {b : Text} {c : Cursor}, c.ahead = b ++ rest →
    (∀ ch ∈ b, isBlank ch = true) → Trivia keepDocs (c.advance b.length) d → Trivia keepDocs c d := by
  intro b
  induction b with
  | nil =>
      intro c _ _ h
      rwa [List.length_nil, advance_zero] at h
  | cons ch b ih =>
      intro c eq blank h
      have blank' := blank ch List.mem_cons_self
      have here : c.trivium? keepDocs = .ok (some 1) := by
        unfold trivium?
        rw [eq]
        simp only [List.cons_append, blank', if_true]
      refine .pass here (ih (c := c.advance 1) ?_ (fun x mem => blank x (List.mem_cons_of_mem _ mem)) ?_)
      · rw [advance_ahead, eq]
        rfl
      · rw [advance_advance, Nat.add_comm 1]
        exact h

theorem Trivia.leadsTo (h : Trivia keepDocs c d) : c.LeadsTo d := by
  induction h with
  | stop _ => exact .refl _
  | pass h _ ih => exact (leadsTo_advance (trivium?_bounds h).2).trans ih

/-- Trivia begins with a blank or a slash. -/
theorem Trivia.first (h : Trivia keepDocs c d) :
    d = c ∨ ∃ ch, c.ahead.head? = some ch ∧ (isBlank ch = true ∨ ch = '/') := by
  cases h with
  | stop _ => exact .inl rfl
  | pass h _ =>
      obtain ⟨ch, first, ⟨blank, _⟩ | ⟨_, _, comment⟩⟩ := trivium?_some h
      · exact .inr ⟨ch, first, .inl blank⟩
      · refine .inr ⟨'/', ?_, .inr rfl⟩
        rcases comment?_some comment with ⟨rest, eq, _⟩ | ⟨rest, eq, _⟩ <;> rw [eq] <;> rfl

theorem Trivia.ends (h : Trivia keepDocs c d) : d.trivium? keepDocs = .ok none := by
  induction h with
  | stop h => exact h
  | pass _ _ ih => exact ih

theorem Trivia.unique (h : Trivia keepDocs c d) (h' : Trivia keepDocs c e) : d = e := by
  rw [← skipTrivia_ok_iff] at h h'
  rw [h] at h'
  exact Except.ok.inj h'

/-- Without doc comments trivia reaches no less far than with them. -/
theorem Trivia.eq_of_stop (h : Trivia keepDocs c d) (stop : c.trivium? keepDocs = .ok none) :
    d = c :=
  h.unique (.stop stop)

/-! ## §2. Places near a reading. -/

/-- From `c` nothing but blanks lead up to a place of the reading from `o` that is `m`
brackets deep. -/
def Near (o c : Cursor) (m : Int) : Prop :=
  ∃ e, Level o e m ∧ o.LeadsTo c ∧ c.LeadsTo e ∧ ∀ ch ∈ c.upTo e.offset, isBlank ch = true

/-- The characters of code from offset `i` up to offset `j` have a property. -/
def AllCode (P : Char → Prop) (o : Cursor) (i j : Nat) : Prop :=
  ∀ ⦃x : Cursor⦄ ⦃ch : Char⦄ ⦃m : Int⦄, CodeAt o x ch m → i ≤ x.offset → x.offset < j → P ch

/-- The code from offset `i` up to offset `j` is blank. -/
abbrev BlankCode : Cursor → Nat → Nat → Prop :=
  AllCode fun ch => isBlank ch = true

theorem AllCode.refl (P : Char → Prop) (o : Cursor) (i : Nat) : AllCode P o i i := by
  intro x ch m _ le lt
  omega

theorem AllCode.trans {P : Char → Prop} {i j k : Nat} (h : AllCode P o i j)
    (h' : AllCode P o j k) : AllCode P o i k := by
  intro x ch m hx le lt
  by_cases before : x.offset < j
  · exact h hx le before
  · exact h' hx (by omega) lt

theorem AllCode.imp {P Q : Char → Prop} {i j : Nat} (h : AllCode P o i j)
    (weaker : ∀ ch, P ch → Q ch) : AllCode Q o i j :=
  fun _ _ _ hx le lt => weaker _ (h hx le lt)

theorem Level.allCode {P : Char → Prop} {code : List (Cursor × Char)} (h : Level o c m)
    (r : Reads c code d) (all : ∀ ch ∈ chars code, P ch) : AllCode P o c.offset d.offset := by
  intro x ch k hx le lt
  obtain ⟨before, after, rfl, _⟩ := hx.mem h r le lt
  refine all ch ?_
  rw [chars_append, chars_cons]
  exact List.mem_append_right _ List.mem_cons_self

theorem Level.near (h : Level o c m) : Near o c m := by
  refine ⟨c, h, h.leadsTo, .refl c, ?_⟩
  rw [upTo, Nat.sub_self, List.take_zero]
  intro ch mem
  cases mem

/-- A place near the reading where no blank stands is a place of the reading. -/
theorem Near.level (h : Near o c m) (plain : ∀ ch, c.ahead.head? = some ch → isBlank ch = false) :
    Level o c m := by
  obtain ⟨e, he, _, ⟨k, hk, rfl⟩, blanks⟩ := h
  cases k with
  | zero => rwa [advance_zero] at he
  | succ k =>
      cases eq : c.ahead with
      | nil =>
          rw [eq] at hk
          cases hk
      | cons ch rest =>
          have blank := blanks ch (by
            rw [upTo, advance_offset, eq, show c.offset + (k + 1) - c.offset = k + 1 from by omega,
              List.take_succ_cons]
            exact List.mem_cons_self)
          rw [plain ch (by rw [eq, List.head?_cons])] at blank
          cases blank

theorem lexeme?_of_blank {ch : Char} (first : c.ahead.head? = some ch) (blank : isBlank ch = true) :
    c.lexeme? = .ok none := by
  refine lexeme?_eq_none fun ch' first' => ?_
  rw [first] at first'
  cases first'
  cases may : mayStartLexeme ch with
  | false => rfl
  | true =>
      rw [not_isBlank_of_mayStartLexeme may] at blank
      cases blank

/-- Passing one piece of trivia stays near the reading and passes no code but blanks. -/
theorem Near.trivium (h : Near o c m) (ht : c.trivium? keepDocs = .ok (some n)) :
    Near o (c.advance n) m ∧ BlankCode o c.offset (c.offset + n) := by
  obtain ⟨e, he, behind, onward, blanks⟩ := h
  obtain ⟨ch, first, cases⟩ := trivium?_some ht
  have bounds := trivium?_bounds ht
  by_cases here : e.offset ≤ c.offset
  · have same : e = c :=
      onward.eq_of_offset (.refl c) (Nat.le_antisymm here onward.offset_le)
    subst same
    rcases cases with ⟨blank, rfl⟩ | ⟨_, _, comment⟩
    · have code : CodeAt o e ch m := ⟨he, lexeme?_of_blank first blank, first⟩
      have next := code.next
      rw [bracketWeight_of_blank blank, Int.add_zero] at next
      refine ⟨next.near, fun x ch' m' hx le lt => ?_⟩
      have : x = e := hx.level.eq_of_offset he (by omega)
      subst this
      have same := hx.first
      rw [first] at same
      cases same
      exact blank
    · have lexeme : e.lexeme? = .ok (some n) := lexeme?_some_iff.mpr (.inl comment)
      have next := he.reads (.lexeme lexeme (.here _))
      rw [chars_nil, level_nil, Int.add_zero] at next
      refine ⟨next.near, fun x ch' m' hx le lt => ?_⟩
      obtain ⟨before, after, eq, _⟩ := hx.mem he (.lexeme lexeme (.here _)) le
        (by rw [advance_offset]; exact lt)
      simp at eq
  · obtain ⟨k, hk, rfl⟩ := onward
    rw [advance_offset] at here
    obtain ⟨rest, eq⟩ := List.head?_eq_some_iff.mp first
    have blank : isBlank ch = true := by
      refine blanks ch ?_
      rw [upTo, advance_offset, eq, Nat.add_sub_cancel_left, show k = k - 1 + 1 from by omega,
        List.take_succ_cons]
      exact List.mem_cons_self
    rcases cases with ⟨_, rfl⟩ | ⟨notBlank, _⟩
    · refine ⟨⟨_, he, behind.trans (leadsTo_advance bounds.2), ⟨k - 1, ?_, ?_⟩, ?_⟩, ?_⟩
      · rw [advance_ahead, List.length_drop]
        omega
      · rw [advance_advance]
        congr 1
        omega
      · intro ch' mem
        refine blanks ch' ?_
        rw [upTo, advance_offset, Nat.add_sub_cancel_left]
        rw [upTo, advance_offset, advance_offset, advance_ahead] at mem
        rw [eq] at mem ⊢
        rw [show k = (k - 1) + 1 from by omega, List.take_succ_cons]
        rw [show c.offset + k - (c.offset + 1) = k - 1 from by omega, List.drop_succ_cons,
          List.drop_zero] at mem
        exact List.mem_cons_of_mem _ mem
      · intro x ch' m' hx le lt
        have : x = c := hx.level.leadsTo.eq_of_offset behind (by omega)
        subst this
        have same := hx.first
        rw [first] at same
        cases same
        exact blank
    · rw [blank] at notBlank
      cases notBlank

/-- **Trivia leads back to the reading, and holds no code but blanks.** -/
theorem Trivia.spec (h : Trivia keepDocs c d) (near : Near o c m) :
    Level o d m ∧ BlankCode o c.offset d.offset := by
  induction h with
  | @stop c h => exact ⟨near.level (trivium?_none h).1, .refl _ o c.offset⟩
  | @pass c d n h _ ih =>
      obtain ⟨next, blank⟩ := near.trivium h
      obtain ⟨level, more⟩ := ih next
      exact ⟨level, blank.trans more⟩

theorem Level.trivium (level : Level o c m) (h : c.trivium? keepDocs = .ok (some n)) :
    Level o (c.advance n) m := by
  obtain ⟨ch, first, ⟨blank, rfl⟩ | ⟨_, _, comment⟩⟩ := trivium?_some h
  · have next := level.reads (.char (lexeme?_of_blank first blank) first (.here _))
    rwa [chars_cons, chars_nil, level_cons, level_nil, bracketWeight_of_blank blank, Int.add_zero,
      Int.add_zero] at next
  · have next := level.reads (.lexeme (lexeme?_some_iff.mpr (.inl comment)) (.here _))
    rwa [chars_nil, level_nil, Int.add_zero] at next

/-- A place of a reading is not inside a lexeme that another place of it is at. -/
theorem Level.lexeme_le {x : Cursor} {k : Int} (level : Level o c m) (hx : Level o x k)
    (lt : c.offset < x.offset) (h : c.lexeme? = .ok (some n)) : c.offset + n ≤ x.offset := by
  obtain ⟨code, reads, _⟩ := level.reads_to hx (by omega)
  cases reads with
  | here => omega
  | lexeme h' rest =>
      rw [h] at h'
      cases h'
      exact rest.offset_le
  | char h' _ _ =>
      rw [h] at h'
      cases h'

/-- A place of a reading is not inside a blank or comment that another place of it is at. -/
theorem Level.trivium_le {x : Cursor} {k : Int} (level : Level o c m) (hx : Level o x k)
    (lt : c.offset < x.offset) (h : c.trivium? keepDocs = .ok (some n)) :
    c.offset + n ≤ x.offset := by
  obtain ⟨ch, first, ⟨_, rfl⟩ | ⟨_, _, comment⟩⟩ := trivium?_some h
  · exact lt
  · exact level.lexeme_le hx lt (lexeme?_some_iff.mpr (.inl comment))

/-- Before the end of trivia, every place of a reading is at a blank or comment. -/
theorem Trivia.trivium_of_level {x : Cursor} {k : Int} (h : Trivia keepDocs c d)
    (level : Level o c m) (hx : Level o x k) (le : c.offset ≤ x.offset) (lt : x.offset < d.offset) :
    ∃ n, x.trivium? keepDocs = .ok (some n) := by
  induction h generalizing m with
  | stop h => omega
  | @pass c d n h rest ih =>
      rcases Nat.lt_or_ge c.offset x.offset with after | before
      · have within := level.trivium_le hx after h
        exact ih (level.trivium h) within lt
      · have same : c = x := level.eq_of_offset hx (by omega)
        rw [← same]
        exact ⟨n, h⟩

end Cursor

end EnumExtract
