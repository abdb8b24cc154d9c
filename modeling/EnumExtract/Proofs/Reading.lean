/-
  EnumExtract.Proofs.Reading
  ────────────────────────────────
  Reading a text lexeme by lexeme.

  `Reads c code d` says that reading from `c` comes to `d` when every lexeme
  on the way is passed over as a whole; `code` lists the places in between
  where a character stands that belongs to no lexeme.  It is the one way of
  reading that all readers of the library share, and whatever two of them do
  with the same text is compared through it.

  Main results:
    • `Reads.split`        there is one way of reading: two readings from the
                           same place agree as far as the shorter one goes,
    • `nest`, `level`      brackets among the characters of a reading, kind by
                           kind and as a number,
    • `closing_ok_iff`     the place of a closing bracket is where a reading
                           whose brackets nest comes to it.
-/
import EnumExtract.Proofs.Lexemes
import EnumExtract.Source.Bracket

namespace EnumExtract

namespace Cursor

/-! ## §1. Readings. -/

/-- Reading from a cursor, lexeme by lexeme, comes to another one and passes the characters
`code` on the way, which belong to no lexeme. -/
inductive Reads : Cursor → List (Cursor × Char) → Cursor → Prop where
  | here (c : Cursor) : Reads c [] c
  | lexeme {c d : Cursor} {code : List (Cursor × Char)} {n : Nat}
      (h : c.lexeme? = .ok (some n)) (rest : Reads (c.advance n) code d) : Reads c code d
  | char {c d : Cursor} {code : List (Cursor × Char)} {ch : Char}
      (h : c.lexeme? = .ok none) (first : c.ahead.head? = some ch)
      (rest : Reads (c.advance 1) code d) : Reads c ((c, ch) :: code) d

theorem leadsTo_lexeme {c : Cursor} {n : Nat} (h : c.lexeme? = .ok (some n)) :
    c.LeadsTo (c.advance n) :=
  leadsTo_advance (lexeme?_bounds h).2

theorem leadsTo_first {c : Cursor} {ch : Char} (h : c.ahead.head? = some ch) :
    c.LeadsTo (c.advance 1) := by
  obtain ⟨rest, eq⟩ := List.head?_eq_some_iff.mp h
  exact leadsTo_advance (by rw [eq, List.length_cons]; omega)

theorem Reads.leadsTo {c d : Cursor} {code : List (Cursor × Char)} (h : Reads c code d) :
    c.LeadsTo d := by
  induction h with
  | here c => exact .refl c
  | lexeme h _ ih => exact (leadsTo_lexeme h).trans ih
  | char _ first _ ih => exact (leadsTo_first first).trans ih

theorem Reads.offset_le {c d : Cursor} {code : List (Cursor × Char)} (h : Reads c code d) :
    c.offset ≤ d.offset :=
  h.leadsTo.offset_le

theorem Reads.trans {c d e : Cursor} {code more : List (Cursor × Char)} (h : Reads c code d)
    (h' : Reads d more e) : Reads c (code ++ more) e := by
  induction h with
  | here c => exact h'
  | lexeme h _ ih => exact .lexeme h (ih h')
  | char h first _ ih => exact .char h first (ih h')

/-- **There is one way of reading.**  A reading goes on from every place that a shorter
reading from the same start comes to. -/
theorem Reads.split {c d e : Cursor} {code more : List (Cursor × Char)} (h : Reads c code d)
    (h' : Reads c more e) (le : d.offset ≤ e.offset) :
    ∃ rest, more = code ++ rest ∧ Reads d rest e := by
  induction h generalizing more with
  | here c => exact ⟨more, rfl, h'⟩
  | @lexeme c d code n h rest ih =>
      have ahead := rest.offset_le
      rw [advance_offset] at ahead
      have pos := (lexeme?_bounds h).1
      cases h' with
      | here => omega
      | lexeme h' rest' =>
          rw [h] at h'
          cases h'
          exact ih rest' le
      | char h' _ _ =>
          rw [h] at h'
          cases h'
  | @char c d code ch h first rest ih =>
      have ahead := rest.offset_le
      rw [advance_offset] at ahead
      cases h' with
      | here => omega
      | lexeme h' _ =>
          rw [h] at h'
          cases h'
      | char h' first' rest' =>
          rw [first] at first'
          cases first'
          obtain ⟨more, rfl, tail⟩ := ih rest' le
          exact ⟨more, rfl, tail⟩

/-- A reading that goes nowhere passes nothing. -/
theorem Reads.eq_nil {c d : Cursor} {code : List (Cursor × Char)} (h : Reads c code d)
    (le : d.offset ≤ c.offset) : code = [] ∧ d = c := by
  cases h with
  | here => exact ⟨rfl, rfl⟩
  | lexeme h rest =>
      have ahead := rest.offset_le
      have pos := (lexeme?_bounds h).1
      rw [advance_offset] at ahead
      omega
  | char _ _ rest =>
      have ahead := rest.offset_le
      rw [advance_offset] at ahead
      omega

/-- A reading comes to each place that it passes. -/
theorem Reads.at_mem {c d : Cursor} {code more : List (Cursor × Char)} {place : Cursor} {ch : Char}
    (h : Reads c (code ++ (place, ch) :: more) d) :
    Reads c code place ∧ place.lexeme? = .ok none ∧ place.ahead.head? = some ch
      ∧ Reads (place.advance 1) more d := by
  generalize eq : code ++ (place, ch) :: more = all at h
  induction h generalizing code with
  | here c => simp at eq
  | lexeme h _ ih =>
      obtain ⟨before, rest⟩ := ih eq
      exact ⟨.lexeme h before, rest⟩
  | @char c d all ch' h first tail ih =>
      cases code with
      | nil =>
          cases eq
          exact ⟨.here _, h, first, tail⟩
      | cons x code =>
          cases eq
          obtain ⟨before, rest⟩ := ih rfl
          exact ⟨.char h first before, rest⟩

/-- A reading of a text whose characters are no lexemes passes all of them. -/
theorem Reads.offset_lt_of_mem {c d : Cursor} {code : List (Cursor × Char)} {x : Cursor × Char}
    (h : Reads c code d) (mem : x ∈ code) : c.offset ≤ x.1.offset ∧ x.1.offset < d.offset := by
  obtain ⟨before, after, rfl⟩ := List.append_of_mem mem
  obtain ⟨toPlace, _, _, fromPlace⟩ := h.at_mem
  have := toPlace.offset_le
  have := fromPlace.offset_le
  rw [advance_offset] at this
  omega

end Cursor

/-! ## §2. Brackets of a reading. -/

/-- The closers still awaited after the characters `code`, the innermost first; a closer that
is not the one awaited leaves none. -/
def nest : List Char → List Char → Option (List Char)
  | awaited, [] => some awaited
  | awaited, ch :: code =>
      match closer? ch with
      | some closer => nest (closer :: awaited) code
      | none =>
          if isCloser ch then
            match awaited with
            | innermost :: outer => if innermost = ch then nest outer code else none
            | [] => none
          else nest awaited code

/-- How much deeper in brackets a character leads. -/
def bracketWeight (ch : Char) : Int :=
  if (closer? ch).isSome then 1 else if isCloser ch then -1 else 0

/-- How much deeper in brackets a stretch of code leads. -/
def level : List Char → Int
  | [] => 0
  | ch :: code => bracketWeight ch + level code

@[simp] theorem level_nil : level [] = 0 :=
  rfl

@[simp] theorem level_cons (ch : Char) (code : List Char) :
    level (ch :: code) = bracketWeight ch + level code :=
  rfl

@[simp] theorem level_append (code more : List Char) :
    level (code ++ more) = level code + level more := by
  induction code with
  | nil => simp
  | cons ch code ih => rw [List.cons_append, level_cons, level_cons, ih, Int.add_assoc]

theorem level_eq_zero {code : List Char} (h : ∀ ch ∈ code, bracketWeight ch = 0) : level code = 0 := by
  induction code with
  | nil => rfl
  | cons ch code ih =>
      rw [level_cons, h ch List.mem_cons_self, ih fun x mem => h x (List.mem_cons_of_mem ch mem)]
      rfl

theorem isCloser_of_closer? {ch closer : Char} (h : closer? ch = some closer) :
    isCloser closer = true ∧ isCloser ch = false := by
  rw [closer?.eq_def] at h
  split at h <;> cases h <;> decide

theorem closer?_of_isCloser {ch : Char} (h : isCloser ch = true) : closer? ch = none := by
  cases hc : closer? ch with
  | none => rfl
  | some closer =>
      rw [(isCloser_of_closer? hc).2] at h
      cases h

/-- What is awaited counts the open brackets. -/
theorem length_of_nest {code : List Char} : ∀ {awaited awaited' : List Char},
    nest awaited code = some awaited' → (awaited'.length : Int) = awaited.length + level code := by
  induction code with
  | nil =>
      intro awaited awaited' h
      cases h
      simp
  | cons ch code ih =>
      intro awaited awaited' h
      rw [nest.eq_def] at h
      simp only at h
      split at h
      next closer hc =>
        rw [ih h, level_cons, bracketWeight, hc, List.length_cons]
        simp
        omega
      next hc =>
        split at h
        next close =>
          cases awaited with
          | nil => cases h
          | cons innermost outer =>
              simp only at h
              split at h
              next =>
                rw [ih h, level_cons, bracketWeight, hc, close, List.length_cons]
                simp only [Option.isSome_none, Bool.false_eq_true, if_false, if_true]
                omega
              next => cases h
        next open' =>
          rw [ih h, level_cons, bracketWeight, hc]
          simp [open']

/-- Within a stretch that leaves something awaited, no more is closed than was open. -/
theorem nest_append {code more : List Char} : ∀ {awaited awaited' : List Char},
    nest awaited (code ++ more) = some awaited' →
      ∃ between, nest awaited code = some between ∧ nest between more = some awaited' := by
  induction code with
  | nil =>
      intro awaited awaited' h
      exact ⟨awaited, rfl, h⟩
  | cons ch code ih =>
      intro awaited awaited' h
      rw [List.cons_append, nest.eq_def] at h
      rw [nest.eq_def]
      simp only at h ⊢
      split at h
      next closer hc =>
        exact ih h
      next hc =>
        split at h
        next close =>
          rw [if_pos close]
          cases awaited with
          | nil => cases h
          | cons innermost outer =>
              simp only at h ⊢
              split at h
              next same =>
                rw [if_pos same]
                exact ih h
              next => cases h
        next close =>
          rw [if_neg close]
          exact ih h

/-- Closers awaited from outside do not matter to a stretch that closes none of them. -/
theorem nest_frame {code : List Char} (outer : List Char) : ∀ {awaited awaited' : List Char},
    nest awaited code = some awaited' → nest (awaited ++ outer) code = some (awaited' ++ outer) := by
  induction code with
  | nil =>
      intro awaited awaited' h
      cases h
      rfl
  | cons ch code ih =>
      intro awaited awaited' h
      rw [nest.eq_def] at h ⊢
      simp only at h ⊢
      split at h
      next closer hc =>
        exact ih h
      next hc =>
        split at h
        next close =>
          rw [if_pos close]
          cases awaited with
          | nil => cases h
          | cons innermost inner =>
              simp only [List.cons_append] at h ⊢
              split at h
              next same =>
                rw [if_pos same]
                exact ih h
              next => cases h
        next close =>
          rw [if_neg close]
          exact ih h

/-- Characters that are no brackets leave what is awaited as it is. -/
theorem nest_of_plain {code : List Char} (awaited : List Char)
    (plain : ∀ ch ∈ code, bracketWeight ch = 0) : nest awaited code = some awaited := by
  induction code with
  | nil => rfl
  | cons ch code ih =>
      have here := plain ch List.mem_cons_self
      rw [bracketWeight] at here
      split at here
      next => cases here
      next opens =>
        split at here
        next => cases here
        next closes =>
          rw [nest.eq_def]
          simp only [Option.not_isSome_iff_eq_none.mp opens, closes]
          exact ih fun ch' mem => plain ch' (List.mem_cons_of_mem ch mem)

/-- Brackets nest character by character. -/
theorem nest_cons (awaited : List Char) (ch : Char) (code : List Char) :
    nest awaited (ch :: code) = (nest awaited [ch]).bind (nest · code) := by
  rw [nest.eq_def, nest.eq_def awaited [ch]]
  simp only
  split
  next => rfl
  next =>
    split
    next =>
      cases awaited with
      | nil => rfl
      | cons innermost outer =>
          simp only
          split <;> rfl
    next => rfl

namespace Cursor

/-! ## §3. The place of a closing bracket. -/

/-- The characters of a reading. -/
def chars (code : List (Cursor × Char)) : List Char :=
  code.map (·.2)

@[simp] theorem chars_nil : chars [] = [] :=
  rfl

@[simp] theorem chars_cons (x : Cursor × Char) (code : List (Cursor × Char)) :
    chars (x :: code) = x.2 :: chars code :=
  rfl

@[simp] theorem chars_append (code more : List (Cursor × Char)) :
    chars (code ++ more) = chars code ++ chars more :=
  List.map_append

/-- Where more is open than is left open at the end, the innermost closer comes and all brackets
before it nest. -/
theorem exists_closer {closer : Char} {outer rest : List Char} {code : List (Cursor × Char)} :
    ∀ (inner : List Char), nest (inner ++ closer :: outer) (chars code) = some rest →
      rest.length ≤ outer.length →
      ∃ before x after, code = before ++ (x, closer) :: after ∧ nest inner (chars before) = some [] := by
  induction code with
  | nil =>
      intro inner h short
      cases h
      rw [List.length_append, List.length_cons] at short
      omega
  | cons y code ih =>
      intro inner h short
      obtain ⟨place, ch⟩ := y
      -- a character that leaves the closer awaited is passed over
      have passed (inner' : List Char) (step : nest inner [ch] = some inner')
          (h : nest (inner' ++ closer :: outer) (chars code) = some rest) :
          ∃ before x after, (place, ch) :: code = before ++ (x, closer) :: after
            ∧ nest inner (chars before) = some [] := by
        obtain ⟨before, x, after, rfl, nested⟩ := ih inner' h short
        refine ⟨(place, ch) :: before, x, after, rfl, ?_⟩
        rw [chars_cons, nest_cons, step]
        exact nested
      rw [chars_cons, nest.eq_def] at h
      simp only at h
      split at h
      next k hk => exact passed (k :: inner) (by simp [nest, hk]) h
      next plain =>
        split at h
        next closes =>
          cases inner with
          | nil =>
              simp only [List.nil_append] at h
              split at h
              next same => exact ⟨[], place, code, by rw [same]; rfl, rfl⟩
              next => cases h
          | cons innermost inner =>
              simp only [List.cons_append] at h
              split at h
              next same => exact passed inner (by simp [nest, plain, closes, same]) h
              next => cases h
        next open' => exact passed inner (by simp [nest, plain, open']) h

theorem lexeme?_of_bracket {c : Cursor} {ch : Char} (first : c.ahead.head? = some ch)
    (h : (closer? ch).isSome = true ∨ isCloser ch = true) : c.lexeme? = .ok none := by
  refine lexeme?_eq_none fun ch' first' => ?_
  rw [first] at first'
  cases first'
  rcases h with h | h
  · rw [closer?.eq_def] at h
    split at h <;> first | rfl | cases h
  · simp only [isCloser, Bool.or_eq_true, beq_iff_eq] at h
    rcases h with (rfl | rfl) | rfl <;> rfl

theorem bracketStep_lexeme {awaited : List Char} {c : Cursor} {n : Nat}
    (h : c.lexeme? = .ok (some n)) : bracketStep awaited c = .ok (.move awaited n) := by
  rw [bracketStep, h]
  rfl

theorem bracketStep_char {awaited : List Char} {c : Cursor} {ch : Char}
    (h : c.lexeme? = .ok none) (first : c.ahead.head? = some ch) :
    bracketStep awaited c =
      if isCloser ch && awaited == [ch] then .ok (.stop c)
      else
        match nest awaited [ch] with
        | some awaited' => .ok (.move awaited' 1)
        | none => c.fail (.unbalanced ch) := by
  obtain ⟨rest, eq⟩ := List.head?_eq_some_iff.mp first
  rw [bracketStep, h]
  simp only [bind, Except.bind, eq]
  cases hc : closer? ch with
  | some closer => simp [nest, hc, (isCloser_of_closer? hc).2, pure, Except.pure]
  | none =>
      cases close : isCloser ch with
      | false => simp [nest, hc, close, pure, Except.pure]
      | true =>
          cases awaited with
          | nil => simp [nest, hc, close]
          | cons innermost outer =>
              by_cases same : innermost = ch
              · subst same
                cases outer <;> simp [nest, hc, close, pure, Except.pure]
              · simp [nest, hc, close, same]

/-- A step of the search that goes on passes a lexeme, or it reads one character, which does not
close the last awaited bracket. -/
theorem bracketStep_move {awaited awaited' : List Char} {c : Cursor} {n : Nat} (more : c.ahead ≠ [])
    (h : bracketStep awaited c = .ok (.move awaited' n)) :
    (c.lexeme? = .ok (some n) ∧ awaited' = awaited)
      ∨ ∃ ch, c.lexeme? = .ok none ∧ c.ahead.head? = some ch ∧ n = 1
          ∧ (isCloser ch && awaited == [ch]) = false ∧ nest awaited [ch] = some awaited' := by
  obtain ⟨ch, rest, eq⟩ := List.exists_cons_of_ne_nil more
  have first : c.ahead.head? = some ch := by rw [eq, List.head?_cons]
  cases hl : c.lexeme? with
  | error fault =>
      rw [bracketStep, hl] at h
      cases h
  | ok length? =>
      cases length? with
      | some length =>
          rw [bracketStep_lexeme hl] at h
          cases h
          exact .inl ⟨rfl, rfl⟩
      | none =>
          rw [bracketStep_char hl first] at h
          split at h
          next => cases h
          next notLast =>
            split at h
            next after nests =>
              cases h
              exact .inr ⟨ch, rfl, first, rfl, Bool.not_eq_true _ ▸ notLast, nests⟩
            next => cases h

theorem bracketStep_steady : Steady bracketStep := by
  intro awaited c awaited' n more h
  rcases bracketStep_move more h with ⟨lexeme, _⟩ | ⟨_, _, _, rfl, _⟩
  · exact lexeme?_bounds lexeme
  · exact ⟨Nat.one_pos, List.length_pos_iff.mpr more⟩

/-- A character that does not close the last awaited bracket leaves that bracket alone. -/
theorem exists_nest_of_nest_append {inner awaited : List Char} {outermost ch : Char}
    (notLast : (isCloser ch && inner ++ [outermost] == [ch]) = false)
    (h : nest (inner ++ [outermost]) [ch] = some awaited) :
    ∃ inner', nest inner [ch] = some inner' ∧ awaited = inner' ++ [outermost] := by
  cases hc : closer? ch with
  | some closer =>
      simp only [nest, hc, Option.some.injEq] at h
      exact ⟨closer :: inner, by simp [nest, hc], h.symm⟩
  | none =>
      cases close : isCloser ch with
      | false =>
          simp [nest, hc, close] at h
          exact ⟨inner, by simp [nest, hc, close], h.symm⟩
      | true =>
          cases inner with
          | nil =>
              simp [nest, hc, close] at h
              simp [close, h.1] at notLast
          | cons innermost inner =>
              simp [nest, hc, close] at h
              exact ⟨inner, by simp [nest, hc, close, h.1], h.2.symm⟩

/-- A run of the search for a bracket reads on until the outermost closer is met. -/
theorem reads_of_bracketWalk {finish : List Char → Cursor → Except Fault Cursor}
    (never : ∀ awaited c d, finish awaited c ≠ .ok d) {awaited : List Char} {c d : Cursor}
    (h : Walks bracketStep finish awaited c d) :
    ∀ (inner : List Char) (outermost : Char), awaited = inner ++ [outermost] →
      ∃ code, Reads c code d ∧ nest inner (chars code) = some [] ∧ d.ahead.head? = some outermost := by
  induction h with
  | finish _ h => exact absurd h (never _ _ _)
  | @stop awaited c d more h =>
      rintro inner outermost rfl
      obtain ⟨ch, rest, eq⟩ := List.exists_cons_of_ne_nil more
      have first : c.ahead.head? = some ch := by rw [eq, List.head?_cons]
      cases hl : c.lexeme? with
      | error fault =>
          rw [bracketStep, hl] at h
          cases h
      | ok length? =>
          cases length? with
          | some length =>
              rw [bracketStep_lexeme hl] at h
              cases h
          | none =>
              rw [bracketStep_char hl first] at h
              split at h
              next last =>
                cases h
                simp only [Bool.and_eq_true, beq_iff_eq, List.append_eq_singleton_iff] at last
                obtain ⟨_, ⟨rfl, same⟩ | ⟨_, none⟩⟩ := last
                · cases same
                  exact ⟨[], .here _, rfl, first⟩
                · cases none
              next => split at h <;> cases h
  | @move awaited awaited' c n d h pos fits _ ih =>
      rintro inner outermost rfl
      have more : c.ahead ≠ [] := List.length_pos_iff.mp (by omega)
      rcases bracketStep_move more h with ⟨lexeme, rfl⟩ | ⟨ch, plain, first, rfl, notLast, hn⟩
      · obtain ⟨code, reads, nests, last⟩ := ih inner outermost rfl
        exact ⟨code, .lexeme lexeme reads, nests, last⟩
      · obtain ⟨inner', hn', rfl⟩ := exists_nest_of_nest_append notLast hn
        obtain ⟨code, reads, nests, last⟩ := ih inner' outermost rfl
        refine ⟨_, .char plain first reads, ?_, last⟩
        rw [chars_cons, nest_cons, hn', Option.bind_some, nests]

/-- A reading whose brackets nest is a run of the search for the bracket behind it. -/
theorem bracketWalk_of_reads {finish : List Char → Cursor → Except Fault Cursor} {c d : Cursor}
    {code : List (Cursor × Char)} (h : Reads c code d) {outermost : Char}
    (close : isCloser outermost = true) (last : d.ahead.head? = some outermost) :
    ∀ inner, nest inner (chars code) = some [] →
      Walks bracketStep finish (inner ++ [outermost]) c d := by
  induction h with
  | here c =>
      intro inner nests
      cases nests
      refine .stop (by intro empty; rw [empty] at last; cases last) ?_
      rw [bracketStep_char (lexeme?_of_bracket last (.inr close)) last]
      simp [close]
  | @lexeme c d code n hl _ ih =>
      intro inner nests
      have bounds := lexeme?_bounds hl
      exact .move (bracketStep_lexeme hl) bounds.1 bounds.2 (ih last inner nests)
  | @char c d code ch hl first _ ih =>
      intro inner nests
      rw [chars_cons, nest_cons] at nests
      obtain ⟨inner', hn, nests⟩ := Option.bind_eq_some_iff.mp nests
      have notLast : (isCloser ch && inner ++ [outermost] == [ch]) = false := by
        cases inner with
        | nil =>
            cases hc : isCloser ch with
            | false => rfl
            | true => simp [nest, closer?_of_isCloser hc, hc] at hn
        | cons x inner => simp
      have step : bracketStep (inner ++ [outermost]) c = .ok (.move (inner' ++ [outermost]) 1) := by
        rw [bracketStep_char hl first, notLast, nest_frame [outermost] hn]
        rfl
      have bound : 1 ≤ c.ahead.length := by
        obtain ⟨rest, eq⟩ := List.head?_eq_some_iff.mp first
        rw [eq, List.length_cons]
        omega
      exact .move step (by omega) bound (ih last inner' nests)

/-- What lies between a bracket and the place that closes it. -/
structure Encloses (c : Cursor) (code : List (Cursor × Char)) (d : Cursor) : Prop where
  reads : Reads (c.advance 1) code d
  nests : nest [] (chars code) = some []
  closes : ∃ opener closer, c.ahead.head? = some opener ∧ closer? opener = some closer
    ∧ d.ahead.head? = some closer

/-- **Where a bracket closes.**  The search for a closing bracket succeeds just where a reading
comes from behind the opening bracket, with all brackets on the way nested, to its closer. -/
theorem closing_ok_iff {c d : Cursor} : c.closing = .ok d ↔ ∃ code, Encloses c code d := by
  have step (opener closer : Char) (rest : Text) (eq : c.ahead = opener :: rest)
      (hc : closer? opener = some closer) : bracketStep [] c = .ok (.move [closer] 1) := by
    have first : c.ahead.head? = some opener := by rw [eq, List.head?_cons]
    rw [bracketStep_char (lexeme?_of_bracket first (.inl (by rw [hc]; rfl))) first]
    simp [nest, hc, (isCloser_of_closer? hc).2]
  constructor
  · intro h
    rw [closing] at h
    split at h
    next => cases h
    next opener rest eq =>
      split at h
      next => cases h
      next some =>
        obtain ⟨closer, hc⟩ := Option.ne_none_iff_exists'.mp (by simpa using some)
        rw [walk_move (step opener closer rest eq hc) (by omega)
          (by rw [eq, List.length_cons]; omega), walk_ok_iff bracketStep_steady] at h
        obtain ⟨code, reads, nests, last⟩ :=
          reads_of_bracketWalk (by intro _ _ _ h; cases h) h [] closer rfl
        exact ⟨code, reads, nests, opener, closer, by rw [eq, List.head?_cons], hc, last⟩
  · rintro ⟨code, reads, nests, opener, closer, first, hc, last⟩
    obtain ⟨rest, eq⟩ := List.head?_eq_some_iff.mp first
    rw [closing.eq_def, eq]
    simp only [hc, Option.isNone_some, Bool.false_eq_true, if_false]
    rw [walk_move (step opener closer rest eq hc) (by omega)
      (by rw [eq, List.length_cons]; omega), walk_ok_iff bracketStep_steady]
    exact bracketWalk_of_reads reads (isCloser_of_closer? hc).1 last [] nests

/-- A bracket that opens on a reading whose brackets are closed at its end is closed on it. -/
theorem exists_encloses {c d : Cursor} {code : List (Cursor × Char)} {outer : List Char}
    {opener closer : Char} (h : Reads c code d) (first : c.ahead.head? = some opener)
    (pair : closer? opener = some closer) (lt : c.offset < d.offset)
    (nests : nest outer (chars code) = some []) :
    ∃ inside x, Encloses c inside x ∧ x.offset < d.offset := by
  have plain := lexeme?_of_bracket first (.inl (by rw [pair]; rfl))
  cases h with
  | here => exact absurd lt (Nat.lt_irrefl _)
  | lexeme h _ =>
      rw [plain] at h
      cases h
  | @char _ _ code ch _ first' behind =>
      rw [first] at first'
      cases first'
      rw [chars_cons, nest.eq_def] at nests
      simp only [pair] at nests
      obtain ⟨inside, x, after, rfl, nested⟩ := exists_closer [] nests (Nat.zero_le _)
      obtain ⟨toCloser, _, last, _⟩ := behind.at_mem
      have before := (behind.offset_lt_of_mem (x := (x, closer)) (by simp)).2
      exact ⟨inside, x, ⟨toCloser, nested, opener, closer, first, pair, last⟩, before⟩

end Cursor

end EnumExtract
