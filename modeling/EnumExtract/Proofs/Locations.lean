/-
  EnumExtract.Proofs.Locations
  ────────────────────────────────
  Line and column of an offset, and the way back.

  Line feeds cut a text into its lines.  An offset in front of a line feed is
  still on the line that ends there, one column behind its last character:

      ab⏎⏎c      offsets   0    1    2    3    4    5
                 places    1:1  1:2  1:3  2:1  3:1  3:2

  A location is a count of line feeds and a search for the last one of them,
  the way back a sum over lines.  Both are followed by induction on the text:
  a character in front moves what follows, a line feed one line down and any
  other character the rest of its own line to the right (`Location.behind`).

  Main results:
    • `location_on`         the location of an offset is a place of the text,
                            and leads back to the offset,
    • `location_offsetOf`   a place of the text leads to an offset with that location,
    • `location_inverted`   locations increase with offsets, and are inverted by
                            the sum over lines.
-/
import EnumExtract.Text.Lines
import Mathlib.Algebra.BigOperators.Group.List.Basic
import Mathlib.Algebra.Ring.Nat
import Mathlib.Data.List.TakeWhile

namespace EnumExtract

namespace Location

/-- The location comes before the other one: on an earlier line, or to the left on the same line. -/
def Before (a b : Location) : Prop :=
  a.line < b.line ∨ (a.line = b.line ∧ a.column < b.column)

/-- What becomes of a location when a character is put in front of the text. -/
def behind (ch : Char) (l : Location) : Location :=
  if ch = '\n' then ⟨l.line + 1, l.column⟩
  else if l.line = 1 then ⟨1, l.column + 1⟩
  else l

/-- The location is a place of the text: the text has such a line, and the column is one of that
line or the one behind it. -/
structure On (t : Text) (l : Location) : Prop where
  line_pos : 1 ≤ l.line
  column_pos : 1 ≤ l.column
  fits : ∃ line, (t.splitOn '\n')[l.line - 1]? = some line ∧ l.column ≤ line.length + 1

end Location

namespace Text

/-- The offset of a location: the lines above it with their line feeds, and the columns to its left. -/
def offsetOf (t : Text) (l : Location) : Nat :=
  l.column - 1 + (((t.splitOn '\n').take (l.line - 1)).map (·.length + 1)).sum

variable {t : Text} {ch : Char} {l : Location} {i : Nat}

/-! ## §1. Lines with a character in front. -/

theorem splitOn_feed (t : Text) : List.splitOn '\n' ('\n' :: t) = [] :: t.splitOn '\n' := by
  rw [List.splitOn_cons_eq_if_modifyHead, if_pos (beq_self_eq_true '\n')]

/-- Any other character belongs to the first line. -/
theorem exists_splitOn_cons (plain : ch ≠ '\n') (t : Text) :
    ∃ first rest, t.splitOn '\n' = first :: rest
      ∧ List.splitOn '\n' (ch :: t) = (ch :: first) :: rest := by
  obtain ⟨first, rest, lines⟩ := List.exists_cons_of_ne_nil (List.splitOn_ne_nil '\n' t)
  refine ⟨first, rest, lines, ?_⟩
  rw [List.splitOn_cons_eq_if_modifyHead, if_neg (by simpa using plain), lines, List.modifyHead_cons]

/-- The search backwards for a line feed does not get past the first one. -/
theorem takeWhile_reverse_cons (feed : ch = '\n' ∨ '\n' ∈ t) :
    (ch :: t).reverse.takeWhile (· != '\n') = t.reverse.takeWhile (· != '\n') := by
  rw [List.reverse_cons, List.takeWhile_append]
  split
  next all =>
    have eq := (List.takeWhile_prefix (· != '\n')).eq_of_length all
    have none : '\n' ∉ t := fun mem => by
      simpa using List.takeWhile_eq_self_iff.mp eq '\n' (List.mem_reverse.mpr mem)
    obtain rfl := feed.resolve_right none
    rw [eq]
    exact List.append_nil _
  next => rfl

theorem lineStart_cons (feed : ch = '\n' ∨ '\n' ∈ t.take i) :
    lineStart (ch :: t) (i + 1) = t.lineStart i + 1 := by
  have short : ((t.take i).reverse.takeWhile (· != '\n')).length ≤ (t.take i).length := by
    have kept := (List.takeWhile_prefix (· != '\n') (l := (t.take i).reverse)).length_le
    rwa [List.length_reverse] at kept
  rw [lineStart, lineStart, List.take_succ_cons, takeWhile_reverse_cons feed, List.length_cons]
  omega

theorem lineStart_of_not_mem (none : '\n' ∉ t.take i) : t.lineStart i = 0 := by
  have all : (t.take i).reverse.takeWhile (· != '\n') = (t.take i).reverse := by
    rw [List.takeWhile_eq_self_iff]
    intro ch mem
    rw [bne_iff_ne]
    rintro rfl
    exact none (List.mem_reverse.mp mem)
  rw [lineStart, all, List.length_reverse, Nat.sub_self]

/-! ## §2. Locations with a character in front. -/

theorem location_zero (t : Text) : t.location 0 = ⟨1, 1⟩ := by
  rw [location, lineStart_of_not_mem (by simp)]
  rfl

/-- The first line holds the offsets that no line feed stands before. -/
theorem location_line_eq_one : (t.location i).line = 1 ↔ '\n' ∉ t.take i := by
  show lineFeeds (t.take i) + 1 = 1 ↔ _
  rw [lineFeeds, Nat.add_eq_right, List.count_eq_zero]

/-- **A character in front moves each location.** -/
theorem location_cons (ch : Char) (t : Text) (i : Nat) :
    location (ch :: t) (i + 1) = (t.location i).behind ch := by
  rw [Location.behind]
  split
  next feed =>
    subst feed
    rw [location, location, lineStart_cons (.inl rfl), List.take_succ_cons, lineFeeds, lineFeeds,
      List.count_cons_self, Nat.add_sub_add_right]
  next plain =>
    have feeds : lineFeeds ((ch :: t).take (i + 1)) = lineFeeds (t.take i) := by
      rw [List.take_succ_cons, lineFeeds, List.count_cons_of_ne plain]
      rfl
    split
    next first =>
      have none := location_line_eq_one.mp first
      have none' : '\n' ∉ (ch :: t).take (i + 1) := by
        rw [List.take_succ_cons, List.mem_cons]
        exact fun mem => mem.elim (fun eq => plain eq.symm) none
      show Location.mk (lineFeeds _ + 1) (i + 1 + 1 - lineStart _ _) = ⟨1, i + 1 - t.lineStart i + 1⟩
      rw [feeds, show lineFeeds (t.take i) + 1 = 1 from first, lineStart_of_not_mem none,
        lineStart_of_not_mem none']
      rfl
    next later =>
      have some := not_not.mp (mt location_line_eq_one.mpr later)
      rw [location, location, feeds, lineStart_cons (.inr some), Nat.add_sub_add_right]

/-- The first place of a text. -/
theorem on_start (t : Text) : Location.On t ⟨1, 1⟩ ∧ t.offsetOf ⟨1, 1⟩ = 0 := by
  obtain ⟨line, rest, lines⟩ := List.exists_cons_of_ne_nil (List.splitOn_ne_nil '\n' t)
  refine ⟨⟨Nat.le_refl 1, Nat.le_refl 1, line, ?_, Nat.succ_pos _⟩, rfl⟩
  rw [lines]
  rfl

end Text

/-- **A character in front moves each place**, and its offset by one. -/
theorem Location.On.behind {t : Text} {l : Location} (h : l.On t) (ch : Char) :
    Location.On (ch :: t) (l.behind ch) ∧ Text.offsetOf (ch :: t) (l.behind ch) = t.offsetOf l + 1 := by
  obtain ⟨line, column⟩ := l
  obtain ⟨line_pos, column_pos, row, found, fits⟩ := h
  obtain ⟨k, rfl⟩ := Nat.exists_eq_add_of_le' line_pos
  unfold Location.behind Text.offsetOf
  by_cases feed : ch = '\n'
  · -- the line feed ends an empty line, which comes before all the others
    subst feed
    rw [if_pos rfl]
    refine ⟨⟨Nat.succ_pos _, column_pos, row, ?_, fits⟩, ?_⟩
    · rw [Text.splitOn_feed]
      exact found
    · rw [Text.splitOn_feed]
      simp only [Nat.add_sub_cancel, List.take_succ_cons, List.map_cons, List.sum_cons, List.length_nil]
      omega
  · obtain ⟨first, rest, lines, lines'⟩ := Text.exists_splitOn_cons feed t
    rw [lines] at found
    rw [if_neg feed, lines, lines']
    cases k with
    | zero =>
        -- the first line has one character more, in front of the place
        cases found
        rw [if_pos rfl]
        refine ⟨⟨Nat.le_refl 1, Nat.succ_pos _, ch :: row, ?_, Nat.succ_le_succ fits⟩, ?_⟩
        · rw [lines']
          rfl
        · show column + 1 - 1 + 0 = column - 1 + 0 + 1
          have pos : 1 ≤ column := column_pos
          omega
    | succ k =>
        -- on a later line nothing changes; the sum over the lines above does
        rw [if_neg (by simp)]
        refine ⟨⟨line_pos, column_pos, row, ?_, fits⟩, ?_⟩
        · rw [lines']
          exact found
        · simp only [Nat.add_sub_cancel, List.take_succ_cons, List.map_cons, List.sum_cons, List.length_cons]
          omega

/-- The empty text has one place. -/
theorem Location.On.eq_start {l : Location} (h : l.On []) : l = ⟨1, 1⟩ := by
  obtain ⟨line, column⟩ := l
  obtain ⟨line_pos, column_pos, row, found, fits⟩ := h
  obtain ⟨k, rfl⟩ := Nat.exists_eq_add_of_le' line_pos
  obtain ⟨j, rfl⟩ := Nat.exists_eq_add_of_le' column_pos
  cases k with
  | zero =>
      cases found
      obtain rfl : j = 0 := Nat.le_zero.mp (Nat.le_of_succ_le_succ fits)
      rfl
  | succ k => cases found

/-- Each place but the first one has been moved there. -/
theorem Location.On.exists_behind {t : Text} {l : Location} {ch : Char} (h : l.On (ch :: t)) :
    l = ⟨1, 1⟩ ∨ ∃ l' : Location, l'.On t ∧ l = l'.behind ch := by
  obtain ⟨line, column⟩ := l
  obtain ⟨line_pos, column_pos, row, found, fits⟩ := h
  obtain ⟨k, rfl⟩ := Nat.exists_eq_add_of_le' line_pos
  obtain ⟨j, rfl⟩ := Nat.exists_eq_add_of_le' column_pos
  by_cases feed : ch = '\n'
  · subst feed
    rw [Text.splitOn_feed] at found
    cases k with
    | zero =>
        -- an empty line has one place
        cases found
        obtain rfl : j = 0 := Nat.le_zero.mp (Nat.le_of_succ_le_succ fits)
        exact .inl rfl
    | succ k =>
        refine .inr ⟨⟨k + 1, j + 1⟩, ⟨Nat.succ_pos _, Nat.succ_pos _, row, found, fits⟩, ?_⟩
        rw [Location.behind, if_pos rfl]
  · obtain ⟨first, rest, lines, lines'⟩ := Text.exists_splitOn_cons feed t
    rw [lines'] at found
    cases k with
    | zero =>
        cases found
        cases j with
        | zero => exact .inl rfl
        | succ j =>
            refine .inr ⟨⟨1, j + 1⟩, ⟨Nat.le_refl 1, Nat.succ_pos _, first, ?_, ?_⟩, ?_⟩
            · rw [lines]
              rfl
            · exact Nat.le_of_succ_le_succ fits
            · rw [Location.behind, if_neg feed, if_pos rfl]
    | succ k =>
        refine .inr ⟨⟨k + 1 + 1, j + 1⟩, ⟨Nat.succ_pos _, Nat.succ_pos _, row, ?_, fits⟩, ?_⟩
        · rw [lines]
          exact found
        · rw [Location.behind, if_neg feed, if_neg (by simp)]

namespace Text

variable {t : Text} {l : Location} {i : Nat}

/-! ## §3. There and back. -/

/-- **The location of an offset is a place of the text, and leads back to the offset.** -/
theorem location_on (le : i ≤ t.length) :
    (t.location i).On t ∧ t.offsetOf (t.location i) = i := by
  induction t generalizing i with
  | nil =>
      obtain rfl := Nat.le_zero.mp le
      exact on_start []
  | cons ch t ih =>
      cases i with
      | zero =>
          rw [location_zero]
          exact on_start _
      | succ i =>
          obtain ⟨on, back⟩ := ih (Nat.le_of_succ_le_succ le)
          obtain ⟨on', back'⟩ := on.behind ch
          rw [location_cons]
          exact ⟨on', back'.trans (congrArg (· + 1) back)⟩

/-- **A place of the text leads to an offset, and that has this location.** -/
theorem location_offsetOf (on : l.On t) : t.offsetOf l ≤ t.length ∧ t.location (t.offsetOf l) = l := by
  induction t generalizing l with
  | nil =>
      obtain rfl := on.eq_start
      exact ⟨Nat.le_refl 0, rfl⟩
  | cons ch t ih =>
      rcases on.exists_behind with rfl | ⟨l', on', rfl⟩
      · rw [(on_start _).2, location_zero]
        exact ⟨Nat.zero_le _, rfl⟩
      · obtain ⟨le, back⟩ := ih on'
        rw [(on'.behind ch).2, location_cons, back]
        exact ⟨Nat.succ_le_succ le, rfl⟩

theorem location_line_mono {j : Nat} (le : i ≤ j) : (t.location i).line ≤ (t.location j).line := by
  have fewer : lineFeeds (t.take i) ≤ lineFeeds (t.take j) :=
    (List.take_prefix_take_left le).sublist.count_le '\n'
  exact Nat.succ_le_succ fewer

/-- Of two offsets on one line the later one is further right: the lines above are the same. -/
theorem location_before {j : Nat} (lt : i < j) (le : j ≤ t.length) :
    (t.location i).Before (t.location j) := by
  rcases Nat.lt_or_eq_of_le (t.location_line_mono (Nat.le_of_lt lt)) with above | same
  · exact .inl above
  · refine .inr ⟨same, ?_⟩
    obtain ⟨on, back⟩ := location_on (Nat.le_of_lt (Nat.lt_of_lt_of_le lt le))
    obtain ⟨on', back'⟩ := location_on le
    have column := on.column_pos
    have column' := on'.column_pos
    rw [offsetOf, same] at back
    rw [offsetOf] at back'
    omega

/-- **Locations increase with offsets, and are inverted by the sum over lines.**  No two offsets share a
location, the location of an offset is on a line of the text, and every such place is the location of the
offset that the lines above it and the columns to its left add up to. -/
theorem location_inverted (t : Text) :
    (∀ i j, i < j → j ≤ t.length → (t.location i).Before (t.location j))
      ∧ (∀ i j, i ≤ t.length → j ≤ t.length → t.location i = t.location j → i = j)
      ∧ (∀ i, i ≤ t.length → (t.location i).On t ∧ i = t.offsetOf (t.location i))
      ∧ ∀ l : Location, l.On t → t.offsetOf l ≤ t.length ∧ t.location (t.offsetOf l) = l := by
  refine ⟨fun i j lt le => location_before lt le, fun i j le le' same => ?_, fun i le => ?_, ?_⟩
  · calc
      i = t.offsetOf (t.location i) := (location_on le).2.symm
      _ = t.offsetOf (t.location j) := by rw [same]
      _ = j := (location_on le').2
  · exact ⟨(location_on le).1, (location_on le).2.symm⟩
  · exact fun l on => location_offsetOf on

/-- The offsets around two line feeds, and the end of the text. -/
theorem location_inverted_feeds :
    Location.Before ⟨1, 3⟩ ⟨2, 1⟩
      ∧ Text.location "ab\n\nc" 2 ≠ Text.location "ab\n\nc" 3
      ∧ Location.On "ab\n\nc" ⟨3, 2⟩ ∧ 5 = Text.offsetOf "ab\n\nc" ⟨3, 2⟩
      ∧ Text.location "ab\n\nc" (Text.offsetOf "ab\n\nc" ⟨2, 1⟩) = ⟨2, 1⟩ := by
  obtain ⟨before, separate, back, forth⟩ := location_inverted "ab\n\nc"
  obtain ⟨on, sum⟩ := back 5 (by decide)
  refine ⟨before 2 3 (by decide) (by decide), fun same => ?_, on, sum, (forth ⟨2, 1⟩ ?_).2⟩
  · cases separate 2 3 (by decide) (by decide) same
  · exact ⟨by decide, by decide, [], by decide, by decide⟩

end Text

end EnumExtract
