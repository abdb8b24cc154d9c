/-
  EnumExtract.Proofs.Locality
  ────────────────────────────────
  Sources put behind one another are transformed each for itself.

  The first source is closed: its last token is a semicolon or a closing brace,
  and it ends with a line feed.  In front of that token the scan of both
  sources is in step with the scan of the first one, and behind it with the
  scan of the second one.

      a         ──────────── } ⏎
      a ++ b    ──────────── } ⏎ ┊ ────────────
      b                            ────────────

  Bindings are left out: the enum that a struct is bound to is looked up in
  the whole source.

  Main results:
    • `ClosedAt.relocates`     the first source in front of the second one,
    • `Behind.relocates`       the second source behind the first one,
    • `Text.items_append`      the declarations of both are found,
    • `transform_append`       and what is made of them is put together,
    • `gluedDoc_reaches`       but not where a raw string is cut by a name,
    • `scoredDoc_reaches`      nor where a character is read as code.
-/
import EnumExtract.Proofs.Border
import EnumExtract.Proofs.Relocation
import Mathlib.Data.List.TakeWhile

namespace EnumExtract

open Cursor

/-! ## §1. Closed sources. -/

/-- The last token of the text, a semicolon or a closing brace, stands at offset `i`; nothing but blanks
follows it, and a line feed ends the text.

It is the last token as `lexeme?` cuts the text.  Behind a character whose escape has an underscore, as
`'\u{5_B}'`, or behind a raw C string, as `cr"\"`, a semicolon of the source may be read as a part of a
string or of a comment; such a text is not closed in this sense. -/
structure Text.ClosedAt (i : Nat) (t : Text) : Prop where
  token : ∃ ch m, CodeAt (t.cursor 0) (t.cursor i) ch m ∧ (ch = ';' ∨ ch = '\x7d')
  blank : ∀ ch ∈ t.drop (i + 1), EnumExtract.isBlank ch = true
  feed : t.getLast? = some '\n'

/-- Places at the same offset of two texts, up to a place that the reading of the first one comes by. -/
inductive UpTo (i : Nat) (t t' : Text) : Cursor → Cursor → Prop where
  | before {c c' : Cursor} (h : Before i t t' c c') : UpTo i t t' c c'
  | here : UpTo i t t' (t.cursor i) (t'.cursor i)

/-- Places of a text and of one that ends with it. -/
inductive Behind (a b : Text) : Cursor → Cursor → Prop where
  | at (j : Nat) (le : j ≤ b.length) : Behind a b (b.cursor j) ((a ++ b).cursor (j + a.length))

theorem UpTo.offsets {i : Nat} {t t' : Text} {c c' : Cursor} (h : UpTo i t t' c c') :
    c.offset ≤ i ∧ c'.offset = c.offset ∧ c = t.cursor c.offset ∧ c' = t'.cursor c.offset := by
  cases h with
  | before h =>
      obtain ⟨j, lt, rfl, rfl, _⟩ := h
      exact ⟨Nat.le_of_lt lt, rfl, rfl, rfl⟩
  | here => exact ⟨Nat.le_refl _, rfl, rfl, rfl⟩

/-- Where no lexeme stands the next places are related, too. -/
theorem UpTo.next {i : Nat} {t t' : Text} {c c' : Cursor} (h : UpTo i t t' c c') (inside : c.offset ≠ i)
    (hl : c.lexeme? = .ok none) (more : c.ahead ≠ []) : UpTo i t t' (c.advance 1) (c'.advance 1) := by
  cases h with
  | before h =>
      obtain ⟨j, lt, rfl, rfl, m, near⟩ := h
      have there := near.next hl more
      rw [advance_cursor] at there ⊢
      rw [advance_cursor]
      rcases Nat.lt_or_ge (j + 1) i with before | last
      · exact .before ⟨j + 1, before, rfl, rfl, there⟩
      · rw [show j + 1 = i from by omega]
        exact .here
  | here => exact absurd rfl inside

namespace Text.ClosedAt

variable {a b : Text} {i : Nat} {c c' : Cursor}

theorem eq_append (closed : a.ClosedAt i) : ∃ u, a = u ++ ['\n'] ∧ i < u.length := by
  obtain ⟨u, rfl⟩ := List.getLast?_eq_some_iff.mp closed.feed
  refine ⟨u, rfl, ?_⟩
  obtain ⟨ch, m, code, kind⟩ := closed.token
  have found : (u ++ ['\n'])[i]? = some ch := by
    rw [← code.first, List.head?_eq_getElem?]
    show _ = ((u ++ ['\n']).drop i)[0]?
    rw [List.getElem?_drop, Nat.add_zero]
  have bound := (List.getElem?_eq_some_iff.mp found).1
  rw [List.length_append, List.length_singleton] at bound
  refine Nat.lt_of_le_of_ne (by omega) fun last => ?_
  -- the token is no line feed
  rw [last, List.getElem?_concat_length] at found
  cases found
  rcases kind with other | other <;> cases other

theorem length (closed : a.ClosedAt i) : i + 1 < a.length := by
  obtain ⟨u, rfl, lt⟩ := closed.eq_append
  rw [List.length_append, List.length_singleton]
  omega

/-- The token is the same with another text behind the first one. -/
theorem first_append (closed : a.ClosedAt i) (b : Text) :
    ∃ ch, (a.cursor i).ahead.head? = some ch ∧ ((a ++ b).cursor i).ahead.head? = some ch
      ∧ (ch = ';' ∨ ch = '\x7d') := by
  have lt := closed.length
  obtain ⟨ch, m, code, kind⟩ := closed.token
  refine ⟨ch, code.first, ?_, kind⟩
  rw [← code.first]
  show ((a ++ b).drop i).head? = (a.drop i).head?
  rw [List.head?_drop, List.head?_drop, List.getElem?_append_left (by omega)]

/-- In front of the line feed stands the token or a blank. -/
theorem before_feed {v : Text} {x : Char} (closed : (v ++ [x] ++ ['\n'] : Text).ClosedAt i) :
    x ≠ '\'' ∧ x ≠ '\\' := by
  have lt := closed.length
  rw [List.length_append, List.length_append, List.length_singleton, List.length_singleton] at lt
  rcases Nat.lt_or_ge i v.length with inside | last
  · have mem : x ∈ (v ++ [x] ++ ['\n'] : Text).drop (i + 1) := by
      rw [List.append_assoc, List.drop_append_of_le_length (by omega)]
      simp
    have blank := closed.blank x mem
    constructor <;> rintro rfl <;> cases blank
  · obtain ⟨ch, m, code, kind⟩ := closed.token
    have same : ch = x := by
      have first : (List.drop i (v ++ [x] ++ ['\n'])).head? = some ch := code.first
      rw [show i = v.length from by omega, List.append_assoc, List.drop_left] at first
      exact (Option.some.inj first).symm
    subst same
    rcases kind with rfl | rfl <;> decide

theorem shared (closed : a.ClosedAt i) (b : Text) : Shared (a.length - 1) a (a ++ b) := by
  obtain ⟨u, rfl, lt⟩ := closed.eq_append
  refine ⟨u, '\n', [], b, rfl, by simp, by simp, rfl, .of_gap (List.cons_ne_nil _ _) rfl (by decide) ?_⟩
  rintro - (⟨v, rfl⟩ | ⟨v, rfl⟩)
  · exact closed.before_feed.1 rfl
  · rw [show v ++ ['\'', '\\'] = v ++ ['\''] ++ ['\\'] from by simp] at closed
    exact closed.before_feed.2 rfl

theorem border (closed : a.ClosedAt i) (b : Text) : Border (a.length - 1) i a (a ++ b) := by
  have lt := closed.length
  obtain ⟨ch, m, code, _⟩ := closed.token
  obtain ⟨ch, first, first', kind⟩ := closed.first_append b
  refine ⟨closed.shared b, by omega, ⟨m, code.level⟩, ch, first, first', ?_⟩
  rcases kind with rfl | rfl <;> decide

/-- **The first source is read in lockstep with both of them**, up to its last token. -/
theorem lockstep (closed : a.ClosedAt i) (b : Text) : Lockstep a (a ++ b) (UpTo i a (a ++ b)) where
  place h := by
    obtain ⟨_, same, here, there⟩ := h.offsets
    exact ⟨here, by rw [same]; exact there⟩
  order h h' := by
    rw [h.offsets.2.1, h'.offsets.2.1]
  inStep h := by
    cases h with
    | before h => exact .inl ((closed.border b).inStep (fun _ _ => .before) .here h)
    | here =>
        have lt := closed.length
        obtain ⟨ch, m, code, _⟩ := closed.token
        obtain ⟨ch, first, first', kind⟩ := closed.first_append b
        have agree := (closed.shared b).agree (j := i) (by omega)
        have noLexeme {x : Cursor} (first : x.ahead.head? = some ch) : x.lexeme? = .ok none := by
          refine lexeme?_eq_none fun ch' first' => ?_
          rw [first] at first'
          cases first'
          rcases kind with rfl | rfl <;> rfl
        refine .inl (.of_char first first' (noLexeme first) (noLexeme first') ?_ ?_ ?_ agree.atWordStart ?_)
        · rcases kind with rfl | rfl <;> rfl
        · rcases kind with rfl | rfl <;> decide
        · rcases kind with rfl | rfl <;> decide
        · -- nothing but blanks stands behind the token
          intro passable
          exfalso
          rcases passable with other | ⟨ch', mem, plain⟩
          · have ne := other ch first
            rcases kind with rfl | rfl
            · exact ne.1 rfl
            · exact ne.2 rfl
          · have behind : (a.cursor i).ahead.drop 1 = a.drop (i + 1) := List.drop_drop
            rw [behind] at mem
            rw [closed.blank ch' mem] at plain
            cases plain

/-- Attributes end in front of the last token. -/
theorem keepsAttributes (closed : a.ClosedAt i) (b : Text) : KeepsAttributes (UpTo i a (a ++ b)) := by
  intro c c' d h sees hd
  have lt := closed.length
  obtain ⟨le, same, here, there⟩ := h.offsets
  refine ⟨?_, fun x x' hx _ _ => by rw [hx.offsets.2.1, same]⟩
  have within : d.offset ≤ i := by
    have L := closed.lockstep b
    obtain ⟨rest, eq⟩ := sees_iff.mp sees
    have hash : c.ahead.head? = some '#' := by rw [eq]; rfl
    obtain ⟨_, _, related⟩ := L.closing (L.behind h hash rfl rfl (passable_of_first hash (by decide))) hd
    exact related.offsets.1
  rw [here, there]
  refine (closed.shared b).take ?_ ?_
  · show c.offset ≤ _
    omega
  · show c.offset + (d.offset + 1 - c.offset) ≤ _
    omega

/-- **What is made of the first source is made in front of the second one.** -/
theorem relocates (closed : a.ClosedAt i) (b : Text) :
    Relocates 0 (a.length - 1) a (a ++ b) (UpTo i a (a ++ b)) where
  bound := Nat.sub_le _ _
  parts := by
    have lt := closed.length
    exact ⟨[], b, rfl, rfl, .inl rfl, .inr ⟨by omega, closed.feed⟩⟩
  lockstep := closed.lockstep b
  shift h := h.offsets.2.1
  onward h := by
    have lt := closed.length
    have le := h.offsets.1
    exact ⟨by omega, fun _ => by omega⟩
  agree h _ := by
    have lt := closed.length
    obtain ⟨le, _, here, there⟩ := h.offsets
    rw [here, there]
    exact (closed.shared b).agree (by omega)

end Text.ClosedAt

namespace Behind

variable {a b : Text} {c c' : Cursor}

theorem ahead_eq (a b : Text) (j : Nat) : ((a ++ b).cursor (j + a.length)).ahead = (b.cursor j).ahead := by
  show (a ++ b).drop (j + a.length) = b.drop j
  rw [List.drop_append, List.drop_of_length_le (by omega), List.nil_append, Nat.add_sub_cancel]

theorem before_eq (a b : Text) {j : Nat} (pos : 0 < j) :
    ((a ++ b).cursor (j + a.length)).before = (b.cursor j).before := by
  show (if j + a.length = 0 then none else (a ++ b)[j + a.length - 1]?) = if j = 0 then none else b[j - 1]?
  rw [if_neg (by omega), if_neg (by omega), List.getElem?_append_right (by omega)]
  congr 1
  omega

theorem offsets (h : Behind a b c c') : c.offset ≤ b.length ∧ c'.offset = c.offset + a.length
    ∧ c = b.cursor c.offset ∧ c' = (a ++ b).cursor (c.offset + a.length) := by
  cases h with
  | «at» j le => exact ⟨le, rfl, rfl, rfl⟩

theorem advance {n : Nat} (h : Behind a b c c') (le : n ≤ c.ahead.length) :
    Behind a b (c.advance n) (c'.advance n) := by
  cases h with
  | «at» j fits =>
      have bound : n ≤ (b.drop j).length := le
      rw [List.length_drop] at bound
      rw [advance_cursor, advance_cursor, Nat.add_right_comm]
      exact .at (j + n) (by omega)

/-- **The second source is read in lockstep with both of them**, if no word goes on from the first. -/
theorem lockstep (apart : ∀ ch, a.getLast? = some ch → isWord ch = false) :
    Lockstep b (a ++ b) (Behind a b) where
  place h := by
    obtain ⟨_, same, here, there⟩ := h.offsets
    exact ⟨here, by rw [same]; exact there⟩
  order h h' := by
    rw [h.offsets.2.1, h'.offsets.2.1]
    omega
  inStep h := by
    have same := h
    cases h with
    | «at» j le =>
        refine .inl (.of_same (ahead_eq a b j) ?_ fun n fits => same.advance fits)
        unfold atWordStart
        by_cases pos : 0 < j
        · rw [before_eq a b pos]
        · obtain rfl : j = 0 := by omega
          show Option.all _ (if 0 + a.length = 0 then none else (a ++ b)[0 + a.length - 1]?) = true
          split
          next => rfl
          next more =>
            rw [List.getElem?_append_left (by omega), Nat.zero_add, ← List.getLast?_eq_getElem?]
            cases last : a.getLast? with
            | none => rfl
            | some ch => rw [Option.all_some, apart ch last, Bool.not_false]

theorem keepsAttributes (a b : Text) : KeepsAttributes (Behind a b) := by
  intro c c' d h _ _
  obtain ⟨_, same, here, there⟩ := h.offsets
  refine ⟨?_, fun x x' hx _ _ => ?_⟩
  · rw [there, ahead_eq, ← here]
  · rw [hx.offsets.2.1, same]
    omega

theorem passesNames {a b : Text} (c : Cursor) : c.PassesNames (Behind a b) := by
  intro item head place behind name after hi name' after' related named'
  obtain ⟨hw, rfl⟩ := identifier?_eq_some hi.name
  obtain ⟨_, rfl⟩ := identifier?_eq_some named'
  obtain ⟨rest, eq, _⟩ := Text.identifier?_some hw
  exact related.advance (by rw [eq, List.length_append]; omega)

/-- **What is made of the second source is made behind the first one.** -/
theorem relocates (feed : a.getLast? = some '\n') :
    Relocates a.length b.length b (a ++ b) (Behind a b) where
  bound := Nat.le_refl _
  parts := ⟨a, [], by rw [List.append_nil], rfl, .inr feed, .inl rfl⟩
  lockstep := lockstep fun ch last => by
    rw [feed] at last
    cases last
    rfl
  shift h := h.offsets.2.1
  onward h := by
    obtain ⟨le, _, here, _⟩ := h.offsets
    refine ⟨le, fun more => ?_⟩
    rw [here] at more
    have pos : 0 < (b.drop _).length := List.length_pos_iff.mpr more
    rw [List.length_drop] at pos
    omega
  agree h pos := by
    cases h with
    | «at» j le =>
        have size : (b.drop j).length = b.length - j := List.length_drop
        refine ⟨before_eq a b pos, b.drop j, [], [], (List.append_nil _).symm, ?_, ?_, ?_, .alone _ _⟩
        · rw [List.append_nil]
          exact ahead_eq a b j
        · show j + (b.drop j).length = b.length
          omega
        · show j + a.length + (b.drop j).length = b.length + a.length
          omega

end Behind

/-! ## §2. The scan of both sources. -/

namespace Cursor

/-- What no word, comment, literal or attribute begins with is passed by the scan. -/
theorem scanStep_idle {s : Scan} {c : Cursor} {ch : Char} (first : c.ahead.head? = some ch)
    (plain : c.lexeme? = .ok none) (noWord : isWord ch = false) (hash : ch ≠ '#') :
    scanStep s c = .ok (.move ⟨s.items, s.modules.dropWhile (·.close < c.offset)⟩ 1) := by
  have noName : c.identifier? = none := by
    refine identifier?_of_head? first (Bool.eq_false_iff.mpr fun start => ?_)
    rw [isWord_of_isNameStart start] at noWord
    cases noWord
  have noKeyword (keywords : List Text) : c.startsKeyword keywords = false := by
    unfold Cursor.identifier? at noName
    unfold startsKeyword
    rw [Option.map_eq_none_iff.mp noName, Option.any_none, Bool.and_false]
  have noDoc : startsDocComment c.ahead = false :=
    Bool.eq_false_iff.mpr fun doc => comment?_of_startsDocComment doc (lexeme?_none_iff.mp plain).1
  have unseen : c.sees "#[" = false := by
    refine Bool.eq_false_iff.mpr fun sees => ?_
    obtain ⟨rest, eq⟩ := sees_iff.mp sees
    rw [eq] at first
    exact hash (Option.some.inj first).symm
  have noItem : c.mayStartItem = false := by
    rw [mayStartItem, noDoc, unseen, noKeyword, Bool.or_false, Bool.or_false]
  unfold scanStep
  rw [noKeyword, noItem, plain]
  rfl

variable {finish : Scan → Cursor → Except Fault (List Item)} {found : List Item}

/-- Blanks are passed by the scan, and the modules that close in front of them are left. -/
theorem walks_of_blank {ws : Text} : ∀ {s : Scan} {c : Cursor} {rest : Text}, c.ahead = ws ++ rest → ws ≠ [] →
    (∀ ch ∈ ws, isBlank ch = true) → (∀ m ∈ s.modules, m.close < c.offset) →
      Walks scanStep finish ⟨s.items, []⟩ (c.advance ws.length) found → Walks scanStep finish s c found := by
  induction ws with
  | nil => exact fun _ none => absurd rfl none
  | cons w ws ih =>
      intro s c rest eq _ blank left walks
      have first : c.ahead.head? = some w := by rw [eq]; rfl
      have here := blank w List.mem_cons_self
      have step : scanStep s c = .ok (.move ⟨s.items, s.modules.dropWhile (·.close < c.offset)⟩ 1) := by
        refine scanStep_idle first (lexeme?_of_blank first here) (Bool.eq_false_iff.mpr fun word => ?_) ?_
        · rw [not_isBlank_of_isWord word] at here
          cases here
        · rintro rfl
          cases here
      have none : s.modules.dropWhile (·.close < c.offset) = [] :=
        List.dropWhile_eq_nil_iff.mpr fun m mem => decide_eq_true (left m mem)
      rw [none] at step
      refine .move step Nat.one_pos (by rw [eq, List.cons_append, List.length_cons]; omega) ?_
      by_cases more : ws = []
      · subst more
        exact walks
      · have ahead : (c.advance 1).ahead = ws ++ rest := by rw [advance_ahead, eq]; rfl
        refine ih ahead more (fun ch mem => blank ch (List.mem_cons_of_mem _ mem)) nofun ?_
        rw [advance_advance, Nat.add_comm]
        exact walks

end Cursor

section Scans

variable {a b : Text} {i : Nat} {items items' found : List Item}

/-- Behind the last token nothing more is found, and all modules are left. -/
theorem Text.ClosedAt.walks (closed : a.ClosedAt i) {s : Scan} (left : ∀ m ∈ s.modules, m.close ≤ i)
    (walks : Walks scanStep Scan.found ⟨s.items, []⟩ ((a ++ b).cursor a.length) items) :
    Walks scanStep Scan.found s ((a ++ b).cursor i) items := by
  have lt := closed.length
  obtain ⟨ch, _, first, kind⟩ := closed.first_append b
  have step : scanStep s ((a ++ b).cursor i)
      = .ok (.move ⟨s.items, s.modules.dropWhile (·.close < i)⟩ 1) := by
    refine scanStep_idle first (lexeme?_eq_none fun ch' first' => ?_) ?_ ?_
    · rw [first] at first'
      cases first'
      rcases kind with rfl | rfl <;> rfl
    · rcases kind with rfl | rfl <;> rfl
    · rcases kind with rfl | rfl <;> decide
  refine .move step Nat.one_pos ?_ ?_
  · show 1 ≤ ((a ++ b).drop i).length
    rw [List.length_drop, List.length_append]
    omega
  · have ahead : (((a ++ b).cursor i).advance 1).ahead = a.drop (i + 1) ++ b := by
      rw [advance_cursor]
      exact List.drop_append_of_le_length (by omega)
    refine walks_of_blank ahead ?_ closed.blank (fun m mem => ?_) ?_
    · rw [ne_eq, List.drop_eq_nil_iff]
      omega
    · have := left m ((List.dropWhile_sublist _).subset mem)
      show m.close < i + 1
      omega
    · rw [advance_advance, advance_cursor, List.length_drop,
        show i + (1 + (a.length - (i + 1))) = a.length from by omega]
      exact walks

/-- The modules that are open close in front of the token. -/
theorem Cursor.Scan.Tracked.close_le {s s' : Scan} {base : List Item}
    (tracked : Scan.Tracked (UpTo i a b) base s s') :
    (∀ m ∈ s.modules, m.close ≤ i) ∧ ∀ m ∈ s'.modules, m.close ≤ i := by
  constructor
  · intro m mem
    obtain ⟨_, _, same⟩ := exists_of_forall₂_left tracked.modules mem
    obtain ⟨x, x', hx, close, _⟩ := same.close
    rw [← close]
    exact hx.offsets.1
  · intro m mem
    obtain ⟨_, _, same⟩ := exists_of_forall₂_right tracked.modules mem
    obtain ⟨x, x', hx, _, close⟩ := same.close
    rw [← close, hx.offsets.2.1]
    exact hx.offsets.1

/-- In both texts the scan comes to the last token of the first one, and has found the same. -/
theorem Text.ClosedAt.toToken (closed : a.ClosedAt i) (names : (a.cursor 0).NamesPlain) (b : Text)
    (h : a.items = .ok items) :
    ∃ s s', Scan.Tracked (UpTo i a (a ++ b)) [] s s' ∧ Walks scanStep Scan.found s (a.cursor i) items
      ∧ ∀ all, Walks scanStep Scan.found s' ((a ++ b).cursor i) all → (a ++ b).items = .ok all := by
  have lt := closed.length
  have L := closed.lockstep b
  have start : UpTo i a (a ++ b) (a.cursor 0) ((a ++ b).cursor 0) := by
    by_cases none : i = 0
    · subst none
      exact .here
    · exact .before ⟨0, by omega, rfl, rfl, 0, (Level.start _).near⟩
  rw [Text.items_ok_iff] at h
  obtain ⟨s, c, s', c', related, tracked, ends, walks, back⟩ :=
    L.trail (I := fun c _ => Exposed (a.cursor 0) c) (fun c => c.offset = i) (closed.keepsAttributes b)
      (fun _ _ h here _ hl more => h.next here hl more)
      (fun c _ _ exposed starts => L.passesNames (names c exposed starts))
      (fun _ _ _ _ _ _ _ _ _ exposed more hs _ => names.step exposed more hs)
      h start (.start _) Scan.Tracked.start
  obtain ⟨le, same, here, there⟩ := related.offsets
  -- the first text does not end in front of its token
  have atToken : c.offset = i := by
    refine ends.resolve_left fun none => ?_
    rw [here] at none
    have atEnd := List.drop_eq_nil_iff.mp none
    omega
  rw [atToken] at here there
  rw [here] at walks
  rw [there] at back
  exact ⟨s, s', tracked, walks, fun all walks => Text.items_ok_iff.mpr (back all walks)⟩

/-- **The declarations of a closed source are found in front of another one**, and from there on the
scan is on its own. -/
theorem Text.ClosedAt.scanned (closed : a.ClosedAt i) (names : (a.cursor 0).NamesPlain) (b : Text)
    (h : a.items = .ok items) :
    ∃ found, List.Forall₂ (Item.Tracked (UpTo i a (a ++ b))) items found
      ∧ ∀ all, Walks scanStep Scan.found ⟨found.reverse, []⟩ ((a ++ b).cursor a.length) all →
          (a ++ b).items = .ok all := by
  obtain ⟨s, s', tracked, walks, back⟩ := closed.toToken names b h
  obtain ⟨left, left'⟩ := tracked.close_le
  have items_eq : items = s.items.reverse := by
    -- alone, too, the first source has been found where its token stands
    have ended : Walks scanStep Scan.found s ((a ++ []).cursor i) s.items.reverse := by
      refine closed.walks left (.finish ?_ rfl)
      show (a ++ []).drop a.length = []
      rw [List.append_nil, List.drop_length]
    rw [List.append_nil] at ended
    have result := walks.walk_ok
    rw [ended.walk_ok] at result
    cases result
    rfl
  obtain ⟨found, itemsEq, all⟩ := tracked.items
  rw [List.append_nil] at itemsEq
  refine ⟨s'.items.reverse, ?_, fun all walks => back all (closed.walks left' ?_)⟩
  · rw [items_eq, itemsEq]
    exact List.rel_reverse all
  · rwa [List.reverse_reverse] at walks

/-- **The declarations of a source are found behind another one.** -/
theorem Behind.scanned (apart : ∀ ch, a.getLast? = some ch → isWord ch = false) (base : List Item)
    (h : b.items = .ok items) :
    ∃ found, List.Forall₂ (Item.Tracked (Behind a b)) items found
      ∧ Walks scanStep Scan.found ⟨base, []⟩ ((a ++ b).cursor a.length) (base.reverse ++ found) := by
  have start : Behind a b (b.cursor 0) ((a ++ b).cursor a.length) := by
    have related : Behind a b (b.cursor 0) ((a ++ b).cursor (0 + a.length)) := .at 0 (Nat.zero_le _)
    rwa [Nat.zero_add] at related
  have tracked : Scan.Tracked (Behind a b) base ⟨[], []⟩ ⟨base, []⟩ := ⟨⟨[], rfl, .nil⟩, .nil⟩
  obtain ⟨found, walks, all⟩ := (lockstep apart).run (I := fun _ _ => True) (keepsAttributes a b)
    (fun c c' h _ _ more => h.advance (List.length_pos_iff.mpr more)) (fun c _ _ _ _ => passesNames c)
    (fun _ _ _ _ _ _ _ _ _ _ _ _ _ => trivial) (fun _ _ => rfl) (Text.items_ok_iff.mp h) start trivial
    tracked
  exact ⟨found, all, walks⟩

/-- **The declarations of both sources are found**, those of the second one at later offsets. -/
theorem Text.items_append (closed : a.ClosedAt i) (names : (a.cursor 0).NamesPlain)
    (ha : a.items = .ok items) (hb : b.items = .ok items') :
    ∃ front back, (a ++ b).items = .ok (front ++ back)
      ∧ List.Forall₂ (Item.Tracked (UpTo i a (a ++ b))) items front
      ∧ List.Forall₂ (Item.Tracked (Behind a b)) items' back := by
  have apart : ∀ ch, a.getLast? = some ch → isWord ch = false := fun ch last => by
    rw [closed.feed] at last
    cases last
    rfl
  obtain ⟨front, allFront, onward⟩ := closed.scanned names b ha
  obtain ⟨back, allBack, walks⟩ := Behind.scanned apart front.reverse hb
  refine ⟨front, back, onward _ ?_, allFront, allBack⟩
  rwa [List.reverse_reverse] at walks

end Scans

/-! ## §3. What is made of both sources. -/

/-- No declaration of the source is bound to a variant. -/
def Text.Unbound (t : Text) : Prop :=
  ∀ items, t.items = .ok items → ∀ item ∈ items, ∀ a ∈ item.attrs, a.path ≠ StructDecl.directive

theorem filterMapM_append_ok {α β ε : Type} {f : α → Except ε (Option β)} {xs xs' : List α}
    {ys ys' : List β} (h : xs.filterMapM f = .ok ys) (h' : xs'.filterMapM f = .ok ys') :
    (xs ++ xs').filterMapM f = .ok (ys ++ ys') := by
  obtain ⟨found, all, rfl⟩ := filterMapM_ok_iff.mp h
  obtain ⟨found', all', rfl⟩ := filterMapM_ok_iff.mp h'
  exact filterMapM_ok_iff.mpr ⟨found ++ found', List.rel_append all all', List.filterMap_append.symm⟩

/-- **Sources put behind one another are transformed each for itself**: the text is that of the first
one and then that of the second one, and so are the blocks. -/
theorem transform_append {a b label : Text} {schema : List EnumSource} {first second : Rendered}
    (closed : a = [] ∨ ∃ i, a.ClosedAt i) (names : (a.cursor 0).NamesPlain)
    (unbound : a.Unbound) (unbound' : b.Unbound)
    (ha : transform a schema label = .ok first) (hb : transform b schema label = .ok second) :
    transform (a ++ b) schema label = .ok ⟨first.text ++ second.text, first.blocks ++ second.blocks⟩ := by
  rcases closed with rfl | ⟨i, closed⟩
  · cases ha
    exact hb
  · obtain ⟨changes, hplan, made⟩ := bind_ok_iff.mp ha
    cases made
    obtain ⟨changes', hplan', made⟩ := bind_ok_iff.mp hb
    cases made
    obtain ⟨items, hitems, hplan⟩ := bind_ok_iff.mp hplan
    obtain ⟨items', hitems', hplan'⟩ := bind_ok_iff.mp hplan'
    obtain ⟨front, back, found, allFront, allBack⟩ := Text.items_append closed names hitems hitems'
    have P := closed.relocates b
    have P' := Behind.relocates (b := b) closed.feed
    obtain ⟨planned, within⟩ := P.plan allFront (unbound items hitems) hplan
    obtain ⟨planned', within'⟩ := P'.plan allBack (unbound' items' hitems') hplan'
    obtain ⟨edits, inside⟩ := P.flatMap_edits within
    obtain ⟨edits', _⟩ := P'.flatMap_edits within'
    refine bind_ok_iff.mpr ⟨_, bind_ok_iff.mpr ⟨_, found, filterMapM_append_ok planned planned'⟩, ?_⟩
    -- the edits of the first source stay where they are
    have same : (changes.flatMap (Change.edits a)).map (·.relocated (· + 0))
        = changes.flatMap (Change.edits a) := List.map_id _
    rw [List.flatMap_append, edits, edits', same, Text.applyEdits_append _ inside, List.map_append,
      List.map_map, List.map_map]
    rfl

/-! ## §4. Two sources that are put together, and two that are not. -/

theorem Text.ClosedAt.of_level {t : Text} {i : Nat} {m : Int} (level : Level (t.cursor 0) (t.cursor i) m)
    (plain : (t.cursor i).lexeme? = .ok none)
    (first : (t.cursor i).ahead.head? = some ';' ∨ (t.cursor i).ahead.head? = some '\x7d')
    (blank : (t.drop (i + 1)).all EnumExtract.isBlank = true) (feed : t.getLast? = some '\n') :
    t.ClosedAt i := by
  refine ⟨?_, List.all_eq_true.mp blank, feed⟩
  rcases first with semicolon | brace
  · exact ⟨';', m, ⟨level, plain, semicolon⟩, .inl rfl⟩
  · exact ⟨'\x7d', m, ⟨level, plain, brace⟩, .inr rfl⟩

theorem Text.Unbound.of_ok {t : Text} (h : ∃ items, t.items = .ok items
    ∧ ∀ item ∈ items, ∀ a ∈ item.attrs, a.path ≠ StructDecl.directive) : t.Unbound := by
  obtain ⟨items, hitems, all⟩ := h
  intro items' hitems'
  rw [hitems] at hitems'
  cases hitems'
  exact all

/-- An enum in a module that is closed. -/
def closedModule : Text :=
  "mod m \x7b\n    #[extract_variant]\n    enum E \x7b A, B(u8) \x7d\n\x7d\n"

/-- An enum without a line feed in the source. -/
def oneLineEnum : Text := "#[extract_variant] enum E \x7b A \x7d"

theorem closedModule_closedAt : closedModule.ClosedAt 55 := by
  obtain ⟨code, reads, _⟩ := reads_plain (u := closedModule.take 55) (c := closedModule.cursor 0)
    (List.take_append_drop 55 _).symm (by decide +kernel)
  exact .of_level ⟨code, reads, rfl⟩ (by decide +kernel) (by decide +kernel) (by decide +kernel)
    (by decide +kernel)

theorem oneLineEnum_unbound : oneLineEnum.Unbound :=
  .of_ok (exists_ok_of_decide (by decide +kernel))

theorem closedModule_append :
    ∃ first second, transform closedModule [] "" = .ok first ∧ first.blocks.length = 1
      ∧ transform oneLineEnum [] "" = .ok second ∧ second.blocks.length = 1
      ∧ transform (closedModule ++ oneLineEnum) [] ""
        = .ok ⟨first.text ++ second.text, first.blocks ++ second.blocks⟩ := by
  obtain ⟨first, ha, one⟩ : ∃ first, transform closedModule [] "" = .ok first
      ∧ first.blocks.length = 1 := exists_ok_of_decide (by decide +kernel)
  obtain ⟨second, hb, one'⟩ : ∃ second, transform oneLineEnum [] "" = .ok second
      ∧ second.blocks.length = 1 := exists_ok_of_decide (by decide +kernel)
  exact ⟨first, second, ha, one, hb, one', transform_append (.inr ⟨55, closedModule_closedAt⟩)
    (Cursor.namesPlain_of_noQuote (by decide +kernel))
    (.of_ok (exists_ok_of_decide (by decide +kernel))) oneLineEnum_unbound ha hb⟩

/-- A raw string and a string behind the keyword of a struct.  The scan takes the `r` for the name, so
that a doc comment begins behind the next string. -/
def gluedDoc : Text := "  struct r\"\\\" \"///\" ;\n"

theorem gluedDoc_closedAt : gluedDoc.ClosedAt 20 := by
  obtain ⟨code, reads, _⟩ := reads_plain (u := gluedDoc.take 9) (c := gluedDoc.cursor 0)
    (List.take_append_drop 9 _).symm (by decide +kernel)
  have raw : (gluedDoc.cursor 9).lexeme? = .ok (some 4) := by decide +kernel
  have gap : (gluedDoc.cursor 13).lexeme? = .ok none := by decide +kernel
  have string : (gluedDoc.cursor 14).lexeme? = .ok (some 5) := by decide +kernel
  have gap' : (gluedDoc.cursor 19).lexeme? = .ok none := by decide +kernel
  have behind : Reads (gluedDoc.cursor 9) [(gluedDoc.cursor 13, ' '), (gluedDoc.cursor 19, ' ')]
      (gluedDoc.cursor 20) :=
    .lexeme raw (.char gap (by decide) (.lexeme string (.char gap' (by decide) (.here _))))
  exact .of_level ⟨_, reads.trans behind, rfl⟩ (by decide +kernel) (by decide +kernel) (by decide +kernel)
    (by decide +kernel)

/-- **A name that cuts a raw string reaches into the next source**: the doc comment that the scan finds
in the first one becomes an attribute of the enum, whose block is indented by the line of the comment. -/
theorem gluedDoc_reaches :
    gluedDoc.ClosedAt 20 ∧ gluedDoc.Unbound ∧ oneLineEnum.Unbound
      ∧ ∃ first second both, transform gluedDoc [] "" = .ok first ∧ transform oneLineEnum [] "" = .ok second
        ∧ transform (gluedDoc ++ oneLineEnum) [] "" = .ok both ∧ both.text ≠ first.text ++ second.text := by
  refine ⟨gluedDoc_closedAt, .of_ok (exists_ok_of_decide (by decide +kernel)), oneLineEnum_unbound, ?_⟩
  obtain ⟨second, hb, length⟩ : ∃ second, transform oneLineEnum [] "" = .ok second
      ∧ second.text.length = 404 := exists_ok_of_decide (by decide +kernel)
  obtain ⟨both, h, length'⟩ : ∃ both, transform (gluedDoc ++ oneLineEnum) [] "" = .ok both
      ∧ both.text.length = 456 := exists_ok_of_decide (by decide +kernel)
  refine ⟨⟨gluedDoc, []⟩, second, both, by decide +kernel, hb, h, fun same => ?_⟩
  have lengths := congrArg List.length same
  rw [List.length_append, length, length'] at lengths
  exact absurd lengths (by decide)

/-- Two characters, the first of them with an underscore in its escape, and a string of slashes: a closed
line of declarations. -/
def scoredDoc : Text :=
  "    const A: [char; 2] = ['\\u\x7b5_B\x7d','\"']; const S: &str = \"///\" ;\n"

/-- **A character that is read as code reaches into the next source**: the slashes in the string begin a
doc comment, which becomes an attribute of the enum, whose block is indented by its line. -/
theorem scoredDoc_reaches :
    (scoredDoc.drop 64 = ";\n" ∧ scoredDoc.Unbound ∧ oneLineEnum.Unbound)
      ∧ ∃ first second both, transform scoredDoc [] "" = .ok first ∧ transform oneLineEnum [] "" = .ok second
        ∧ transform (scoredDoc ++ oneLineEnum) [] "" = .ok both ∧ both.text ≠ first.text ++ second.text := by
  refine ⟨⟨by decide +kernel, .of_ok (exists_ok_of_decide (by decide +kernel)), oneLineEnum_unbound⟩, ?_⟩
  obtain ⟨second, hb, length⟩ : ∃ second, transform oneLineEnum [] "" = .ok second
      ∧ second.text.length = 404 := exists_ok_of_decide (by decide +kernel)
  obtain ⟨both, h, length'⟩ : ∃ both, transform (scoredDoc ++ oneLineEnum) [] "" = .ok both
      ∧ both.text.length ≠ 66 + 404 := exists_ok_of_decide (by decide +kernel)
  refine ⟨⟨scoredDoc, []⟩, second, both, by decide +kernel, hb, h, fun same => length' ?_⟩
  have whole : scoredDoc.length = 66 := by decide
  rw [same, List.length_append, length, whole]

end EnumExtract
