/-
  EnumExtract.Proofs.Grammar.Bodies
  ────────────────────────────────
  What the scan for declarations does with the leaves of a body.

  A body holds no declaration, but the scan stops in it all the same: at a
  remark it reads a prelude, behind `pub` it looks for a scope, and the keyword
  of a raw name such as `r#struct` is a keyword to it.  Where a word follows such a
  name, the scan takes it for the name of a declaration; a body in which that
  happens is left out here.

  Main results:
    • `InBody.step`     from each leaf of a body the scan comes to a later one,
    • `InBody.passes`   so it comes to what stands behind the body, without an item.
-/
import EnumExtract.Proofs.Grammar.Leaves

namespace EnumExtract

open Cursor

/-! ## §1. Bodies. -/

namespace Leaf

/-- A name or a keyword. -/
def isNamed : Leaf → Bool
  | name _ | keyword .. => true
  | _ => false

/-- A name is read where the leaf stands. -/
def beginsName : Leaf → Bool
  | name _ | keyword .. => true
  | literal l => l.startsName
  | _ => false

/-- What follows a raw name is not the name of an item, and no module opens behind it. -/
structure Unheaded (i : Identifier) (ls : List Leaf) : Prop where
  declaration : ∀ kind : DeclKind, i.text = "r#" ++ kind.keyword → ∀ l ∈ ls.head?, l.beginsName = false
  module : i.text = "r#mod" → ∀ l ms, ls = l :: ms → l.beginsName = true →
    l.isNamed = true ∧ ∀ m ∈ ms.head?, m.text ≠ "\x7b"

theorem Unheaded.of_noName {i : Identifier} {ls : List Leaf} (h : ∀ l ∈ ls.head?, l.beginsName = false) :
    Unheaded i ls where
  declaration _ _ := h
  module _ l ms eq begins := by
    subst eq
    rw [h l rfl] at begins
    cases begins

/-- The leaf may stand in a body where `ls` follows: it is no keyword but `pub`, and remarks stand
neither behind words nor behind a parenthesis. -/
def Follows (ls : List Leaf) : Leaf → Prop
  | name i => (∀ l ∈ ls.head?, l.isRemark = false) ∧ Unheaded i ls
  | keyword w _ => w = "pub" ∧ ∀ l ∈ ls.head?, l.isRemark = false
  | symbol ch _ => ch = ')' → ∀ l ∈ ls.head?, l.isRemark = false
  | scope .. => False
  | _ => True

end Leaf

/-- No declaration is among the leaves, and none seems to be. -/
def IsBody : List Leaf → Prop
  | [] => True
  | l :: ls => l.Follows ls ∧ IsBody ls

/-- The leaves end as a declaration does, in a semicolon or a brace. -/
def EndsBody (ls : List Leaf) : Prop :=
  ∃ ch h, ls.getLast? = some (.symbol ch h) ∧ (ch = ';' ∨ ch = '\x7d')

theorem IsBody.of_append {us ls : List Leaf} (h : IsBody (us ++ ls)) : IsBody ls := by
  induction us with
  | nil => exact h
  | cons l us ih => exact ih h.2

namespace EndsBody

variable {l : Leaf} {us ls : List Leaf}

theorem ne_nil (h : EndsBody ls) : ls ≠ [] := by
  rintro rfl
  obtain ⟨_, _, ⟨⟩, _⟩ := h

/-- A leaf that ends no declaration is not the last one. -/
theorem tail (h : EndsBody (l :: ls)) (other : ∀ ch h, l = .symbol ch h → ch ≠ ';' ∧ ch ≠ '\x7d') :
    EndsBody ls := by
  obtain ⟨ch, isSymbol, last, stop⟩ := h
  cases ls with
  | nil =>
      obtain rfl : l = .symbol ch isSymbol := Option.some.inj last
      obtain ⟨semicolon, brace⟩ := other ch isSymbol rfl
      exact absurd stop (by simp [semicolon, brace])
  | cons m ls => exact ⟨ch, isSymbol, by rw [← last, List.getLast?_cons_cons], stop⟩

theorem of_append (h : EndsBody (us ++ ls)) (more : ls ≠ []) : EndsBody ls := by
  obtain ⟨ch, isSymbol, last, stop⟩ := h
  exact ⟨ch, isSymbol, by rwa [List.getLast?_append_of_ne_nil _ more] at last, stop⟩

end EndsBody

/-- At `c` the leaves of a body stand, and `tail` behind them. -/
structure Cursor.InBody (tail : Text) (ls : List Leaf) (c : Cursor) : Prop where
  printed : Printed tail ls c.ahead
  fresh : c.Fresh
  isBody : IsBody ls
  ends : ls ≠ [] → EndsBody ls

/-! ## §2. Names and keywords among leaves. -/

namespace Leaf

variable {l : Leaf} {ls : List Leaf} {w : Text}

theorem identifier?_none (h : l.beginsName = false) : Text.identifier? (l.text ++ w) = none := by
  refine Text.identifier?_eq_none fun ch first => ?_
  cases l with
  | name i => cases h
  | number n =>
      obtain ⟨d, v, text, digit⟩ := n.digit
      rw [Leaf.text, text] at first
      cases first
      exact not_isNameStart_of_isDigit digit
  | lifetime l =>
      cases first
      rfl
  | literal l =>
      obtain ⟨x, _, v, shape, noName⟩ := l.exists_first
      rw [Leaf.text, shape] at first
      cases first
      exact noName h
  | keyword k mem => cases h
  | symbol x isSymbol =>
      cases first
      by_contra start
      rw [Bool.not_eq_false] at start
      have word := isWord_of_isNameStart start
      rw [(isSymbol_plain isSymbol).1] at word
      cases word
  | remark r =>
      cases r with
      | doc d =>
          cases first
          rfl
      | bracketed a =>
          obtain ⟨inner, text⟩ := a.exists_text
          rw [Leaf.text, Remark.text, text] at first
          cases first
          rfl
  | scope s whole =>
      obtain ⟨inner, rfl, _⟩ := exists_inner_of_scope whole
      cases first
      rfl

/-- A keyword is read at that keyword only. -/
theorem eq_keyword {n : Text} (reserved : n ∈ reservedWords) (apart : l.Apart w)
    (h : Text.identifier? (l.text ++ w) = some n) : ∃ mem, l = .keyword n mem := by
  cases l with
  | name i =>
      rw [text, i.isIdentifier.identifier?_text apart] at h
      cases h
      exact absurd reserved i.free
  | keyword k mem =>
      rw [text, IsIdentifier.identifier?_text (.inl (isName_of_reserved mem)) apart] at h
      cases h
      exact ⟨mem, rfl⟩
  | literal l =>
      obtain ⟨ch, mem, v, shape, _⟩ := l.exists_first
      exact absurd reserved (Text.not_mem_reserved (by rw [text, shape]; rfl) mem h)
  | _ =>
      rw [identifier?_none rfl] at h
      cases h

end Leaf

section Keywords

variable {tail w : Text} {l : Leaf} {ls : List Leaf} {c d : Cursor}

/-- No declaration has its keyword at a leaf of a body. -/
theorem Cursor.Stands.noDeclaration (h : Stands tail l ls d w) (follows : l.Follows ls) (kind : DeclKind)
    (after : Cursor) : d.identifier? ≠ some (kind.keyword, after) := by
  intro found
  have here := (identifier?_eq_some found).1
  rw [h.ahead] at here
  obtain ⟨mem, rfl⟩ := Leaf.eq_keyword (by cases kind <;> decide) h.apart here
  cases kind <;> cases follows.1

theorem Cursor.Stands.noPub (h : Stands tail l ls d w) (other : ∀ mem, l ≠ .keyword "pub" mem) :
    Visibility d [] d := by
  refine .none fun after found => ?_
  have here := (identifier?_eq_some found).1
  rw [h.ahead] at here
  obtain ⟨mem, rfl⟩ := Leaf.eq_keyword (by decide) h.apart here
  exact other mem rfl

theorem Cursor.Stands.identifier? (h : Stands tail l ls d w) (named : l.isNamed = true) :
    d.identifier? = some (l.text, d.advance l.text.length) := by
  cases l with
  | name i => exact i.isIdentifier.identifier? h.ahead h.apart
  | keyword k mem => exact IsIdentifier.identifier? (.inl (isName_of_reserved mem)) h.ahead h.apart
  | _ => cases named

theorem Cursor.Stands.keyword {k : Text} {mem : k ∈ reservedWords}
    (h : Stands tail (.keyword k mem) ls d w) : KeywordAt d k w := by
  obtain ⟨ch, v, text, start, _⟩ := isName_of_reserved mem
  refine ⟨h.fresh ch ?_ (isWord_of_isNameStart start), mem, h.ahead, h.apart⟩
  rw [h.ahead, Leaf.text, text]
  rfl

/-- No other leaf begins with a brace. -/
theorem Cursor.Stands.noBrace (h : Stands tail l ls d w) (other : l.text ≠ "\x7b") : d.sees "\x7b" = false := by
  by_contra sees
  rw [Bool.not_eq_false] at sees
  have first : d.ahead.head? = some '\x7b' := first_of_sees sees
  rw [h.ahead] at first
  cases l with
  | name i =>
      obtain ⟨ch, v, text, start⟩ := i.isIdentifier.exists_first
      rw [Leaf.text, text] at first
      cases first
      cases start
  | number n =>
      obtain ⟨d, v, text, digit⟩ := n.digit
      rw [Leaf.text, text] at first
      cases first
      cases digit
  | lifetime l => cases first
  | keyword k mem =>
      obtain ⟨ch, v, text, start, _⟩ := isName_of_reserved mem
      rw [Leaf.text, text] at first
      cases first
      cases start
  | symbol ch isSymbol =>
      cases first
      exact other rfl
  | literal l =>
      obtain ⟨ch, mem, v, shape, _⟩ := l.exists_first
      rw [Leaf.text, shape] at first
      cases first
      exact absurd mem (by decide)
  | remark r =>
      cases r with
      | doc d => cases first
      | bracketed a =>
          obtain ⟨inner, text⟩ := a.exists_text
          rw [Leaf.text, Remark.text, text] at first
          cases first
  | scope s whole =>
      obtain ⟨inner, rfl, _⟩ := exists_inner_of_scope whole
      cases first

/-! ## §3. Leaves that are passed. -/

/-- What the scan does at a leaf that it does not look at. -/
theorem Leaf.passes (h : Stands tail l ls c w) (follows : l.Follows ls) (plain : l.isRemark = false)
    (noKeyword : ∀ k mem, l ≠ .keyword k mem) (cooked : ∀ i, l = .name i → IsName i.text) :
    Passes c (c.advance l.text.length) := by
  have eq := h.ahead
  cases l with
  | name i => exact passes_name (cooked i rfl) i.free eq h.apart
  | number n => exact n.passes eq h.apart
  | lifetime l => exact l.passes eq h.apart
  | literal l => exact l.passes eq h.fresh
  | keyword k mem => exact absurd rfl (noKeyword k mem)
  | symbol ch isSymbol =>
      have still := h.still rfl
      have first : c.ahead.head? = some ch := by rw [eq]; rfl
      have none : Text.identifier? c.ahead = none := by
        rw [eq]
        exact identifier?_none (l := .symbol ch isSymbol) rfl
      have quiet : c.Quiet := .of_noWord still.noDoc still.noAttribute (.inr fun v found => by
        rw [none] at found
        cases found)
      exact .char quiet first (lexeme?_symbol eq h.apart)
  | remark r => cases plain
  | scope s whole => exact absurd follows id

end Keywords

/-! ## §4. Behind a visibility. -/

/-- What may stand in front of the parenthesis that closes a scope. -/
def mayPrecedeClose (ch : Char) : Bool :=
  ch == '(' || inScope ch

/-- A character that is not in the first part of a text is in the second. -/
theorem exists_of_append_eq {x : Char} {u w a r : Text} (eq : u ++ w = a ++ x :: r) (notMem : x ∉ u) :
    ∃ a', a = u ++ a' ∧ w = a' ++ x :: r := by
  rcases List.append_eq_append_iff.mp eq with ⟨a', ha, hw⟩ | ⟨b, hu, hx⟩
  · exact ⟨a', ha, hw⟩
  · cases b with
    | nil => exact ⟨[], by simpa using hu.symm, hx.symm⟩
    | cons y b =>
        obtain rfl : x = y := (List.cons.inj hx).1
        exact absurd (by rw [hu]; simp) notMem

/-- In a leaf that holds a parenthesis something stands before it that is in no scope. -/
theorem Leaf.exists_outside {l : Leaf} {ls : List Leaf} (mem : ')' ∈ l.text) (follows : l.Follows ls) :
    (∃ h, l = .symbol ')' h)
      ∨ ∃ u x v, l.text = u ++ x :: v ∧ ')' ∉ u ∧ mayPrecedeClose x = false ∧ x ≠ ')' := by
  cases l with
  | name i => rcases IsIdentifier.isWord i.isIdentifier _ mem with h | h <;> cases h
  | number n => rcases n.word _ mem with h | h <;> cases h
  | lifetime l => exact .inr ⟨[], '\'', l.name, rfl, nofun, rfl, by decide⟩
  | literal l =>
      obtain ⟨u, q, quote, v, shape, word⟩ := l.exists_quote
      have outside : ∀ q ∈ ['"', '\'', '#'], mayPrecedeClose q = false ∧ q ≠ ')' := by decide
      exact .inr ⟨u, q, v, shape, fun mem => (by cases word ')' mem), outside q quote⟩
  | keyword k reserved => cases (isName_of_reserved reserved).isWord _ mem
  | symbol ch isSymbol =>
      obtain rfl : ')' = ch := List.mem_singleton.mp mem
      exact .inl ⟨isSymbol, rfl⟩
  | remark r =>
      cases r with
      | doc d => exact .inr ⟨[], '/', '/' :: '/' :: (d.body ++ "\n"), rfl, nofun, rfl, by decide⟩
      | bracketed a =>
          obtain ⟨inner, text⟩ := a.exists_text
          exact .inr ⟨[], '#', '[' :: (inner ++ [']']), text, nofun, rfl, by decide⟩
  | scope s whole => exact absurd follows id

/-- The parenthesis that closes a scope is a leaf of its own. -/
theorem Printed.exists_closeParen {tail t rest : Text} {ls : List Leaf} (h : Printed tail ls t) :
    IsBody ls → EndsBody ls → ∀ {inner : Text}, t = inner ++ ')' :: rest →
      (∀ ch ∈ inner, ch ≠ ')' ∧ mayPrecedeClose ch = true) →
        ∃ us ms h, ls = us ++ .symbol ')' h :: ms ∧ Printed tail ms rest := by
  induction h with
  | nil => exact fun _ ends => absurd rfl ends.ne_nil
  | @cons gap w l ls blank apart printed ih =>
      intro isBody ends inner eq inside
      obtain ⟨a, rfl, cut⟩ := exists_of_append_eq eq fun mem => by cases blank ')' mem
      have within : ∀ ch ∈ a, ch ≠ ')' ∧ mayPrecedeClose ch = true := fun ch mem =>
        inside ch (List.mem_append_right _ mem)
      by_cases mem : ')' ∈ l.text
      · rcases Leaf.exists_outside mem isBody.1 with ⟨isSymbol, rfl⟩ | ⟨u, x, v, text, free, outside, other⟩
        · cases a with
          | nil =>
              have same : w = rest := (List.cons.inj cut).2
              exact ⟨[], ls, isSymbol, rfl, by rwa [← same]⟩
          | cons y a => exact absurd (List.cons.inj cut).1.symm (within y List.mem_cons_self).1
        · exfalso
          rw [text, List.append_assoc] at cut
          obtain ⟨a', rfl, cut'⟩ := exists_of_append_eq cut free
          cases a' with
          | nil => exact other (List.cons.inj cut').1
          | cons y a' =>
              obtain rfl : x = y := (List.cons.inj cut').1
              rw [(within x (by simp)).2] at outside
              cases outside
      · obtain ⟨a', rfl, cut'⟩ := exists_of_append_eq cut mem
        -- what ends a body is in no scope
        have ends' : EndsBody ls := ends.tail fun ch isSymbol same => by
          subst same
          have here := (within ch (by simp [Leaf.text])).2
          constructor <;> rintro rfl <;> cases here
        obtain ⟨us, ms, isSymbol, rfl, printed'⟩ := ih isBody.2 ends' cut' fun ch mem =>
          within ch (List.mem_append_right _ mem)
        exact ⟨l :: us, ms, isSymbol, rfl, printed'⟩

namespace Cursor.InBody

variable {tail w : Text} {l : Leaf} {ls : List Leaf} {c d : Cursor}

/-- The place of the first leaf, if it is no remark. -/
theorem first (h : InBody tail ls c) (more : ls ≠ []) (plain : ∀ l ∈ ls.head?, l.isRemark = false) :
    ∃ d l ms w, (∀ keepDocs, Trivia keepDocs c d) ∧ ls = l :: ms ∧ Stands tail l ms d w := by
  obtain ⟨l, ms, rfl⟩ := List.exists_cons_of_ne_nil more
  obtain ⟨d, w, trivia, stands⟩ := h.printed.trivia h.fresh (plain l rfl)
  exact ⟨d, l, ms, w, trivia, rfl, stands⟩

/-- Behind a leaf the body goes on. -/
theorem behind (h : Stands tail l ls d w) (isBody : IsBody (l :: ls)) (ends : EndsBody (l :: ls)) :
    InBody tail ls (d.advance l.text.length) :=
  ⟨h.behind.1, h.behind.2, isBody.2, EndsBody.of_append (show EndsBody ([l] ++ ls) from ends)⟩

theorem at_stands (h : Stands tail l ls d w) (isBody : IsBody (l :: ls)) (ends : EndsBody (l :: ls)) :
    InBody tail (l :: ls) d :=
  ⟨h.printed, h.fresh, isBody, fun _ => ends⟩

end Cursor.InBody

/-- Behind `pub` a body goes on, and no declaration begins. -/
theorem KeywordAt.visibility {tail w : Text} {ls : List Leaf} {c : Cursor} (h : KeywordAt c "pub" w)
    (body : InBody tail ls (c.advance 3)) (more : ls ≠ []) (plain : ∀ l ∈ ls.head?, l.isRemark = false) :
    ∃ v behind place us, Visibility c v behind ∧ Trivia false behind place ∧ InBody tail us place
      ∧ us.length ≤ ls.length
      ∧ (∀ kind after, place.identifier? ≠ some (DeclKind.keyword kind, after))
      ∧ c.LeadsTo place ∧ c.offset < place.offset := by
  obtain ⟨scope, l, ms, v, trivia, rfl, stands⟩ := body.first more plain
  have ends := body.ends more
  have identifier : c.identifier? = some (("pub" : Text), c.advance 3) := h.identifier?
  have onward := (leadsTo_identifier identifier).1.trans (trivia false).leadsTo
  have lt : c.offset < scope.offset :=
    Nat.lt_of_lt_of_le (leadsTo_identifier identifier).2 (trivia false).leadsTo.offset_le
  cases found : scopeLength? scope.ahead with
  | none =>
      exact ⟨_, _, scope, l :: ms, .bare identifier (trivia false) found, trivia false,
        .at_stands stands body.isBody ends, Nat.le_refl _, stands.noDeclaration body.isBody.1, onward, lt⟩
  | some k =>
      obtain ⟨inner, rest, eq, size, inside⟩ := scopeLength?_some found
      have outside : ∀ ch ∈ '(' :: inner, ch ≠ ')' ∧ mayPrecedeClose ch = true := fun ch mem => by
        rcases List.mem_cons.mp mem with rfl | mem
        · decide
        · have scope := inside ch mem
          refine ⟨?_, by rw [mayPrecedeClose, scope, Bool.or_true]⟩
          rintro rfl
          cases scope
      obtain ⟨us, ms', isSymbol, same, printed⟩ :=
        stands.printed.exists_closeParen body.isBody ends eq outside
      have isBody := body.isBody
      rw [same] at isBody ends ⊢
      have cut : scope.ahead = ('(' :: inner ++ [')']) ++ rest := by
        rw [eq]
        simp
      have length : ('(' :: inner ++ [')']).length = k := by
        rw [size]
        simp
      have behind := ahead_advance cut
      have fresh : (scope.advance k).Fresh := by
        rw [size]
        exact .behind (u := '(' :: inner) eq rfl
      rw [length] at behind
      rw [← behind] at printed
      have follows := isBody.of_append
      have ends' : EndsBody ms' := (ends.of_append (List.cons_ne_nil _ _)).tail fun ch h' same => by
        cases same
        decide
      have body' : InBody tail ms' (scope.advance k) := ⟨printed, fresh, follows.2, fun _ => ends'⟩
      obtain ⟨place, l', ms'', v', trivia', rfl, stands'⟩ := body'.first ends'.ne_nil (follows.1 rfl)
      have visible := Visibility.within identifier (trivia false) found
      have le := (trivia' false).leadsTo.offset_le
      rw [advance_offset] at le
      refine ⟨_, _, place, l' :: ms'', visible, trivia' false, .at_stands stands' follows.2 ends', ?_,
        stands'.noDeclaration follows.2.1, visible.leadsTo.trans (trivia' false).leadsTo, by omega⟩
      simp only [List.length_append, List.length_cons]
      omega

/-! ## §5. The scan of a body. -/

section Body

variable {tail w : Text} {l : Leaf} {ls : List Leaf} {c d : Cursor}

theorem exists_remarks (ls : List Leaf) :
    ∃ (rs : List Remark) (us : List Leaf), ls = rs.map .remark ++ us ∧ ∀ l ∈ us.head?, l.isRemark = false := by
  induction ls with
  | nil => exact ⟨[], [], rfl, nofun⟩
  | cons l ls ih =>
      cases l with
      | remark r =>
          obtain ⟨rs, us, rfl, plain⟩ := ih
          exact ⟨r :: rs, us, rfl, plain⟩
      | _ => exact ⟨[], _, rfl, fun _ h => by cases h; rfl⟩

theorem Remark.mayStartItem {r : Remark} (eq : c.ahead = r.text ++ w) :
    c.startsKeyword ["mod"] = false ∧ c.mayStartItem = true := by
  have none : Text.identifier? c.ahead = none := by
    rw [eq]
    exact Leaf.identifier?_none (l := .remark r) rfl
  constructor
  · rw [Cursor.startsKeyword, none]
    simp
  · rw [Cursor.mayStartItem]
    cases r with
    | doc d => rw [eq, Remark.text, d.startsDocComment, Bool.true_or, Bool.true_or]
    | bracketed a => rw [ReadAttribute.sees eq, Bool.or_true, Bool.true_or]

/-- The scan goes on behind remarks, or behind the visibility that follows them. -/
theorem Cursor.InBody.passes_remarks {r : Remark} {rs : List Remark}
    (h : InBody tail ((r :: rs).map .remark ++ ls) c) (eq : c.ahead = r.text ++ w)
    (plain : ∀ l ∈ ls.head?, l.isRemark = false) :
    ∃ d us, Passes c d ∧ c.LeadsTo d ∧ InBody tail us d ∧ us.length ≤ ls.length := by
  have ends := h.ends (by simp)
  obtain ⟨l, ms, rfl⟩ : ∃ l ms, ls = l :: ms := by
    cases ls with
    | cons l ms => exact ⟨l, ms, rfl⟩
    | nil =>
        obtain ⟨ch, isSymbol, last, _⟩ := ends
        rw [List.append_nil, List.getLast?_map] at last
        obtain ⟨_, _, ⟨⟩⟩ := Option.map_eq_some_iff.mp last
  have isBody := h.isBody.of_append
  have ends' := ends.of_append (List.cons_ne_nil _ _)
  obtain ⟨attrs, head, v, prelude, read, stands⟩ := h.printed.prelude (plain l rfl) h.fresh
  obtain ⟨attr, attrs, rfl⟩ : ∃ attr rest, attrs = attr :: rest := by
    cases read with
    | cons => exact ⟨_, _, rfl⟩
  have lt := prelude.offset_lt
  have more : c.ahead ≠ [] := by
    intro none
    have same := prelude.leadsTo.end_eq
    rw [none, List.length_nil] at same
    omega
  obtain ⟨noModule, starts⟩ := Remark.mayStartItem eq
  have onward {v : Text} {behind place : Cursor} (visible : Visibility head v behind)
      (toPlace : Trivia false behind place)
      (noKeyword : ∀ kind after, place.identifier? ≠ some (DeclKind.keyword kind, after)) : Passes c place := by
    have le := (visible.leadsTo.trans toPlace.leadsTo).offset_le
    have passes := Passes.head noModule starts more (.other ⟨prelude, visible, toPlace⟩ noKeyword)
    rwa [if_neg (by omega)] at passes
  by_cases pub : ∃ mem, l = .keyword "pub" mem
  · obtain ⟨mem, rfl⟩ := pub
    have ends'' : EndsBody ms := ends'.tail fun ch h same => by cases same
    obtain ⟨v, behind, place, us, visible, toPlace, body, le, noKeyword, leads, _⟩ :=
      stands.keyword.visibility (.behind stands isBody ends') ends''.ne_nil isBody.1.2
    exact ⟨place, us, onward visible toPlace noKeyword, prelude.leadsTo.trans leads, body,
      Nat.le_succ_of_le le⟩
  · push Not at pub
    have still := stands.still (plain l rfl)
    exact ⟨head, l :: ms, onward (stands.noPub pub) (.stop still.trivium?) (stands.noDeclaration isBody.1),
      prelude.leadsTo, .at_stands stands isBody ends', Nat.le_refl _⟩

/-- Behind the raw keyword `mod` no module opens. -/
theorem openModule?_raw {i : Identifier} (raw : i.text = "r#mod") (unheaded : Leaf.Unheaded i ls)
    (body : InBody tail ls (c.advance 3)) (more : ls ≠ []) (plain : ∀ l ∈ ls.head?, l.isRemark = false) :
    c.openModule? = .ok none := by
  obtain ⟨name, l, ms, v, trivia, rfl, stands⟩ := body.first more plain
  refine bind_ok_iff.mpr ⟨name, skipTrivia_ok_iff.mpr (trivia false), ?_⟩
  cases begins : l.beginsName with
  | false =>
      have none : name.identifier? = none := by
        rw [identifier?, stands.ahead, Leaf.identifier?_none begins]
        rfl
      rw [none]
      rfl
  | true =>
      obtain ⟨named, noBrace⟩ := unheaded.module raw l ms rfl begins
      have ends := body.ends more
      have ends' : EndsBody ms := ends.tail fun ch h same => by
        subst same
        cases named
      have plain' : ∀ m ∈ ms.head?, m.isRemark = false := by
        have follows := body.isBody.1
        cases l with
        | name i => exact follows.1
        | keyword k mem => exact follows.2
        | _ => cases named
      obtain ⟨place, m, ms', v', trivia', rfl, stands'⟩ :=
        (InBody.behind stands body.isBody ends).first ends'.ne_nil plain'
      rw [stands.identifier? named]
      refine bind_ok_iff.mpr ⟨place, skipTrivia_ok_iff.mpr (trivia' false), ?_⟩
      rw [if_neg (by rw [stands'.noBrace (noBrace m rfl)]; decide)]
      rfl

/-- From the name of a body the scan goes on behind it, or behind the scope that follows `r#pub`. -/
theorem Identifier.passes_body {i : Identifier} (h : Stands tail (.name i) ls c w)
    (isBody : IsBody (.name i :: ls)) (ends : EndsBody (.name i :: ls)) :
    ∃ d us, Passes c d ∧ c.LeadsTo d ∧ InBody tail us d ∧ us.length ≤ ls.length := by
  have behind := InBody.behind h isBody ends
  have onward (passes : Passes c (c.advance i.text.length)) :
      ∃ d us, Passes c d ∧ c.LeadsTo d ∧ InBody tail us d ∧ us.length ≤ ls.length :=
    ⟨_, ls, passes, h.leadsTo, behind, Nat.le_refl _⟩
  obtain ⟨plain, unheaded⟩ := isBody.1
  have more : ls ≠ [] := (ends.tail fun ch h same => by cases same).ne_nil
  rcases i.isIdentifier with name | ⟨n, name, raw⟩
  · exact onward (passes_name name i.free h.ahead h.apart)
  have eq : c.ahead = i.text ++ w := h.ahead
  have cut : c.ahead = ['r', '#'] ++ (n ++ w) := by
    rw [eq, raw]
    rfl
  have mark := i.passes_raw raw name eq h.apart
  have ahead : (c.advance 2).ahead = n ++ w := ahead_advance cut
  have before : (c.advance 2).before = some '#' := before_advance (u := ['r']) cut
  have same : (c.advance 2).advance n.length = c.advance i.text.length := by
    rw [advance_advance, raw, List.length_cons, List.length_cons, Nat.add_comm, Nat.add_assoc]
  by_cases reserved : n ∈ reservedWords
  · have start : (c.advance 2).atWordStart = true := by
      rw [atWordStart, before]
      rfl
    have keyword : KeywordAt (c.advance 2) n w := ⟨start, reserved, ahead, h.apart⟩
    have body : InBody tail ls ((c.advance 2).advance n.length) := by
      rw [same]
      exact behind
    have declaration (kind : DeclKind) (isKind : n = kind.keyword) :
        Passes (c.advance 2) ((c.advance 2).advance n.length) := by
      obtain ⟨d, l, ms, v, trivia, rfl, stands⟩ := body.first more plain
      refine keyword.passes_declaration isKind (trivia false) ?_
      have begins := unheaded.declaration kind (by rw [raw, isKind]; rfl) l rfl
      rw [identifier?, stands.ahead, Leaf.identifier?_none begins]
      rfl
    simp only [reservedWords, List.mem_cons, List.not_mem_nil, or_false] at reserved
    rcases reserved with isKind | isKind | rfl | rfl
    · have passes := mark.trans (declaration .enum isKind)
      rw [same] at passes
      exact onward passes
    · have passes := mark.trans (declaration .struct isKind)
      rw [same] at passes
      exact onward passes
    · have passes := mark.trans (keyword.passes_module rfl (openModule?_raw raw unheaded body more plain))
      rw [same] at passes
      exact onward passes
    · obtain ⟨v, _, place, us, visible, toPlace, body', le, noKeyword, leads, lt⟩ :=
        keyword.visibility body more plain
      have toMark : c.LeadsTo (c.advance 2) := leadsTo_advance (by rw [cut]; simp)
      exact ⟨place, us, mark.trans (keyword.passes_visibility rfl visible toPlace noKeyword lt),
        toMark.trans leads, body', le⟩
  · have passes := mark.trans (passes_name name reserved ahead h.apart)
    rw [same] at passes
    exact onward passes

namespace Cursor.InBody

/-- **From each leaf of a body the scan comes to a later one**, and finds nothing on the way. -/
theorem step (h : InBody tail (l :: ls) c) :
    ∃ d us, Passes c d ∧ c.LeadsTo d ∧ InBody tail us d ∧ us.length ≤ ls.length := by
  obtain ⟨b, p, w, eq, blank, rfl, stands⟩ := h.printed.toFirst h.fresh
  have toFirst : c.LeadsTo (c.advance b.length) := leadsTo_advance (by
    rw [eq, List.length_append]
    omega)
  have ends := h.ends (List.cons_ne_nil _ _)
  have isBody := h.isBody
  suffices ∃ d us, Passes (c.advance b.length) d ∧ (c.advance b.length).LeadsTo d ∧ InBody tail us d
      ∧ us.length ≤ ls.length by
    obtain ⟨d, us, passes, leads, rest⟩ := this
    exact ⟨d, us, (passes_blanks eq blank).trans passes, toFirst.trans leads, rest⟩
  have here := InBody.at_stands stands isBody ends
  cases l with
  | remark r =>
      obtain ⟨rs, us, rfl, plain⟩ := exists_remarks ls
      have all : InBody tail ((r :: rs).map .remark ++ us) (c.advance b.length) := here
      obtain ⟨d, vs, passes, leads, body, le⟩ := all.passes_remarks stands.ahead plain
      refine ⟨d, vs, passes, leads, body, ?_⟩
      rw [List.length_append]
      omega
  | keyword k mem =>
      obtain ⟨rfl, plain⟩ := isBody.1
      have more : ls ≠ [] := (ends.tail fun ch h same => by cases same).ne_nil
      obtain ⟨v, _, place, us, visible, toPlace, body, le, noKeyword, leads, lt⟩ :=
        stands.keyword.visibility (.behind stands isBody ends) more plain
      exact ⟨place, us, stands.keyword.passes_visibility rfl visible toPlace noKeyword lt, leads, body, le⟩
  | name i => exact i.passes_body stands isBody ends
  | scope s whole => exact absurd isBody.1 id
  | _ =>
      exact ⟨_, ls, Leaf.passes stands isBody.1 rfl nofun nofun, stands.leadsTo,
        .behind stands isBody ends, Nat.le_refl _⟩

/-- **The scan comes to what stands behind a body**, and finds nothing in it. -/
theorem passes (h : InBody tail ls c) : ∃ d, Passes c d ∧ c.LeadsTo d ∧ d.ahead = tail ∧ d.Fresh := by
  -- a remark or a visibility may take several leaves with it
  induction hn : ls.length using Nat.strongRecOn generalizing ls c with
  | ind n ih =>
      subst hn
      cases ls with
      | nil =>
          have printed := h.printed
          generalize eq : c.ahead = t at printed
          cases printed with
          | @nil b blank =>
              exact ⟨_, passes_blanks eq blank, leadsTo_advance (by
                rw [eq, List.length_append]
                omega), ahead_advance eq, h.fresh.gap blank eq⟩
      | cons l ls =>
          obtain ⟨d, us, passes, leads, body, le⟩ := h.step
          obtain ⟨e, passes', leads', ahead, fresh⟩ := ih us.length (Nat.lt_succ_of_le le) body rfl
          exact ⟨e, passes.trans passes', leads.trans leads', ahead, fresh⟩

end Cursor.InBody

end Body

end EnumExtract
