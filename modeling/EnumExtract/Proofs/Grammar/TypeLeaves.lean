/-
  EnumExtract.Proofs.Grammar.TypeLeaves
  ────────────────────────────────
  The tokens of declarations as leaves of a source.

  A token is one leaf, but for `::`, `->` and `=>`, which are two.  So what is known
  of the tokens of a type is known of its leaves: they close what they open,
  and no declaration seems to be among them.

  Main results:
    • `Spaced.printed`          a text of tokens is one of their leaves,
    • `Opened.nest_leaves`      the brackets of the leaves are those of the tokens,
    • `Token.Unjoined.isBody`   the leaves of a type may stand in a body,
    • `Closed.series`           and so may a list of what may stand there.
-/
import EnumExtract.Proofs.Grammar.Bodies
import EnumExtract.Proofs.Grammar.Lists

namespace EnumExtract

open Cursor

/-! ## §1. Leaves of tokens. -/

def Mark.leaves : Mark → List Leaf
  | openParen => [.symbol '(' rfl]
  | closeParen => [.symbol ')' rfl]
  | openBracket => [.symbol '[' rfl]
  | closeBracket => [.symbol ']' rfl]
  | openBrace => [.symbol '\x7b' rfl]
  | closeBrace => [.symbol '\x7d' rfl]
  | less => [.symbol '<' rfl]
  | greater => [.symbol '>' rfl]
  | comma => [.symbol ',' rfl]
  | semicolon => [.symbol ';' rfl]
  | ampersand => [.symbol '&' rfl]
  | colon => [.symbol ':' rfl]
  | colons => [.symbol ':' rfl, .symbol ':' rfl]
  | arrow => [.symbol '-' rfl, .symbol '>' rfl]
  | fatArrow => [.symbol '=' rfl, .symbol '>' rfl]
  | star => [.symbol '*' rfl]
  | slash => [.symbol '/' rfl]
  | plus => [.symbol '+' rfl]
  | minus => [.symbol '-' rfl]
  | equals => [.symbol '=' rfl]
  | question => [.symbol '?' rfl]
  | bang => [.symbol '!' rfl]
  | dot => [.symbol '.' rfl]
  | percent => [.symbol '%' rfl]
  | caret => [.symbol '^' rfl]
  | bar => [.symbol '|' rfl]
  | tilde => [.symbol '~' rfl]
  | atSign => [.symbol '@' rfl]
  | dollar => [.symbol '$' rfl]

def Token.leaves : Token → List Leaf
  | name i => [.name i]
  | number n => [.number n]
  | lifetime l => [.lifetime l]
  | literal l => [.literal l]
  | mark m => m.leaves
  | note a => [.remark a.remark]

namespace Token

/-- The first leaf of a token that is no note. -/
theorem exists_firstLeaf {tok : Token} (plain : tok.isNote = false) :
    ∃ l ms, tok.leaves = l :: ms ∧ l.isRemark = false ∧ l.beginsName = tok.startsName := by
  cases tok with
  | mark m => cases m <;> exact ⟨_, _, rfl, rfl, rfl⟩
  | note => cases plain
  | _ => exact ⟨_, _, rfl, rfl, rfl⟩

end Token

section Leaves

variable {tail : Text} {ts : List Token} {ls : List Leaf}

theorem Printed.done : Printed tail [] tail :=
  @Printed.nil tail [] IsGap.nil

/-- One leaf right in front of others. -/
theorem Printed.leaf {l : Leaf} {w : Text} (apart : l.Apart w) (rest : Printed tail ls w) :
    Printed tail (l :: ls) (l.text ++ w) :=
  .cons IsGap.nil apart rest

/-- A symbol other than a slash is glued to nothing. -/
theorem Printed.symbol (ch : Char) {isSymbol : isSymbol ch = true} {w : Text} (rest : Printed tail ls w)
    (other : ch ≠ '/') : Printed tail (.symbol ch isSymbol :: ls) (ch :: w) :=
  .leaf (l := .symbol ch isSymbol) (fun same => absurd same other) rest

theorem Printed.append {t mid : Text} {ms : List Leaf} (h : Printed mid ls t) (h' : Printed tail ms mid) :
    Printed tail (ls ++ ms) t := by
  induction h with
  | nil blank => exact h'.gap blank
  | cons blank apart rest ih => exact .cons blank apart ih

theorem Printed.length_le {t : Text} (h : Printed tail ls t) : tail.length ≤ t.length := by
  induction h with
  | nil blank =>
      rw [List.length_append]
      omega
  | cons blank apart rest ih =>
      rw [List.length_append, List.length_append]
      omega

/-- **A text of tokens is one of their leaves.** -/
theorem Spaced.printed {t : Text} (h : Spaced tail ts t) : Printed tail (ts.flatMap Token.leaves) t := by
  induction h with
  | nil blank => exact .nil blank
  | @cons gap w tok ts blank apart rest ih =>
      refine (show Printed tail (tok.leaves ++ ts.flatMap Token.leaves) (tok.text ++ w) from ?_).gap blank
      cases tok with
      | name i => exact ih.leaf (l := .name i) apart
      | number n => exact ih.leaf (l := .number n) apart.1
      | lifetime l => exact ih.leaf (l := .lifetime l) apart
      | literal l => exact ih.leaf (l := .literal l) trivial
      | mark m =>
          cases m with
          | colons => exact (ih.symbol ':' (by decide)).symbol ':' (by decide)
          | arrow => exact (ih.symbol '>' (by decide)).symbol '-' (by decide)
          | fatArrow => exact (ih.symbol '>' (by decide)).symbol '=' (by decide)
          | slash => exact ih.leaf (l := .symbol '/' rfl) fun _ => apart
          | _ => exact ih.symbol _ (by decide)
      | note a =>
          cases a with
          | doc d => exact ih.leaf (l := .remark (.doc d)) trivial
          | bracketed a => exact ih.leaf (l := .remark (.bracketed (.ofSyntax a))) fun _ => ⟨a, rfl⟩

/-! ## §2. Brackets. -/

theorem Token.nest_leaves {tok : Token} {o o' : Opened} (h : tok.track o = some o') :
    nest o.closers (tok.leaves.flatMap Leaf.brackets) = some o'.closers := by
  have pop {closer : Char} (closes : isCloser closer = true) (h : o.pop closer = some o') :
      nest o.closers [closer] = some o'.closers := (Carries.pop (x := ⟨none, 0, []⟩) closes h).nests
  cases tok with
  | mark m =>
      cases m with
      | closeParen => exact pop rfl h
      | closeBracket => exact pop rfl h
      | closeBrace => exact pop rfl h
      | comma | fatArrow =>
          rw [Token.track, Mark.track] at h
          split at h
          · cases h
          · cases h
            rfl
      | less =>
          cases h
          show some o.closers = _
          split
          next none => rw [none]
          next => rfl
      | greater =>
          cases h
          show some o.closers = _
          split
          next none => rw [none]
          next => rfl
      | _ =>
          cases h
          rfl
  | note a =>
      cases h
      rfl
  | _ =>
      cases h
      rfl

/-- **The brackets of the leaves are those of the tokens.** -/
theorem Opened.nest_leaves {o o' : Opened} (h : o.track ts = some o') :
    nest o.closers ((ts.flatMap Token.leaves).flatMap Leaf.brackets) = some o'.closers := by
  induction ts generalizing o with
  | nil =>
      cases h
      rfl
  | cons tok ts ih =>
      obtain ⟨between, first, later⟩ := Option.bind_eq_some_iff.mp h
      rw [List.flatMap_cons, List.flatMap_append, nest_append_eq, Token.nest_leaves first]
      exact ih later

/-! ## §3. Types in bodies. -/

/-- What the first leaf of a token says of the token. -/
theorem Token.exists_first_leaf {tok : Token} (plain : tok.isNote = false) :
    ∃ l ms, tok.leaves = l :: ms ∧ l.isRemark = false
      ∧ (l.beginsName = true → ms = [] ∧ tok.startsName = true ∧ (tok.isName = true → l.isNamed = true))
      ∧ (l.text = "\x7b" → tok = .mark .openBrace) := by
  cases tok with
  | name i =>
      refine ⟨_, _, rfl, rfl, fun _ => ⟨rfl, rfl, fun _ => rfl⟩, fun brace => ?_⟩
      have inside : '\x7b' ∈ i.text := by
        rw [show i.text = "\x7b" from brace]
        exact List.mem_cons_self
      rcases i.isIdentifier.isWord _ inside with word | hash
      · cases word
      · cases hash
  | number n =>
      refine ⟨_, _, rfl, rfl, fun begins => absurd begins Bool.false_ne_true, fun brace => ?_⟩
      have inside : '\x7b' ∈ n.text := by
        rw [show n.text = "\x7b" from brace]
        exact List.mem_cons_self
      rcases n.word _ inside with word | point
      · cases word
      · cases point
  | lifetime =>
      exact ⟨_, _, rfl, rfl, fun begins => absurd begins Bool.false_ne_true, fun brace => by cases brace⟩
  | literal l =>
      refine ⟨_, _, rfl, rfl, fun begins => ⟨rfl, begins, fun isName => absurd isName Bool.false_ne_true⟩,
        fun brace => ?_⟩
      obtain ⟨ch, mem, v, shape, _⟩ := l.exists_first
      rw [Leaf.text, shape] at brace
      cases brace
      exact absurd mem (by decide)
  | mark m =>
      cases m with
      | openBrace => exact ⟨_, _, rfl, rfl, fun begins => absurd begins Bool.false_ne_true, fun _ => rfl⟩
      | _ => exact ⟨_, _, rfl, rfl, fun begins => absurd begins Bool.false_ne_true, fun brace => by cases brace⟩
  | note => cases plain

/-- What follows a type is neither a remark nor a name, and it opens no block. -/
def StopsBody (ls : List Leaf) : Prop :=
  ∀ l ∈ ls.head?, l.isRemark = false ∧ l.beginsName = false ∧ l.text ≠ "\x7b"

/-- What the first of the leaves that follow says of the first of the tokens. -/
theorem StopsBody.behind (stop : StopsBody ls) {ts : List Token} (plain : ∀ tok ∈ ts, tok.isNote = false) :
    ∀ l ∈ (ts.flatMap Token.leaves ++ ls).head?, l.isRemark = false
      ∧ (l.beginsName = true → ∃ tok ∈ ts.head?, tok.startsName = true ∧ tok.leaves = [l]
          ∧ (tok.isName = true → l.isNamed = true))
      ∧ (l.text = "\x7b" → ts.head? = some (.mark .openBrace)) := by
  intro l first
  cases ts with
  | nil =>
      obtain ⟨noRemark, noName, noBrace⟩ := stop l first
      refine ⟨noRemark, fun begins => ?_, fun brace => absurd brace noBrace⟩
      rw [noName] at begins
      cases begins
  | cons tok ts =>
      obtain ⟨l', ms, leaves, noRemark, begins, brace⟩ := Token.exists_first_leaf (plain tok List.mem_cons_self)
      rw [List.flatMap_cons, leaves] at first
      cases first
      refine ⟨noRemark, fun named => ?_, fun opens => congrArg some (brace opens)⟩
      obtain ⟨rfl, starts, isNamed⟩ := begins named
      exact ⟨tok, rfl, starts, leaves, isNamed⟩

/-- **The leaves of a type may stand in a body**, if the scan takes none of its names for a keyword. -/
theorem Token.Unjoined.isBody (isBody : IsBody ls) (stop : StopsBody ls) : ∀ {ts : List Token},
    Token.Unjoined ts → (∀ tok ∈ ts, tok.isNote = false) → IsBody (ts.flatMap Token.leaves ++ ls) := by
  intro ts
  induction ts with
  | nil => exact fun _ _ => isBody
  | cons tok ts ih =>
      intro unjoined plain
      obtain ⟨here, behind⟩ := List.forall_mem_cons.mp plain
      have rest := ih unjoined.2 behind
      have next := stop.behind behind
      have noRemark : ∀ l ∈ (ts.flatMap Token.leaves ++ ls).head?, l.isRemark = false := fun l first => (next l first).1
      rw [List.flatMap_cons, List.append_assoc]
      cases tok with
      | name i =>
          obtain ⟨declaration, module⟩ := unjoined.1 i rfl
          refine ⟨⟨noRemark, fun kind raw l first => ?_, fun raw l ms eq begins => ?_⟩, rest⟩
          · by_contra begins
            rw [Bool.not_eq_false] at begins
            obtain ⟨tok, first', starts, _⟩ := (next l first).2.1 begins
            rw [declaration kind raw tok first'] at starts
            cases starts
          · have eq : ts.flatMap Token.leaves ++ ls = l :: ms := eq
            obtain ⟨tok, first', starts, leaves, named⟩ := (next l (by rw [eq]; rfl)).2.1 begins
            obtain ⟨us, rfl⟩ := List.head?_eq_some_iff.mp first'
            rw [List.flatMap_cons, leaves] at eq
            obtain rfl := (List.cons.inj eq).2
            obtain ⟨isName, noBlock⟩ := module raw tok us rfl starts
            refine ⟨named isName, fun m first brace => noBlock ?_⟩
            exact (stop.behind (fun tok mem => behind tok (List.mem_cons_of_mem _ mem)) m first).2.2 brace
      | mark m =>
          cases m with
          | colons => exact ⟨nofun, nofun, rest⟩
          | arrow => exact ⟨nofun, nofun, rest⟩
          | fatArrow => exact ⟨nofun, nofun, rest⟩
          | closeParen => exact ⟨fun _ => noRemark, rest⟩
          | _ => exact ⟨nofun, rest⟩
      | note => cases here
      | _ => exact ⟨trivial, rest⟩

/-! ## §4. What may stand anywhere in a body. -/

/-- The leaves close what they open and may stand in a body. -/
structure Closed (ls : List Leaf) : Prop where
  closed : ∀ closers, nest closers (ls.flatMap Leaf.brackets) = some closers
  isBody : ∀ {ms : List Leaf}, IsBody ms → StopsBody ms → IsBody (ls ++ ms)

theorem StopsBody.symbol {ch : Char} {isSymbol : isSymbol ch = true} (other : ch ≠ '\x7b') (ls : List Leaf) :
    StopsBody (.symbol ch isSymbol :: ls) := by
  intro l first
  cases first
  exact ⟨rfl, rfl, fun brace => other (List.cons.inj brace).1⟩

namespace Closed

variable {ms : List Leaf}

theorem nil : Closed [] where
  closed _ := rfl
  isBody isBody _ := isBody

theorem tokens {ts : List Token} (track : ∀ o : Opened, o.track ts = some o) (unjoined : Token.Unjoined ts)
    (plain : ∀ tok ∈ ts, tok.isNote = false) : Closed (ts.flatMap Token.leaves) where
  closed closers := Opened.nest_leaves (track ⟨closers, 0⟩)
  isBody isBody stop := unjoined.isBody isBody stop plain

theorem remarks (rs : List Remark) (h : Closed ls) : Closed (rs.map .remark ++ ls) where
  closed closers := by
    have none : (rs.map Leaf.remark).flatMap Leaf.brackets = [] := by
      rw [List.flatMap_map, List.flatMap_eq_nil_iff]
      exact fun _ _ => rfl
    rw [List.flatMap_append, none]
    exact h.closed closers
  isBody isBody stop := by
    rw [List.append_assoc]
    induction rs with
    | nil => exact h.isBody isBody stop
    | cons r rs ih => exact ⟨trivial, ih⟩

theorem notes (as : List Note) {ts : List Token} (h : Closed (ts.flatMap Token.leaves)) :
    Closed ((as.map Token.note ++ ts).flatMap Token.leaves) := by
  have leaves : (as.map Token.note).flatMap Token.leaves = (as.map Note.remark).map .remark := by
    rw [List.flatMap_map, List.map_map, List.map_eq_flatMap]
    rfl
  rw [List.flatMap_append, leaves]
  exact h.remarks _

/-- What stands first is no remark and begins no name. -/
theorem first (h : ∀ l ∈ ls.head?, l.isRemark = false ∧ l.beginsName = false) (stop : StopsBody ms) :
    ∀ l ∈ (ls ++ ms).head?, l.isRemark = false ∧ l.beginsName = false := by
  cases ls with
  | nil => exact fun l first => ⟨(stop l first).1, (stop l first).2.1⟩
  | cons => exact h

theorem name (i : Identifier) (h : Closed ls) (next : ∀ l ∈ ls.head?, l.isRemark = false ∧ l.beginsName = false) :
    Closed (.name i :: ls) where
  closed := h.closed
  isBody isBody stop := by
    have behind := first next stop
    exact ⟨⟨fun l here => (behind l here).1, .of_noName fun l here => (behind l here).2⟩, h.isBody isBody stop⟩

theorem comma (h : Closed ls) (h' : Closed ms) : Closed (ls ++ .symbol ',' rfl :: ms) where
  closed closers := by
    rw [List.flatMap_append, nest_append_eq, h.closed]
    exact h'.closed closers
  isBody isBody stop := by
    rw [List.append_assoc]
    exact h.isBody ⟨nofun, h'.isBody isBody stop⟩ (.symbol (by decide) _)

/-- A list of what may stand in a body. -/
theorem series {α : Type} {f : α → List Token} (s : Series α)
    (h : ∀ x ∈ s.elements, Closed ((f x).flatMap Token.leaves)) : Closed ((s.tokens f).flatMap Token.leaves) := by
  induction s with
  | nil => exact nil
  | last x => exact h x List.mem_cons_self
  | more x rest ih =>
      rw [Series.tokens, List.flatMap_append]
      exact (h x List.mem_cons_self).comma (ih fun x mem => h x (List.mem_cons_of_mem _ mem))

/-- A bracket around what may stand in a body. -/
theorem group {opener closer : Char} {opens : isSymbol opener = true} {closes : isSymbol closer = true}
    (pair : closer? opener = some closer) (h : Closed ls) :
    Closed (.symbol opener opens :: (ls ++ [.symbol closer closes])) where
  closed closers := by
    have inside := (isCloser_of_closer? pair).1
    have opened : nest closers [opener] = some (closer :: closers) := by simp [nest, pair]
    have closed : nest (closer :: closers) [closer] = some closers := by
      simp [nest, closer?_of_isCloser inside, inside]
    show nest closers ([opener] ++ (ls ++ [Leaf.symbol closer closes]).flatMap Leaf.brackets) = some closers
    rw [nest_append_eq, opened, Option.bind_some, List.flatMap_append, nest_append_eq, h.closed]
    exact closed
  isBody {ms} isBody stop := by
    have inside := (isCloser_of_closer? pair).1
    have behind : IsBody (.symbol closer closes :: ms) := ⟨fun _ l here => (stop l here).1, isBody⟩
    refine ⟨fun paren => ?_, ?_⟩
    · subst paren
      cases pair
    · show IsBody (ls ++ [Leaf.symbol closer closes] ++ ms)
      rw [List.append_assoc]
      refine h.isBody behind (.symbol ?_ _)
      rintro rfl
      cases inside

end Closed

end Leaves

end EnumExtract
