/-
  EnumExtract.Proofs.Grammar.Remarks
  ────────────────────────────────
  Attributes and doc comments as they have been read, written once more.

  A text that has been read as an attribute is read as the same attribute
  wherever it stands, unless a tick right behind it makes a character of its
  last bracket.  That does not happen to an attribute of the grammar.

  Main results:
    • `Agree.attributeAt`      an attribute up to its bracket is the same in two texts,
    • `ReadAttribute.read`     what has been read is read again,
    • `ReadAttribute.reading`  and passed over as a whole,
    • `AttributeSyntax.ofName_placed`   the name and the list of an attribute are those
                               that are written.
-/
import EnumExtract.Proofs.Appending
import EnumExtract.Proofs.Grammar.Spelling
import EnumExtract.Proofs.Transfer

namespace EnumExtract

open Cursor

/-! ## §1. The same attribute at another place. -/

/-- The attribute with its first character at `offset`. -/
def Attribute.at (a : Attribute) (offset : Nat) : Attribute where
  path := a.path
  text := a.text
  start := offset
  stop := offset + (a.stop - a.start)
  args := a.args.map fun args => ⟨args.text, offset + (args.start - a.start)⟩

namespace Cursor

variable {e e' : Nat} {c c' : Cursor} {a : Attribute}

/-- An attribute does not depend on what stands before it. -/
theorem readAttribute_congr (offset : c'.offset = c.offset) (ahead : c'.ahead = c.ahead) :
    c'.readAttribute = c.readAttribute := by
  have one : c'.advance 1 = c.advance 1 := advance_congr offset ahead Nat.one_pos
  have two : c'.advance 2 = c.advance 2 := advance_congr offset ahead Nat.two_pos
  unfold readAttribute upTo
  rw [one, two, offset, ahead]

/-- **The same attribute up to its bracket** is read in two texts that agree so far. -/
theorem Agree.attributeAt (h : Agree e e' c c') (sees : c.sees "#[" = true)
    (ha : c.readAttribute = .ok a) (stop : a.stop = e + 1)
    (last : (c'.advance (e - c.offset)).ahead.head? = some ']') :
    c'.readAttribute = .ok (a.at c'.offset) := by
  obtain ⟨close, head, next, parts⟩ := readAttribute_ok_iff.mp ha
  obtain ⟨before, nextLe, argsLt⟩ := parts.spec
  obtain ⟨_, text, _⟩ := parts.text_eq sees
  have closeAt : close.offset = e := by
    have same := parts.stop
    omega
  have start := parts.start
  obtain ⟨code, encloses⟩ := closing_ok_iff.mp parts.closing
  have forward := encloses.lt
  have reads := encloses.reads
  rw [advance_offset] at forward
  rw [advance_advance] at reads
  have place := h.place
  -- the bracket closes where it does in the first text
  obtain ⟨code', close', reads', agreeClose, same⟩ := (h.advance (k := 2) (by omega)).reads reads (by omega)
  have placeClose := agreeClose.place
  have bracketAt {x : Cursor} (leads : c'.LeadsTo x) (atEnd : x.offset = e') :
      x.ahead.head? = some ']' := by
    rw [leads.eq_advance, show x.offset - c'.offset = e - c.offset from by omega]
    exact last
  have toClose' := (h.leadsTo (k := 2) (by omega)).trans reads'.leadsTo
  have bracket' := bracketAt toClose' (by omega)
  have opens : (c.advance 1).ahead.head? = some '[' := by
    obtain ⟨rest, eq⟩ := sees_iff.mp sees
    rw [advance_ahead, eq]
    rfl
  have opens' : (c'.advance 1).ahead.head? = some '[' := by
    rw [(h.advance (k := 1) (by omega)).head? (by rw [advance_offset]; omega)]
    exact opens
  have nests' := encloses.nests
  rw [← same.chars_eq] at nests'
  have closing' : (c'.advance 1).closing = .ok close' :=
    closing_ok_iff.mpr ⟨code', by rw [advance_advance]; exact reads', nests', '[', ']', opens', rfl, bracket'⟩
  -- so do the path and what it is applied to
  obtain ⟨head', agreeHead, toPath'⟩ := (h.advance (k := 2) (by omega)).trivia parts.toPath (by omega)
  have samePath : head'.upTo close'.offset = head.upTo close.offset :=
    agreeHead.upTo (by omega) placeClose
  have bound := (pathLength_spec (head.upTo close.offset)).1
  rw [Cursor.upTo, List.length_take] at bound
  rw [← Cursor.upTo] at bound
  have agreePath := agreeHead.advance (k := Text.pathLength (head.upTo close.offset)) (by omega)
  obtain ⟨next', agreeNext, toArgs'⟩ : ∃ next', Agree e e' next next'
      ∧ Trivia false (head'.advance (Text.pathLength (head.upTo close.offset))) next' := by
    rcases Nat.lt_or_ge next.offset e with inside | atEnd
    · exact agreePath.trivia parts.toArgs inside
    · -- nothing but trivia up to the bracket, which ends them
      obtain ⟨level, _⟩ := parts.toArgs.spec (Level.start _).near
      obtain ⟨next', agree, leads, onward⟩ := agreePath.trivia_by parts.toArgs (Level.start _) level
        parts.toArgs.leadsTo.offset_le (Nat.le_refl _) (by omega)
      have toNext' := (((h.leadsTo (k := 2) (by omega)).trans toPath'.leadsTo).trans
        (agreeHead.leadsTo (by omega))).trans leads
      have placeNext := agree.place
      have bracket := bracketAt toNext' (by omega)
      exact ⟨next', agree, onward next' (.stop (trivium?_of_first bracket rfl (by decide)))⟩
  have placeNext := agreeNext.place
  have named := agreeHead.take (k := Text.pathLength (head.upTo close.offset)) (by omega)
  have written : a.text = c'.upTo (close'.offset + 1) := by
    rw [text, toClose'.upTo_succ bracket', h.upTo (i := close.offset) (by omega) placeClose]
  have path := parts.path
  have parts' (args : Option AttributeArgs)
      (found : ((next'.offset < close'.offset ∧ next'.sees "(" = true) ∧ ∃ argsClose,
          next'.closing = .ok argsClose
            ∧ args = some ⟨(next'.advance 1).upTo argsClose.offset, next'.offset + 1⟩)
        ∨ (¬ (next'.offset < close'.offset ∧ next'.sees "(" = true) ∧ args = none)) :
      c'.readAttribute = .ok ⟨a.path, a.text, c'.offset, close'.offset + 1, args⟩ := by
    refine readAttribute_ok_iff.mpr ⟨close', head', next', closing', toPath', ?_, ?_, ?_, written, rfl,
      rfl, found⟩
    · rw [samePath]
      exact parts.named
    · rw [samePath]
      exact toArgs'
    · rw [samePath, named]
      exact path
  have size : close'.offset + 1 = c'.offset + (a.stop - a.start) := by omega
  have sees' (inside : next.offset < e) : next'.sees "(" = next.sees "(" :=
    agreeNext.sees (by show next.offset + 1 ≤ e; omega)
  rcases parts.args with ⟨⟨inside, isList⟩, argsClose, hargs, eq⟩ | ⟨noList, eq⟩
  · have argsClose_lt := argsLt isList argsClose hargs inside
    obtain ⟨argsClose', hargs', agreeArgs⟩ := agreeNext.closing hargs (by omega)
    have placeArgs := agreeArgs.place
    obtain ⟨inner, enclosed⟩ := closing_ok_iff.mp hargs
    have forwardArgs := enclosed.lt
    have sameArgs : (next'.advance 1).upTo argsClose'.offset = (next.advance 1).upTo argsClose.offset :=
      (agreeNext.advance (k := 1) (by omega)).upTo (by omega) placeArgs
    rw [parts' _ (.inl ⟨⟨by omega, by rw [sees' (by omega)]; exact isList⟩, argsClose', hargs', rfl⟩),
      Attribute.at, eq, Option.map_some, size, sameArgs]
    congr 4
    have toHead := parts.toPath.leadsTo.offset_le
    have toNext := parts.toArgs.leadsTo.offset_le
    rw [advance_offset] at toHead toNext
    show next'.offset + 1 = c'.offset + (next.offset + 1 - a.start)
    omega
  · rw [parts' none (.inr ⟨fun both => noList ⟨?_, ?_⟩, rfl⟩), Attribute.at, eq, size]
    · rfl
    · have inside := both.1
      omega
    · have inside := both.1
      rw [← sees' (by omega)]
      exact both.2

end Cursor

/-! ## §2. Attributes that have been read. -/

/-- An attribute that has been read somewhere. -/
structure ReadAttribute where
  attr : Attribute
  read : ∃ c : Cursor, c.sees "#[" = true ∧ c.readAttribute = .ok attr

namespace ReadAttribute

def text (a : ReadAttribute) : Text :=
  a.attr.text

/-- A written attribute is read. -/
def ofSyntax (a : AttributeSyntax) : ReadAttribute where
  attr := a.placed 0
  read := by
    have eq : (Text.cursor a.text 0).ahead = a.text ++ [] := (List.append_nil _).symm
    exact ⟨_, sees_iff.mpr ⟨a.inner ++ "]", rfl⟩, AttributeSyntax.read eq⟩

theorem exists_text (a : ReadAttribute) : ∃ inner, a.text = '#' :: '[' :: (inner ++ [']']) := by
  obtain ⟨attr, c, sees, read⟩ := a
  obtain ⟨close, head, next, parts⟩ := readAttribute_ok_iff.mp read
  obtain ⟨_, text, s, eq⟩ := parts.text_eq sees
  obtain ⟨code, encloses⟩ := closing_ok_iff.mp parts.closing
  have forward := encloses.lt
  rw [advance_offset] at forward
  obtain ⟨rest, opens⟩ := sees_iff.mp sees
  have longer : 2 ≤ close.offset - c.offset := by omega
  obtain ⟨k, size⟩ := Nat.exists_eq_add_of_le' longer
  refine ⟨rest.take k, ?_⟩
  rw [ReadAttribute.text, text, Cursor.upTo, size, opens]
  rfl

theorem length_text (a : ReadAttribute) : a.attr.start + a.text.length = a.attr.stop := by
  obtain ⟨attr, c, sees, read⟩ := a
  obtain ⟨close, head, next, parts⟩ := readAttribute_ok_iff.mp read
  obtain ⟨onward, text, _⟩ := parts.text_eq sees
  have size := onward.length_upTo
  have le := onward.offset_le
  have start := parts.start
  have stop := parts.stop
  show attr.start + attr.text.length = attr.stop
  rw [text, List.length_append, List.length_singleton, size]
  omega

/-- The attribute is not glued to `w` behind it. -/
def Apart (a : ReadAttribute) (w : Text) : Prop :=
  w.head? = some '\'' → ∃ s, a = ofSyntax s

variable {a : ReadAttribute} {c : Cursor} {w : Text}

/-- **What has been read is read again**, wherever it stands. -/
theorem read_again (eq : c.ahead = a.text ++ w) (apart : a.Apart w) :
    c.readAttribute = .ok (a.attr.at c.offset) := by
  by_cases tick : w.head? = some '\''
  · obtain ⟨s, rfl⟩ := apart tick
    have read := AttributeSyntax.read (a := s) eq
    rw [read]
    simp [Attribute.at, ofSyntax, AttributeSyntax.placed, Function.comp_def]
  obtain ⟨attr, p, sees, read⟩ := a
  obtain ⟨close, head, next, parts⟩ := readAttribute_ok_iff.mp read
  obtain ⟨onward, text, s, here⟩ := parts.text_eq sees
  have size := onward.length_upTo
  have le := onward.offset_le
  have there : c.ahead = p.upTo close.offset ++ ']' :: w := by
    rw [eq, ReadAttribute.text, text, List.append_assoc, List.singleton_append]
  have agree : Agree close.offset (c.offset + (close.offset - p.offset)) p ⟨p.before, c.offset, c.ahead⟩ :=
    ⟨rfl, _, _, _, here, there, by omega, by rw [size], .of_gap (List.cons_ne_nil _ _) rfl (by decide)
      fun here => absurd here tick⟩
  have same : Cursor.readAttribute ⟨p.before, c.offset, c.ahead⟩ = c.readAttribute := readAttribute_congr rfl rfl
  rw [← same]
  refine agree.attributeAt sees read parts.stop ?_
  show (c.ahead.drop (close.offset - p.offset)).head? = some ']'
  rw [there, List.drop_left' size]
  rfl

theorem sees (eq : c.ahead = a.text ++ w) : c.sees "#[" = true := by
  obtain ⟨inner, text⟩ := a.exists_text
  exact sees_iff.mpr ⟨inner ++ ([']'] ++ w), by rw [eq, text]; simp⟩

/-- What has been read is passed over as a whole. -/
theorem reading {o : Opened} (eq : c.ahead = a.text ++ w) (apart : a.Apart w) :
    Token.Reading c a.text o o := by
  have sees := sees eq
  obtain ⟨close, head, next, parts⟩ := readAttribute_ok_iff.mp (read_again eq apart)
  obtain ⟨code, encloses⟩ := closing_ok_iff.mp parts.closing
  obtain ⟨onward, text, s, here⟩ := parts.text_eq sees
  have size := onward.length_upTo
  obtain ⟨rest, opens⟩ := sees_iff.mp sees
  have hash : c.lexeme? = .ok none := lexeme?_eq_none fun ch first => by
    rw [opens] at first
    cases first
    rfl
  obtain ⟨opener, closer, pair, bracket⟩ := encloses.reads_whole
  have carries : Carries [(c, '#')] o o := .single rfl
  have all := Reads.char hash (by rw [opens]; rfl) bracket
  have stop : close.advance 1 = c.advance a.text.length := by
    have written : a.text = c.upTo close.offset ++ [']'] := text
    have le := onward.offset_le
    rw [onward.eq_advance, advance_advance, written, List.length_append, size, List.length_singleton]
  rw [stop] at all
  exact ⟨_, all, carries.append (.group pair (nest_balanced encloses.nests))⟩

end ReadAttribute

/-! ## §3. Remarks. -/

/-- A doc comment on a line of its own, or an attribute that has been read. -/
inductive Remark where
  | doc (d : DocComment)
  | bracketed (a : ReadAttribute)

namespace Remark

def text : Remark → Text
  | doc d => d.text
  | bracketed a => a.text

/-- The text that is carried along. -/
def shown : Remark → Text
  | doc d => d.shown
  | bracketed a => a.text

/-- The attribute that is read where the text stands at `offset`. -/
def placed (offset : Nat) : Remark → Attribute
  | doc d => ⟨"doc", d.shown, offset, offset + d.shown.length, none⟩
  | bracketed a => a.attr.at offset

/-- The remark is not glued to `w` behind it. -/
def Apart : Remark → Text → Prop
  | doc _, _ => True
  | bracketed a, w => a.Apart w

theorem text_placed (r : Remark) (offset : Nat) : (r.placed offset).text = r.shown := by
  cases r <;> rfl

end Remark

/-- The remark that a note is. -/
def Note.remark : Note → Remark
  | doc d => .doc d
  | bracketed a => .bracketed (.ofSyntax a)

/-! ## §4. Attributes of one name. -/

/-- The path of the attribute that a remark is read as. -/
def Remark.path : Remark → Text
  | doc _ => "doc"
  | bracketed a => a.attr.path

theorem Remark.path_placed (r : Remark) (offset : Nat) : (r.placed offset).path = r.path := by
  cases r <;> rfl

/-- The blanks in an attribute: in front of its path, behind it, and behind the list. -/
structure AttributeBlanks where
  before : Text
  between : Text
  behind : Text
  isBefore : IsGap before
  isBetween : IsGap between
  isBehind : IsGap behind

/-- No blanks at all. -/
def AttributeBlanks.tight : AttributeBlanks :=
  ⟨[], [], [], IsGap.nil, IsGap.nil, IsGap.nil⟩

theorem IsName.isWrittenPath {n : Text} (h : IsName n) : IsWrittenPath n := by
  have path : IsWrittenPath (n ++ []) := .mk h .nil
  rwa [List.append_nil] at path

theorem closer?_paren : closer? '(' = some ')' :=
  rfl

/-- `#[name]` or `#[name(args)]`. -/
def AttributeSyntax.ofName (blanks : AttributeBlanks) (name : Text) (isName : IsName name) (args : Option Text)
    (trees : ∀ t, args = some t → IsTrees t) : AttributeSyntax where
  before := blanks.before
  path := name
  between := blanks.between
  input := match args, trees with
    | none, _ => .none
    | some t, trees => .list '(' ')' t blanks.behind closer?_paren (trees t rfl) blanks.isBehind
  blankBefore := blanks.isBefore
  isPath := isName.isWrittenPath
  blankBetween := blanks.isBetween

theorem unspaced_name {n : Text} (h : IsName n) : Text.unspaced n = n := by
  rw [Text.unspaced, List.filter_eq_self]
  intro ch mem
  rw [not_isBlank_of_isWord (h.isWord ch mem)]
  rfl

/-- What the attribute is read as. -/
theorem AttributeSyntax.ofName_placed (blanks : AttributeBlanks) {name : Text} (isName : IsName name)
    (args : Option Text) (trees : ∀ t, args = some t → IsTrees t) (offset : Nat) :
    let attr := (Remark.bracketed (.ofSyntax (.ofName blanks name isName args trees))).placed offset
    attr.path = name ∧ attr.args.map (·.text) = args := by
  intro attr
  refine ⟨unspaced_name isName, ?_⟩
  cases args with
  | none => rfl
  | some t => rfl

end EnumExtract
