/-
  EnumExtract.Proofs.Scan
  ────────────────────────────────
  The scan for declarations, as the list of the places it visits.

  The scan goes from place to place; where a declaration may begin it reads
  the head of one and goes on behind it.  All places visited are places of the
  reading, as long as no raw string opens in the name of a declaration: there
  the reader of names and the reading go different ways.

  Main results:
    • `readItem_ok_iff`   what the reader of a head finds,
    • `items_visits`      the visits of a scan follow one another, cover the
                          text, and each attribute of the text is in the prelude
                          read at one of them.
-/
import EnumExtract.Proofs.Names
import EnumExtract.Proofs.Prelude
import EnumExtract.Source.Item

namespace EnumExtract

theorem DeclKind.ofKeyword?_eq_some {word : Text} {kind : DeclKind} :
    DeclKind.ofKeyword? word = some kind ↔ word = kind.keyword := by
  rw [DeclKind.ofKeyword?]
  constructor
  · intro h
    split at h
    next eq =>
      cases h
      exact eq
    next =>
      split at h
      next eq =>
        cases h
        exact eq
      next => cases h
  · rintro rfl
    cases kind <;> decide

namespace Cursor

variable {o c d : Cursor} {m : Int}

/-! ## §1. The head of a declaration. -/

/-- What may be the head of a declaration at `c`: a prelude up to `head`, a visibility up to
`behind`, and the place of a keyword. -/
structure HeadAt (c : Cursor) (attrs : List Attribute) (head : Cursor) (visibility : Text)
    (behind place : Cursor) : Prop where
  prelude : Prelude c attrs head
  visibility : Visibility head visibility behind
  toKeyword : Trivia false behind place

/-- The head of the declaration `item` at `c`: after its keyword at `place`, which ends at
`behind`, comes its name at `name`, which ends at `after`. -/
structure ItemAt (c : Cursor) (item : Item) (head place behind name after : Cursor) : Prop where
  head : ∃ afterVisibility, HeadAt c item.attrs head item.visibility afterVisibility place
  keyword : place.identifier? = some (item.kind.keyword, behind)
  toName : Trivia false behind name
  name : name.identifier? = some (item.name, after)
  start : item.start = c.offset
  bodyIndex : item.bodyIndex = after.offset

/-- What the reader of a head finds: a declaration, a keyword without a name, or no keyword. -/
inductive HeadRead (c : Cursor) (module : List Text) : Option Item → Cursor → Prop where
  | item {item : Item} {head place behind name after : Cursor}
      (h : ItemAt c item head place behind name after) (inside : item.module = module) :
      HeadRead c module (some item) after
  | nameless {attrs : List Attribute} {visibility : Text} {kind : DeclKind}
      {head afterVisibility place behind name : Cursor}
      (h : HeadAt c attrs head visibility afterVisibility place)
      (keyword : place.identifier? = some (kind.keyword, behind))
      (toName : Trivia false behind name) (noName : name.identifier? = none) :
      HeadRead c module none behind
  | other {attrs : List Attribute} {visibility : Text} {head afterVisibility place : Cursor}
      (h : HeadAt c attrs head visibility afterVisibility place)
      (noKeyword : ∀ kind behind, place.identifier? ≠ some (DeclKind.keyword kind, behind)) :
      HeadRead c module none (if place.offset ≤ c.offset then c.advance 1 else place)

theorem headRead_of_readItem {module : List Text} {item? : Option Item} {next : Cursor}
    (h : c.readItem module = .ok (item?, next)) : HeadRead c module item? next := by
  rw [readItem] at h
  obtain ⟨⟨attrs, head⟩, hprelude, h⟩ := bind_ok_iff.mp h
  obtain ⟨⟨visibility, afterVisibility⟩, hvisibility, h⟩ := bind_ok_iff.mp h
  obtain ⟨place, toKeyword, h⟩ := bind_ok_iff.mp h
  have found : HeadAt c attrs head visibility afterVisibility place :=
    ⟨readPrelude_ok_iff.mp hprelude, readVisibility_ok_iff.mp hvisibility,
      skipTrivia_ok_iff.mp toKeyword⟩
  split at h
  next none =>
    cases h
    refine .other found fun kind behind eq => ?_
    rw [eq, Option.bind_some, Option.map_eq_none_iff] at none
    rw [DeclKind.ofKeyword?_eq_some.mpr rfl] at none
    cases none
  next kind behind some =>
    obtain ⟨⟨word, after⟩, hword, hkind⟩ := Option.bind_eq_some_iff.mp some
    obtain ⟨_, hkind', eq⟩ := Option.map_eq_some_iff.mp hkind
    cases eq
    have same : word = kind.keyword := DeclKind.ofKeyword?_eq_some.mp hkind'
    subst same
    obtain ⟨name, toName, h⟩ := bind_ok_iff.mp h
    rw [skipTrivia_ok_iff] at toName
    split at h
    next noName =>
      cases h
      exact .nameless found hword toName noName
    next n after hname =>
      cases h
      exact .item ⟨⟨_, found⟩, hword, toName, hname, rfl, rfl⟩ rfl

/-- The head that stands at a cursor is read. -/
theorem readItem_of_headRead {module : List Text} {item? : Option Item} {next : Cursor}
    (h : HeadRead c module item? next) : c.readItem module = .ok (item?, next) := by
  have known (kind : DeclKind) : DeclKind.ofKeyword? kind.keyword = some kind :=
    DeclKind.ofKeyword?_eq_some.mpr rfl
  cases h with
  | @item item head place behind name after h inside =>
      obtain ⟨⟨_, found⟩, keyword, toName, hname, start, body⟩ := h
      refine bind_ok_iff.mpr ⟨_, readPrelude_ok_iff.mpr found.prelude, bind_ok_iff.mpr ⟨_,
        readVisibility_ok_iff.mpr found.visibility, bind_ok_iff.mpr ⟨_,
          skipTrivia_ok_iff.mpr found.toKeyword, ?_⟩⟩⟩
      simp only [keyword, Option.bind_some, known, Option.map_some]
      refine bind_ok_iff.mpr ⟨_, skipTrivia_ok_iff.mpr toName, ?_⟩
      obtain ⟨kind, name, attrs, visibility, start, bodyIndex, module⟩ := item
      subst start body inside
      simp only [hname]
      rfl
  | @nameless attrs visibility kind head afterVisibility place behind name h keyword toName noName =>
      refine bind_ok_iff.mpr ⟨_, readPrelude_ok_iff.mpr h.prelude, bind_ok_iff.mpr ⟨_,
        readVisibility_ok_iff.mpr h.visibility, bind_ok_iff.mpr ⟨_,
          skipTrivia_ok_iff.mpr h.toKeyword, ?_⟩⟩⟩
      simp only [keyword, Option.bind_some, known, Option.map_some]
      refine bind_ok_iff.mpr ⟨_, skipTrivia_ok_iff.mpr toName, ?_⟩
      simp only [noName]
      rfl
  | @other attrs visibility head afterVisibility place h noKeyword =>
      refine bind_ok_iff.mpr ⟨_, readPrelude_ok_iff.mpr h.prelude, bind_ok_iff.mpr ⟨_,
        readVisibility_ok_iff.mpr h.visibility, bind_ok_iff.mpr ⟨_,
          skipTrivia_ok_iff.mpr h.toKeyword, ?_⟩⟩⟩
      cases found : place.identifier? with
      | none => rfl
      | some word =>
          obtain ⟨word, after⟩ := word
          have none : DeclKind.ofKeyword? word = none := by
            cases kind : DeclKind.ofKeyword? word with
            | none => rfl
            | some kind =>
                rw [DeclKind.ofKeyword?_eq_some.mp kind] at found
                exact absurd found (noKeyword _ _)
          simp only [Option.bind_some, none, Option.map_none]
          rfl

/-- **A head is read for what it is.** -/
theorem readItem_ok_iff {module : List Text} {item? : Option Item} {next : Cursor} :
    c.readItem module = .ok (item?, next) ↔ HeadRead c module item? next :=
  ⟨headRead_of_readItem, readItem_of_headRead⟩

theorem HeadAt.leadsTo {attrs : List Attribute} {visibility : Text} {head behind place : Cursor}
    (h : HeadAt c attrs head visibility behind place) : c.LeadsTo place :=
  (h.prelude.leadsTo.trans h.visibility.leadsTo).trans h.toKeyword.leadsTo

theorem HeadRead.leadsTo {module : List Text} {item? : Option Item} {next : Cursor} (h : HeadRead c module item? next)
    (more : c.ahead ≠ []) : c.LeadsTo next ∧ c.offset < next.offset := by
  cases h with
  | item h _ =>
      obtain ⟨_, head⟩ := h.head
      have keyword := leadsTo_identifier h.keyword
      have name := leadsTo_identifier h.name
      have start := head.leadsTo.offset_le
      have toName := h.toName.leadsTo.offset_le
      exact ⟨((head.leadsTo.trans keyword.1).trans h.toName.leadsTo).trans name.1, by omega⟩
  | nameless h keyword toName noName =>
      have keyword := leadsTo_identifier keyword
      have start := h.leadsTo.offset_le
      exact ⟨h.leadsTo.trans keyword.1, by omega⟩
  | other h noKeyword =>
      split
      next =>
        refine ⟨leadsTo_advance ?_, Nat.lt_succ_self _⟩
        exact List.length_pos_iff.mpr more
      next onward => exact ⟨h.leadsTo, by omega⟩

/-! ## §2. One step of the scan. -/

/-- What one step of the scan can do. -/
inductive ScanStep (s : Scan) (c : Cursor) : Step Scan (List Item) → Prop where
  | enter {modules : List OpenModule} {inner : OpenModule} {body : Cursor}
      (keyword : c.startsKeyword ["mod"] = true) (h : c.openModule? = .ok (some (inner, body))) :
      ScanStep s c (.move ⟨s.items, inner :: modules⟩ (body.offset + 1 - c.offset))
  | pass {modules : List OpenModule} (keyword : c.startsKeyword ["mod"] = true) :
      ScanStep s c (.move ⟨s.items, modules⟩ 3)
  | head {modules : List OpenModule} {module : List Text} {item? : Option Item} {next : Cursor}
      (starts : c.mayStartItem = true) (h : HeadRead c module item? next) :
      ScanStep s c (.move ⟨item?.toList ++ s.items, modules⟩ (next.offset - c.offset))
  | other {modules : List OpenModule} {length? : Option Nat} (noStart : c.mayStartItem = false)
      (h : c.lexeme? = .ok length?) :
      ScanStep s c (.move ⟨s.items, modules⟩ (length?.getD 1))

theorem scanStep_spec {s : Scan} {step : Step Scan (List Item)} (h : scanStep s c = .ok step) :
    ScanStep s c step := by
  rw [scanStep] at h
  simp only at h
  split at h
  next keyword =>
    obtain ⟨found, hopen, h⟩ := bind_ok_iff.mp h
    split at h
    next =>
      cases h
      exact .enter keyword hopen
    next =>
      cases h
      exact .pass keyword
  next =>
    split at h
    next starts =>
      obtain ⟨⟨item?, next⟩, hread, h⟩ := bind_ok_iff.mp h
      cases h
      exact .head starts (readItem_ok_iff.mp hread)
    next noStart =>
      obtain ⟨length?, hlexeme, h⟩ := bind_ok_iff.mp h
      cases h
      exact .other (by simpa using noStart) hlexeme

theorem startsKeyword_mod (h : c.startsKeyword ["mod"] = true) : ∃ rest, c.ahead = "mod".toList ++ rest := by
  rw [startsKeyword, Bool.and_eq_true, Option.any_eq_true] at h
  obtain ⟨_, word, hword, mem⟩ := h
  obtain ⟨rest, eq, _⟩ := Text.identifier?_some hword
  simp only [List.contains_eq_mem, List.mem_singleton, decide_eq_true_iff] at mem
  subst mem
  exact ⟨rest, eq⟩

theorem leadsTo_mod (h : c.startsKeyword ["mod"] = true) : c.LeadsTo (c.advance 3) := by
  obtain ⟨rest, eq⟩ := startsKeyword_mod h
  refine leadsTo_advance ?_
  rw [eq]
  exact Nat.le_add_left _ _

/-- What the reader of an inline module finds. -/
theorem openModule?_some {inner : OpenModule} {body : Cursor}
    (h : c.openModule? = .ok (some (inner, body))) :
    ∃ name w after, Trivia false (c.advance 3) name ∧ name.identifier? = some (w, after)
      ∧ Trivia false after body ∧ body.sees "\x7b" = true := by
  rw [openModule?] at h
  obtain ⟨name, toName, h⟩ := bind_ok_iff.mp h
  split at h
  next => cases h
  next w after hname =>
    obtain ⟨body', toBody, h⟩ := bind_ok_iff.mp h
    split at h
    next sees =>
      obtain ⟨close, _, h⟩ := bind_ok_iff.mp h
      cases h
      exact ⟨name, w, after, skipTrivia_ok_iff.mp toName, hname, skipTrivia_ok_iff.mp toBody, sees⟩
    next => cases h

theorem leadsTo_openModule {inner : OpenModule} {body : Cursor} (keyword : c.startsKeyword ["mod"] = true)
    (h : c.openModule? = .ok (some (inner, body))) : c.LeadsTo body ∧ body.LeadsTo (body.advance 1) := by
  obtain ⟨name, w, after, toName, hname, toBody, sees⟩ := openModule?_some h
  obtain ⟨rest, eq⟩ := sees_iff.mp sees
  have toWord := (leadsTo_mod keyword).trans toName.leadsTo
  have toBrace := (toWord.trans (leadsTo_identifier hname).1).trans toBody.leadsTo
  refine ⟨toBrace, leadsTo_advance ?_⟩
  rw [eq]
  exact Nat.le_add_left _ _

theorem scanStep_steady : Steady scanStep := by
  intro s c s' n more h
  have spec := scanStep_spec h
  clear h
  generalize eq : Step.move s' n = step at spec
  cases spec with
  | @enter modules inner body keyword h =>
      cases eq
      obtain ⟨toBrace, brace⟩ := leadsTo_openModule keyword h
      have total := (toBrace.trans brace).end_eq
      have lower := toBrace.offset_le
      rw [advance_offset] at total
      omega
  | pass keyword =>
      cases eq
      have total := (leadsTo_mod keyword).end_eq
      rw [advance_offset] at total
      omega
  | head starts h =>
      cases eq
      obtain ⟨onward, lt⟩ := h.leadsTo more
      have total := onward.end_eq
      omega
  | @other _ length? noStart h =>
      cases eq
      cases length? with
      | some length => exact lexeme?_bounds h
      | none => exact ⟨Nat.one_pos, List.length_pos_iff.mpr more⟩

/-! ## §3. Steps of the scan in a reading. -/

/-- No attribute begins in the code from offset `i` up to offset `j`. -/
def NoAttribute (o : Cursor) (i j : Nat) : Prop :=
  ∀ ⦃x : Cursor⦄ ⦃m : Int⦄, CodeAt o x '#' m → i ≤ x.offset → x.offset < j → x.sees "#[" = false

theorem NoAttribute.trans {i j k : Nat} (h : NoAttribute o i j) (h' : NoAttribute o j k) :
    NoAttribute o i k := by
  intro x m hx le lt
  by_cases before : x.offset < j
  · exact h hx le before
  · exact h' hx (by omega) lt

theorem AllCode.noAttribute {i j : Nat} (h : AllCode (· ≠ '#') o i j) : NoAttribute o i j :=
  fun _ _ hx le lt => absurd rfl (h hx le lt)

theorem BlankCode.noAttribute {i j : Nat} (h : BlankCode o i j) : NoAttribute o i j := by
  refine AllCode.noAttribute (h.imp ?_)
  rintro ch blank rfl
  cases blank

/-- No attribute begins in an identifier, not even at the `#` of `r#`. -/
theorem noAttribute_identifier {w : Text} {after : Cursor} (level : Level o c m)
    (h : c.identifier? = some (w, after)) : NoAttribute o c.offset after.offset := by
  obtain ⟨hw, rfl⟩ := identifier?_eq_some h
  obtain ⟨rest, eq, isIdentifier, _⟩ := Text.identifier?_some hw
  intro x k hx le lt
  have onward := level.leadsTo.of_le hx.level.leadsTo le
  obtain ⟨j, hj, rfl⟩ := onward
  rw [advance_offset, advance_offset] at lt
  have first := hx.first
  have lt : j < w.length := by omega
  rw [advance_ahead, eq, List.head?_drop, List.getElem?_append_left lt] at first
  rcases isIdentifier with name | ⟨n, name, rfl⟩
  · have word := name.isWord _ (List.mem_of_getElem? first)
    cases word
  · match j with
    | 0 => cases first
    | 1 =>
        obtain ⟨a, v, rfl, start, _⟩ := name
        rw [Bool.eq_false_iff]
        intro sees
        obtain ⟨rest', eq'⟩ := sees_iff.mp sees
        rw [advance_ahead, eq] at eq'
        cases eq'
        cases start
    | j + 2 =>
        have word := name.isWord _ (List.mem_of_getElem? (i := j) first)
        cases word

theorem keyword_plain {kind : DeclKind} {behind : Cursor}
    (h : c.identifier? = some (kind.keyword, behind)) : c.PlainWord kind.keyword := by
  obtain ⟨hw, _⟩ := identifier?_eq_some h
  obtain ⟨rest, eq, _⟩ := Text.identifier?_some hw
  cases kind
  · exact plainWord_of_isKeyword eq (by decide)
  · exact plainWord_of_isKeyword eq (by decide)

/-- No raw string opens in the name of the declaration. -/
def PlainlyNamed (c : Cursor) (item : Item) : Prop :=
  ∀ ⦃head place behind name after : Cursor⦄, ItemAt c item head place behind name after →
    name.PlainWord item.name

theorem HeadAt.spec {attrs : List Attribute} {visibility : Text} {head behind place : Cursor}
    (h : HeadAt c attrs head visibility behind place) (level : Level o c m) :
    Level o head m ∧ Level o place m ∧ NoAttribute o head.offset place.offset := by
  have hhead := (h.prelude.laid level.near).level
  obtain ⟨hbehind, noHash⟩ := h.visibility.spec hhead
  obtain ⟨hplace, blank⟩ := h.toKeyword.spec hbehind.near
  exact ⟨hhead, hplace, noHash.noAttribute.trans blank.noAttribute⟩

/-- The parts of a declaration's head are on one level, and its attributes in its prelude. -/
theorem ItemAt.spec {item : Item} {head place behind name after : Cursor}
    (h : ItemAt c item head place behind name after) (level : Level o c m)
    (plain : name.PlainWord item.name) :
    Level o head m ∧ Level o place m ∧ Level o behind m ∧ Level o after m
      ∧ NoAttribute o head.offset after.offset := by
  obtain ⟨_, found⟩ := h.head
  obtain ⟨hhead, hplace, toPlace⟩ := found.spec level
  have hbehind := hplace.identifier h.keyword (keyword_plain h.keyword)
  obtain ⟨hname, blank⟩ := h.toName.spec hbehind.near
  exact ⟨hhead, hplace, hbehind, hname.identifier h.name plain,
    ((toPlace.trans (noAttribute_identifier hplace h.keyword)).trans blank.noAttribute).trans
      (noAttribute_identifier hname h.name)⟩

/-- Where a declaration may start and neither a doc comment nor an attribute stands, a keyword does,
and no raw string opens there. -/
theorem exists_keyword_char (starts : c.mayStartItem = true)
    (noDoc : startsDocComment c.ahead = false) (noAttribute : c.sees "#[" = false) :
    ∃ ch, c.ahead.head? = some ch ∧ isWord ch = true ∧ c.rawOpener? = none := by
  rw [mayStartItem, noDoc, noAttribute, Bool.false_or, Bool.false_or, startsKeyword,
    Bool.and_eq_true, Option.any_eq_true] at starts
  obtain ⟨_, w, hw, mem⟩ := starts
  obtain ⟨rest, eq, _⟩ := Text.identifier?_some hw
  simp only [List.contains_eq_mem, List.mem_cons, List.not_mem_nil, or_false,
    decide_eq_true_iff] at mem
  have at0 (h : c.PlainWord w) (pos : 0 < w.length) : c.rawOpener? = none := by
    have start := h 0 pos
    rwa [advance_zero] at start
  rcases mem with rfl | rfl | rfl
  · exact ⟨'p', by rw [eq]; rfl, rfl, at0 (plainWord_of_isKeyword eq (by decide)) (by decide)⟩
  · exact ⟨'e', by rw [eq]; rfl, rfl, at0 (plainWord_of_isKeyword eq (by decide)) (by decide)⟩
  · exact ⟨'s', by rw [eq]; rfl, rfl, at0 (plainWord_of_isKeyword eq (by decide)) (by decide)⟩

/-- The scan stays on the reading, and passes attributes only in a prelude. -/
theorem HeadRead.spec {module : List Text} {item? : Option Item} {next : Cursor}
    (h : HeadRead c module item? next) (starts : c.mayStartItem = true) (level : Level o c m)
    (plain : ∀ item, item? = some item → c.PlainlyNamed item) :
    Level o next m ∧ ∃ attrs head, Prelude c attrs head ∧ head.offset ≤ next.offset
      ∧ NoAttribute o head.offset next.offset := by
  cases h with
  | item h _ =>
      obtain ⟨_, _, _, hafter, none⟩ := h.spec level (plain _ rfl h)
      obtain ⟨_, found⟩ := h.head
      have toPlace := (found.visibility.leadsTo.trans found.toKeyword.leadsTo).offset_le
      have toBehind := (leadsTo_identifier h.keyword).2
      have toName := h.toName.leadsTo.offset_le
      have toAfter := (leadsTo_identifier h.name).2
      exact ⟨hafter, _, _, found.prelude, by omega, none⟩
  | nameless found keyword toName noName =>
      obtain ⟨_, hplace, toPlace⟩ := found.spec level
      have le := (found.visibility.leadsTo.trans found.toKeyword.leadsTo).offset_le
      have lt := (leadsTo_identifier keyword).2
      exact ⟨hplace.identifier keyword (keyword_plain keyword), _, _, found.prelude, by omega,
        toPlace.trans (noAttribute_identifier hplace keyword)⟩
  | @other attrs visibility head behind place found noKeyword =>
      obtain ⟨_, hplace, toPlace⟩ := found.spec level
      have le := (found.visibility.leadsTo.trans found.toKeyword.leadsTo).offset_le
      split
      next stuck =>
        -- nothing has been read, so the scan stands at a keyword
        have start := found.prelude.leadsTo.offset_le
        have same : head = c :=
          found.prelude.leadsTo.eq_of_offset (.refl c) (by omega)
        obtain ⟨_, noDoc, noAttribute⟩ := found.prelude.ends
        rw [same] at noDoc noAttribute
        obtain ⟨ch, first, word, noOpener⟩ := exists_keyword_char starts noDoc noAttribute
        have code : CodeAt o c ch m := ⟨level, lexeme?_of_isWord first (.inl word) noOpener, first⟩
        have next := code.next
        rw [bracketWeight_of_isWord (.inl word), Int.add_zero] at next
        refine ⟨next, attrs, head, found.prelude, by rw [same, advance_offset]; omega, ?_⟩
        rw [same]
        intro x k hx le lt
        rw [advance_offset] at lt
        rw [hx.level.eq_of_offset level (by omega)]
        exact noAttribute
      next => exact ⟨hplace, attrs, head, found.prelude, by omega, toPlace⟩

/-- The keyword `mod` is passed as a word. -/
theorem Level.passMod (level : Level o c m) (keyword : c.startsKeyword ["mod"] = true) :
    Level o (c.advance 3) m ∧ NoAttribute o c.offset (c.advance 3).offset := by
  obtain ⟨rest, eq⟩ := startsKeyword_mod keyword
  have plain : c.PlainWord "mod" := plainWord_of_isKeyword eq (by decide)
  obtain ⟨code, reads, hchars⟩ := reads_word eq (Text.isWord_of_isKeyword (by decide)) plain
  refine ⟨level.word eq (Text.isWord_of_isKeyword (by decide)) plain, (level.allCode reads ?_).noAttribute⟩
  rw [hchars]
  exact Text.ne_hash_of_isKeyword (by decide)

/-- No raw string opens in a name in front of a brace, whatever trivia stands between them. -/
theorem plainWord_of_brace {name after body : Cursor} {w : Text} (hname : name.identifier? = some (w, after))
    (toBody : Trivia false after body) (sees : body.sees "\x7b" = true) : name.PlainWord w := by
  obtain ⟨stop, rest, ahead, outside⟩ : ∃ stop rest, after.ahead = stop :: rest
      ∧ (stop ≠ '#' ∧ stop ≠ '"' ∧ stop ≠ 'r' ∧ stop ≠ 'b') := by
    obtain ⟨rest, brace⟩ := sees_iff.mp sees
    rcases toBody.first with same | ⟨ch, eq, blank | rfl⟩
    · exact ⟨'\x7b', rest, by rw [← same, brace]; rfl, by decide⟩
    · obtain ⟨rest, eq⟩ := List.head?_eq_some_iff.mp eq
      refine ⟨ch, rest, eq, ?_, ?_, ?_, ?_⟩ <;> rintro rfl <;> cases blank
    · obtain ⟨rest, eq⟩ := List.head?_eq_some_iff.mp eq
      exact ⟨'/', rest, eq, by decide⟩
  exact plainWord_of_behind hname ahead outside

/-- An inline module opens at a brace of the reading, and no attribute begins up to there. -/
theorem Level.openModule {inner : OpenModule} {body : Cursor} (level : Level o c m)
    (keyword : c.startsKeyword ["mod"] = true) (h : c.openModule? = .ok (some (inner, body))) :
    CodeAt o body '\x7b' m ∧ NoAttribute o c.offset (body.advance 1).offset := by
  obtain ⟨name, w, after, toName, hname, toBody, sees⟩ := openModule?_some h
  obtain ⟨first, noneBefore⟩ := level.passMod keyword
  obtain ⟨levelName, blank⟩ := toName.spec first.near
  have levelAfter := levelName.identifier hname (plainWord_of_brace hname toBody sees)
  obtain ⟨levelBody, blank'⟩ := toBody.spec levelAfter.near
  obtain ⟨rest, brace⟩ := sees_iff.mp sees
  have opens : CodeAt o body '\x7b' m := levelBody.bracket (by rw [brace]; rfl) (.inl rfl)
  have noHash : ∀ ch ∈ chars [(body, '\x7b')], ch ≠ '#' := by
    intro ch mem
    obtain rfl : ch = '\x7b' := List.mem_singleton.mp mem
    decide
  have toName := noneBefore.trans blank.noAttribute
  have toBrace := (toName.trans (noAttribute_identifier levelName hname)).trans blank'.noAttribute
  exact ⟨opens, toBrace.trans (levelBody.allCode opens.reads noHash).noAttribute⟩

/-! ## §4. Visits. -/

/-- A place that the scan visits, how far it goes on from there, and the declaration that it
finds there, if it finds one. -/
structure Visit where
  place : Cursor
  length : Nat
  found : Option Item

namespace Visit

/-- The offset that the scan goes on from. -/
def stop (v : Visit) : Nat :=
  v.place.offset + v.length

theorem le_stop (v : Visit) : v.place.offset ≤ v.stop :=
  Nat.le_add_right _ _

/-- What is known about a visit of the reading from `o`. -/
structure Sound (o : Cursor) (v : Visit) : Prop where
  level : ∃ m, Level o v.place m
  item : ∀ item, v.found = some item → ∃ head place behind name after,
    ItemAt v.place item head place behind name after ∧ v.stop = item.bodyIndex
  prelude : (∃ attrs head, Prelude v.place attrs head ∧ head.offset ≤ v.stop
      ∧ NoAttribute o head.offset v.stop)
    ∨ NoAttribute o v.place.offset v.stop

end Visit

/-- A step of the scan is a visit, and leads to a place of the reading. -/
theorem ScanStep.visit {s s' : Scan} {n : Nat} (h : ScanStep s c (.move s' n))
    (more : c.ahead ≠ []) (level : Level o c m)
    (plain : c.mayStartItem = true → ∀ item ∈ s'.items, c.PlainlyNamed item) :
    ∃ found, s'.items = found.toList ++ s.items ∧ Visit.Sound o ⟨c, n, found⟩
      ∧ ∃ k, Level o (c.advance n) k := by
  cases h with
  | @enter modules inner body keyword h =>
      obtain ⟨opens, noAttribute⟩ := level.openModule keyword h
      obtain ⟨toBrace, brace⟩ := leadsTo_openModule keyword h
      have bound := toBrace.offset_le
      have next : c.advance (body.offset + 1 - c.offset) = body.advance 1 :=
        (toBrace.trans brace).eq_advance.symm
      have stop : Visit.stop ⟨c, body.offset + 1 - c.offset, none⟩ = (body.advance 1).offset := by
        show c.offset + (body.offset + 1 - c.offset) = body.offset + 1
        omega
      refine ⟨none, rfl, ⟨⟨m, level⟩, nofun, .inr ?_⟩, m + bracketWeight '\x7b', ?_⟩
      · rw [stop]
        exact noAttribute
      · rw [next]
        exact opens.next
  | pass keyword =>
      obtain ⟨behind, noAttribute⟩ := level.passMod keyword
      exact ⟨none, rfl, ⟨⟨m, level⟩, nofun, .inr noAttribute⟩, m, behind⟩
  | @head modules module item? next starts h =>
      obtain ⟨onward, lt⟩ := h.leadsTo more
      have eq := onward.eq_advance
      have stop : Visit.stop ⟨c, next.offset - c.offset, item?⟩ = next.offset := by
        show c.offset + (next.offset - c.offset) = next.offset
        omega
      have plain' : ∀ item, item? = some item → c.PlainlyNamed item := by
        rintro item rfl
        exact plain starts item List.mem_cons_self
      obtain ⟨hnext, attrs, hd, prelude, le, none⟩ := h.spec starts level plain'
      refine ⟨item?, rfl, ⟨⟨m, level⟩, ?_, .inl ⟨attrs, hd, prelude, ?_, ?_⟩⟩, m, ?_⟩
      · rintro item rfl
        cases h with
        | item h _ => exact ⟨_, _, _, _, _, h, by rw [stop, h.bodyIndex]⟩
      · rw [stop]
        exact le
      · rw [stop]
        exact none
      · rw [← eq]
        exact hnext
  | @other modules length? noStart h =>
      have noSees : c.sees "#[" = false := by
        rw [mayStartItem, Bool.or_eq_false_iff, Bool.or_eq_false_iff] at noStart
        exact noStart.1.2
      cases length? with
      | some length =>
          have next := level.reads (.lexeme h (.here _))
          refine ⟨none, rfl, ⟨⟨m, level⟩, nofun, .inr ?_⟩, _, next⟩
          exact (level.allCode (.lexeme h (.here _)) nofun).noAttribute
      | none =>
          obtain ⟨ch, rest, eq⟩ := List.exists_cons_of_ne_nil more
          have code : CodeAt o c ch m := ⟨level, h, by rw [eq, List.head?_cons]⟩
          refine ⟨none, rfl, ⟨⟨m, level⟩, nofun, .inr fun x k hx le lt => ?_⟩, _, code.next⟩
          rw [hx.level.eq_of_offset level (Nat.le_antisymm (Nat.le_of_lt_succ lt) le)]
          exact noSees

theorem mem_of_scan {finish : Scan → Cursor → Except Fault (List Item)}
    (hfinish : ∀ s c, finish s c = .ok s.items.reverse) {s : Scan} {items : List Item}
    (h : Walks scanStep finish s c items) : ∀ item ∈ s.items, item ∈ items := by
  induction h with
  | finish _ h =>
      rw [hfinish] at h
      cases h
      exact fun item mem => List.mem_reverse.mpr mem
  | stop _ h => cases scanStep_spec h
  | move h _ _ _ ih =>
      intro item mem
      refine ih item ?_
      cases scanStep_spec h with
      | enter _ _ => exact mem
      | pass _ => exact mem
      | head _ _ => exact List.mem_append_right _ mem
      | other _ _ => exact mem

/-- How the visits of a scan from `c` lie in the text. -/
structure Visits (o c : Cursor) (visits : List Visit) : Prop where
  sound : ∀ v ∈ visits, v.Sound o
  after : ∀ v ∈ visits, c.offset ≤ v.place.offset
  order : visits.Pairwise fun v w => v.stop ≤ w.place.offset
  cover : ∀ i, c.offset ≤ i → i < c.offset + c.ahead.length →
    ∃ v ∈ visits, v.place.offset ≤ i ∧ i < v.stop

theorem visits_of_scan {finish : Scan → Cursor → Except Fault (List Item)}
    (hfinish : ∀ s c, finish s c = .ok s.items.reverse) {s : Scan} {items : List Item}
    (h : Walks scanStep finish s c items) :
    (∃ m, Level o c m) → (∀ item ∈ items, ∀ c, o.LeadsTo c → c.PlainlyNamed item) →
      ∃ visits, items = s.items.reverse ++ visits.filterMap (·.found) ∧ Visits o c visits := by
  induction h with
  | @finish s c items atEnd h =>
      rintro _ _
      rw [hfinish] at h
      cases h
      refine ⟨[], by simp, nofun, nofun, .nil, fun i le lt => ?_⟩
      rw [atEnd, List.length_nil] at lt
      omega
  | stop _ h => cases scanStep_spec h
  | @move s s' c n items h pos fits rest ih =>
      rintro ⟨m, level⟩ plain
      have more : c.ahead ≠ [] := List.length_pos_iff.mp (by omega)
      obtain ⟨found, eq, sound, next⟩ := (scanStep_spec h).visit more level
        fun _ item mem => plain item (mem_of_scan hfinish rest item mem) c level.leadsTo
      obtain ⟨visits, rfl, tail⟩ := ih next plain
      refine ⟨⟨c, n, found⟩ :: visits, ?_, ?_, ?_, ?_, ?_⟩
      · rw [eq]
        cases found <;> simp
      · intro v mem
        rcases List.mem_cons.mp mem with rfl | mem
        · exact sound
        · exact tail.sound v mem
      · intro v mem
        rcases List.mem_cons.mp mem with rfl | mem
        · exact Nat.le_refl _
        · have := tail.after v mem
          rw [advance_offset] at this
          omega
      · exact List.pairwise_cons.mpr ⟨tail.after, tail.order⟩
      · intro i le lt
        by_cases here : i < c.offset + n
        · exact ⟨⟨c, n, found⟩, List.mem_cons_self, le, here⟩
        · obtain ⟨v, mem, inside⟩ := tail.cover i (by rw [advance_offset]; omega)
            (by rw [advance_offset, advance_ahead, List.length_drop]; omega)
          exact ⟨v, List.mem_cons_of_mem _ mem, inside⟩

end Cursor

open Cursor

/-- No raw string opens in the name of a declaration of the text. -/
def Text.NamesPlain (t : Text) : Prop :=
  ∀ items, t.items = .ok items → ∀ item ∈ items,
    (t.cursor (item.bodyIndex - item.name.length)).PlainWord item.name

namespace Cursor

theorem plainlyNamed_of_namesPlain {t : Text} {items : List Item} (plain : t.NamesPlain)
    (h : t.items = .ok items) {item : Item} (mem : item ∈ items) {c : Cursor}
    (onward : (t.cursor 0).LeadsTo c) : c.PlainlyNamed item := by
  intro head place behind name after hitem
  obtain ⟨_, found⟩ := hitem.head
  have toName := ((onward.trans found.leadsTo).trans (leadsTo_identifier hitem.keyword).1).trans
    hitem.toName.leadsTo
  obtain ⟨_, eq⟩ := identifier?_eq_some hitem.name
  have := plain items h item mem
  rw [hitem.bodyIndex, eq, advance_offset, Nat.add_sub_cancel, ← cursor_of_leadsTo toName] at this
  exact this

/-- **The visits of the scan for declarations.** -/
theorem items_visits {t : Text} {items : List Item} (h : t.items = .ok items)
    (plain : t.NamesPlain) :
    ∃ visits, items = visits.filterMap (·.found) ∧ Visits (t.cursor 0) (t.cursor 0) visits := by
  have run := h
  rw [Text.items, Cursor.items, walk_ok_iff scanStep_steady] at run
  exact visits_of_scan (fun _ _ => rfl) run ⟨0, .start _⟩ fun item mem c onward =>
    plainlyNamed_of_namesPlain plain h mem onward

/-! ## §5. Attributes of a scan. -/

/-- An attribute in the prelude that is read at a visit. -/
structure Scanned (o : Cursor) (v : Visit) (a : Attribute) : Prop where
  prelude : ∃ attrs head, Prelude v.place attrs head ∧ head.offset ≤ v.stop ∧ a ∈ attrs
  bracketed : ∃ p m, Bracketed o p m a

theorem Scanned.bounds {v : Visit} {a : Attribute} (h : Scanned o v a) (sound : v.Sound o) :
    v.place.offset ≤ a.start ∧ a.start < a.stop ∧ a.stop ≤ v.stop := by
  obtain ⟨attrs, head, prelude, le, mem⟩ := h.prelude
  obtain ⟨m, level⟩ := sound.level
  obtain ⟨p, placed⟩ := (prelude.laid level.near).placed a mem
  have := placed.after
  have := placed.nonempty
  have := placed.before
  omega

/-- Two scanned attributes lie apart, or they are the same. -/
theorem Scanned.apart {visits : List Visit} (hv : Visits o o visits) {v w : Visit}
    (memv : v ∈ visits) (memw : w ∈ visits) {a b : Attribute} (ha : Scanned o v a)
    (hb : Scanned o w b) : a = b ∨ a.stop ≤ b.start ∨ b.stop ≤ a.start := by
  have bounds := ha.bounds (hv.sound v memv)
  have bounds' := hb.bounds (hv.sound w memw)
  rcases pairwise_cases hv.order memv memw with rfl | before | before
  · obtain ⟨attrs, head, prelude, _, mem⟩ := ha.prelude
    obtain ⟨attrs', head', prelude', _, mem'⟩ := hb.prelude
    obtain ⟨rfl, rfl⟩ := prelude.unique prelude'
    obtain ⟨m, level⟩ := (hv.sound v memv).level
    exact pairwise_cases (prelude.laid level.near).order mem mem'
  · exact .inr (.inl (by omega))
  · exact .inr (.inr (by omega))

/-- Each attribute of the reading is scanned, or it is inside a scanned one. -/
theorem Visits.scanned {x : Cursor} {visits : List Visit} (hv : Visits o o visits)
    (code : CodeAt o x '#' m) (sees : x.sees "#[" = true) :
    ∃ v ∈ visits, ∃ a, Scanned o v a ∧ a.start ≤ x.offset ∧ x.offset < a.stop := by
  have onward := code.level.leadsTo
  have total := onward.end_eq
  obtain ⟨rest, eq⟩ := List.head?_eq_some_iff.mp code.first
  rw [eq, List.length_cons] at total
  obtain ⟨v, mem, le, lt⟩ := hv.cover x.offset onward.offset_le (by omega)
  refine ⟨v, mem, ?_⟩
  rcases (hv.sound v mem).prelude with ⟨attrs, head, prelude, headLe, none⟩ | none
  · obtain ⟨k, level⟩ := (hv.sound v mem).level
    by_cases inHead : x.offset < head.offset
    · rcases (prelude.laid level.near).code code le inHead with blank | ⟨a, ha, ⟨p, hp⟩, inside⟩
      · cases blank
      · exact ⟨a, ⟨⟨attrs, head, prelude, headLe, ha⟩, p, k, hp⟩, inside⟩
    · rw [none code (by omega) lt] at sees
      cases sees
  · rw [none code le lt] at sees
    cases sees

end Cursor

end EnumExtract
