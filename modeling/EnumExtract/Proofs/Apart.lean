/-
  EnumExtract.Proofs.Apart
  ────────────────────────────────
  The attributes that belong to the generator lie apart.

  They are found by two readers that know nothing of each other: the scan
  reads the attributes of declarations, and the body of an enum is read again
  for the attributes of its variants.  Every attribute that the second one
  finds has been read by the first one too, at a place where no declaration
  follows.  So all of them are attributes of the one scan, and it remains that
  none of them is counted twice.

  Main results:
    • `apart_stop`               the end of a declaration is inside no attribute,
    • `variantAttribute_scanned` the attributes of variants are scanned,
    • `no_item_at_variant`       where a variant is, no declaration is,
    • `variants_of_one_enum`     an attribute is of a variant of one enum only.
-/
import EnumExtract.Proofs.Inside
import EnumExtract.Proofs.Ownership
import EnumExtract.Proofs.Scan

namespace EnumExtract

open Cursor

variable {t : Text} {items : List Item} {visits : List Visit} {item : Item} {v w : Visit}
  {m : Int} {a b : Attribute}

/-! ## §1. Declarations of a scan. -/

/-- The declaration `item` is found at the visit `v`, on the level `m`. -/
structure Located (t : Text) (visits : List Visit) (item : Item) (v : Visit) (m : Int) : Prop where
  mem : v ∈ visits
  found : v.found = some item
  start : item.start = v.place.offset
  bodyIndex : v.stop = item.bodyIndex
  level : Level (t.cursor 0) (t.cursor item.bodyIndex) m
  keyword : ∃ x ch, CodeAt (t.cursor 0) x ch m ∧ isWord ch = true ∧ v.place.offset ≤ x.offset
    ∧ x.offset < item.bodyIndex
  head : ∃ head place behind name after, ItemAt v.place item head place behind name after
    ∧ Level (t.cursor 0) head m ∧ head.offset ≤ v.stop

theorem exists_located (hv : Visits (t.cursor 0) (t.cursor 0) visits) (plain : t.NamesPlain)
    (h : t.items = .ok items) (eq : items = visits.filterMap (·.found)) (hmem : v ∈ visits)
    (found : v.found = some item) : ∃ m, Located t visits item v m := by
  have mem : item ∈ items := eq ▸ List.mem_filterMap.mpr ⟨v, hmem, found⟩
  have sound := hv.sound v hmem
  obtain ⟨m, level⟩ := sound.level
  obtain ⟨head, place, behind, name, after, hitem, stop⟩ := sound.item item found
  have named := plainlyNamed_of_namesPlain plain h mem level.leadsTo hitem
  obtain ⟨hhead, hplace, _, hafter, _⟩ := hitem.spec level named
  obtain ⟨_, hfound⟩ := hitem.head
  have toPlace := (hfound.visibility.leadsTo.trans hfound.toKeyword.leadsTo).offset_le
  have toBehind := (leadsTo_identifier hitem.keyword).2
  have toName := hitem.toName.leadsTo.offset_le
  have toAfter := (leadsTo_identifier hitem.name).2
  have toHead := hfound.prelude.leadsTo.offset_le
  have ends := hitem.bodyIndex
  refine ⟨m, hmem, found, hitem.start, stop, ?_, ?_, head, place, behind, name, after, hitem,
    hhead, by omega⟩
  · rw [hitem.bodyIndex, ← cursor_of_leadsTo hafter.leadsTo]
    exact hafter
  · obtain ⟨ch, first, word⟩ := isWord_of_identifier? hitem.keyword
    have plainKeyword := keyword_plain hitem.keyword
    have pos : 0 < item.kind.keyword.length := by cases item.kind <;> decide
    have noOpener := plainKeyword 0 pos
    rw [advance_zero] at noOpener
    exact ⟨place, ch, ⟨hplace, lexeme?_of_isWord first (.inl word) noOpener, first⟩, word,
      by omega, by omega⟩

/-- Declarations follow one another. -/
theorem items_ordered (hv : Visits (t.cursor 0) (t.cursor 0) visits) (plain : t.NamesPlain)
    (h : t.items = .ok items) (eq : items = visits.filterMap (·.found)) :
    items.Pairwise fun i j => ∃ v m w k, Located t visits i v m ∧ Located t visits j w k
      ∧ v.stop ≤ w.place.offset := by
  have order := hv.order.imp_of_mem (S := fun v w => v ∈ visits ∧ w ∈ visits ∧ v.stop ≤ w.place.offset)
    fun hv hw le => ⟨hv, hw, le⟩
  rw [eq]
  refine order.filterMap _ ?_
  rintro v w ⟨memv, memw, le⟩ i found j found'
  obtain ⟨m, loc⟩ := exists_located hv plain h eq memv found
  obtain ⟨k, loc'⟩ := exists_located hv plain h eq memw found'
  exact ⟨v, m, w, k, loc, loc', le⟩

/-- The end of a declaration is inside no scanned attribute. -/
theorem apart_stop {stop : Nat} (hv : Visits (t.cursor 0) (t.cursor 0) visits)
    (loc : Located t visits item v m) (extent : Extent (t.cursor 0) item.bodyIndex stop m)
    (memw : w ∈ visits) (ha : Scanned (t.cursor 0) w a) : a.stop ≤ stop ∨ stop ≤ a.start := by
  have bounds := ha.bounds (hv.sound w memw)
  obtain ⟨x, ch, k, hx, xstop, le, last⟩ := extent.last
  obtain ⟨p, m', hp⟩ := ha.bracketed
  have start := hp.start
  have ends := loc.bodyIndex
  by_cases before : a.start < item.bodyIndex
  · -- the visit that has read the attribute is over before the body begins
    refine .inl ?_
    have forward := v.le_stop
    rcases pairwise_cases hv.order loc.mem memw with rfl | order | order <;> omega
  · by_cases inside : a.start < stop ∧ stop < a.stop
    · obtain ⟨c, hc, cstop⟩ := extent.stop
      have notLast : x.offset ≠ p.offset := by
        intro same
        have same := hx.level.eq_of_offset hp.code.level same
        subst same
        have first := hx.first
        rw [hp.code.first] at first
        cases first
        rcases last with last | last <;> cases last
      have deeper := hp.deeper hc (by omega) (by omega)
      rcases extent.inside hp.code (by omega) (by omega) with blank | opens | closes | deep
      · cases blank
      · cases opens
      · cases closes
      · omega
    · omega

/-! ## §2. The pieces of an enum's body. -/

variable {enum : EnumDecl} {body close : Cursor} {pieces : List Piece}

theorem EnumDecl.Parts.encloses (parts : Parts t item enum body close pieces) {o : Cursor}
    (level : Level o (t.cursor item.bodyIndex) m) :
    Level o body m ∧ BlankCode o item.bodyIndex body.offset ∧ ∃ code, Encloses body code close := by
  obtain ⟨hbody, blank⟩ := parts.toBody.spec level.near
  obtain ⟨code, encloses⟩ := closing_ok_iff.mp parts.closing
  exact ⟨hbody, blank, code, encloses⟩

/-- The pieces of an enum's body lie in it, one level deeper. -/
theorem EnumDecl.Parts.sound (parts : Parts t item enum body close pieces) {o : Cursor}
    (level : Level o (t.cursor item.bodyIndex) m) :
    Piece.Apart pieces ∧ ∀ p ∈ pieces, p.Sound o (m + 1) (body.offset + 1) close.offset := by
  obtain ⟨hbody, _, code, encloses⟩ := parts.encloses level
  exact encloses.pieces_sound hbody parts.cut

/-! ## §3. Attributes of variants. -/

/-- The attribute `b` stands, in brackets, before a variant of the enum, one level deeper than
the enum. -/
structure OnVariant (t : Text) (item : Item) (enum : EnumDecl) (body close : Cursor)
    (pieces : List Piece) (m : Int) (b : Attribute) : Prop where
  parts : EnumDecl.Parts t item enum body close pieces
  piece : ∃ p ∈ pieces, ∃ attrs head, Prelude p.start attrs head ∧ b ∈ attrs
  bracketed : ∃ q, Bracketed (t.cursor 0) q (m + 1) b

theorem OnVariant.bounds (h : OnVariant t item enum body close pieces m b)
    (level : Level (t.cursor 0) (t.cursor item.bodyIndex) m) :
    item.bodyIndex ≤ body.offset ∧ body.offset < b.start ∧ b.start < b.stop
      ∧ b.stop ≤ close.offset := by
  obtain ⟨p, memp, attrs, head, prelude, mem⟩ := h.piece
  have sound := (h.parts.sound level).2 p memp
  obtain ⟨q, placed⟩ := (prelude.laid sound.level.near).placed b mem
  have le := sound.head_le prelude
  have := placed.after
  have := placed.nonempty
  have := placed.before
  have := sound.after
  have := sound.before
  exact ⟨h.parts.toBody.leadsTo.offset_le, by omega, by omega, by omega⟩

/-- **The attributes of variants are scanned**: the scan reads each of them where the reader of
the enum does. -/
theorem variantAttribute_scanned (hv : Visits (t.cursor 0) (t.cursor 0) visits)
    (loc : Located t visits item v m) (h : OnVariant t item enum body close pieces m b) :
    ∃ w ∈ visits, Scanned (t.cursor 0) w b := by
  obtain ⟨q, hq⟩ := h.bracketed
  obtain ⟨fromBody, afterBody, _, beforeClose⟩ := h.bounds loc.level
  have start := hq.start
  obtain ⟨w, memw, a, ha, le, lt⟩ := hv.scanned hq.code hq.sees
  obtain ⟨p, k, hp⟩ := ha.bracketed
  have start' := hp.start
  have bounds := ha.bounds (hv.sound w memw)
  refine ⟨w, memw, ?_⟩
  rcases Nat.lt_or_ge a.start b.start with before | same
  · exfalso
    have extent := h.parts.endsAt.extent loc.level
    have ends := loc.bodyIndex
    have forward := v.le_stop
    have stop := h.parts.stop
    have around : item.bodyIndex ≤ a.start := by
      rcases pairwise_cases hv.order loc.mem memw with rfl | order | order <;> omega
    have second : a.start + 1 < b.start := by
      -- the second character of an attribute is its bracket
      rcases Nat.lt_or_ge (a.start + 1) b.start with lt | ge
      · exact lt
      · obtain ⟨rest, eq⟩ := sees_iff.mp hp.sees
        have onward := hp.code.level.leadsTo.of_le hq.code.level.leadsTo (by omega)
        have first := hq.code.first
        rw [onward.eq_advance, advance_ahead, eq, show q.offset - p.offset = 1 from by omega] at first
        cases first
    have deeper := hp.deeper hq.code.level (by omega) (by omega)
    rcases extent.inside hp.code (by omega) (by omega) with blank | opens | closes | deep
    · cases blank
    · cases opens
    · cases closes
    · omega
  · have eq : p = q := hp.code.level.eq_of_offset hq.code.level (by omega)
    subst eq
    have read := hp.read
    rw [hq.read] at read
    cases read
    exact ha

/-- The attribute that a scan and a variant share has one prelude behind it. -/
theorem exists_shared_prelude {o c d head head' : Cursor} {attrs attrs' : List Attribute}
    (h : Prelude c attrs head) (h' : Prelude d attrs' head') (onward : o.LeadsTo c)
    (onward' : o.LeadsTo d) (mem : a ∈ attrs) (mem' : a ∈ attrs') : head = head' := by
  obtain ⟨before, after, rfl⟩ := List.append_of_mem mem
  obtain ⟨before', after', rfl⟩ := List.append_of_mem mem'
  obtain ⟨p, start, hp, rest⟩ := h.exists_of_append
  obtain ⟨p', start', hp', rest'⟩ := h'.exists_of_append
  have eq : p = p' := (onward.trans hp).eq_of_offset (onward'.trans hp') (by rw [← start, start'])
  subst eq
  exact (rest.unique rest').2

/-- **An attribute is of a variant of one enum only.** -/
theorem variants_of_one_enum {item' : Item} {enum' : EnumDecl} {body' close' : Cursor}
    {pieces' : List Piece} {m' : Int} (loc : Located t visits item v m)
    (loc' : Located t visits item' w m') (order : v.stop ≤ w.place.offset)
    (h : OnVariant t item enum body close pieces m b)
    (h' : OnVariant t item' enum' body' close' pieces' m' b) : False := by
  obtain ⟨q, hq⟩ := h.bracketed
  obtain ⟨q', hq'⟩ := h'.bracketed
  have start := hq.start
  have start' := hq'.start
  have eq : q = q' := hq.code.level.eq_of_offset hq'.code.level (by omega)
  subst eq
  have same := hq.code.level.unique hq'.code.level
  obtain ⟨fromBody, afterBody, _, beforeClose⟩ := h.bounds loc.level
  obtain ⟨fromBody', afterBody', _, _⟩ := h'.bounds loc'.level
  obtain ⟨x, ch, hx, word, le, lt⟩ := loc'.keyword
  have ends := loc.bodyIndex
  have stop := h.parts.stop
  rcases (h.parts.endsAt.extent loc.level).inside hx (by omega) (by omega)
    with blank | opens | closes | deep
  · rw [not_isBlank_of_isWord word] at blank
    cases blank
  · have weight := bracketWeight_of_isWord (.inl word)
    rw [bracketWeight, if_pos opens] at weight
    cases weight
  · have weight := bracketWeight_of_isWord (.inl word)
    rw [bracketWeight, closer?_of_isCloser closes, closes] at weight
    cases weight
  · omega

/-! ## §4. No declaration begins where a variant does. -/

section Ends

variable {o c d : Cursor} {p : Piece} {i j : Nat} {k : Int}

theorem not_sees_of_word {w : Text} {after : Cursor} {ch : Char}
    (h : c.identifier? = some (w, after)) (other : isWord ch = false) : c.sees [ch] = false := by
  obtain ⟨ch', first, word⟩ := isWord_of_identifier? h
  rw [Bool.eq_false_iff]
  intro sees
  rw [first_of_sees sees] at first
  cases first
  rw [other] at word
  cases word

/-- What follows the fields of a variant is no word. -/
theorem Piece.Sound.no_word (sound : p.Sound o m i j) {w : Text} {after : Cursor}
    (level : Level o c k) (h : c.identifier? = some (w, after)) (le : c.offset ≤ p.stop)
    (ends : c.offset < p.stop → c.sees "=" = true) : False := by
  have noEqual : c.sees "=" = false := not_sees_of_word h rfl
  rw [noEqual] at ends
  cases ends (Nat.lt_of_le_of_ne le (sound.not_word level h))

/-- What follows the name of a variant is no word. -/
theorem Piece.Sound.no_word_behind (sound : p.Sound o m i j) {w : Text} {after rest : Cursor}
    {fields : List Field} (level : Level o c k) (h : c.identifier? = some (w, after))
    (le : c.offset ≤ p.stop) (read : Variant.readFields c p.stop = .ok (fields, rest))
    (ends : rest.offset < p.stop → rest.sees "=" = true) : False := by
  have noParen : c.sees "(" = false := not_sees_of_word h rfl
  have noBrace : c.sees "\x7b" = false := not_sees_of_word h rfl
  rw [Variant.readFields, noParen, noBrace, Bool.or_false, Bool.and_false] at read
  cases read
  exact sound.no_word level h le ends

/-- **Where a variant is, no declaration is.** -/
theorem no_item_at_variant (sound : p.Sound o m i j) {variant : Variant} {attrs : List Attribute}
    {fields : List Field} {directives : Variant.Directives}
    {head behind place rest place' behind' name' after' : Cursor}
    (h : Variant.Parts t p variant attrs fields directives head behind place rest)
    (hitem : ItemAt c item head place' behind' name' after') : False := by
  have hhead := (h.prelude.laid sound.level.near).level
  have le := sound.head_le h.prelude
  obtain ⟨behindVisibility, found⟩ := hitem.head
  have toKeyword := found.toKeyword
  have visibility := found.visibility
  clear found
  generalize item.visibility = written at visibility
  cases visibility with
  | none _ =>
      -- the variant's name is the keyword
      have stop : head.trivium? false = .ok none := by
        obtain ⟨ch, first, word⟩ := isWord_of_identifier? h.name
        obtain ⟨rest, eq⟩ := List.head?_eq_some_iff.mp first
        rw [trivium?, eq]
        simp only [not_isBlank_of_isWord word, Bool.false_eq_true, if_false, Bool.false_and]
        refine comment?_eq_none_of_ne ?_
        rw [first]
        intro same
        cases same
        cases word
      have same := toKeyword.eq_of_stop stop
      subst same
      have keyword := hitem.keyword
      rw [h.name] at keyword
      obtain rfl : behind = behind' := congrArg Prod.snd (Option.some.inj keyword)
      have hbehind := hhead.identifier hitem.keyword (keyword_plain hitem.keyword)
      have behindLe := sound.identifier_le hhead.leadsTo hitem.keyword le
      have eq := h.toFields.unique hitem.toName
      subst eq
      have hplace := (h.toFields.spec hbehind.near).1
      exact sound.no_word_behind hplace hitem.name (sound.trivia_le hbehind h.toFields behindLe)
        h.read h.ends
  | bare pub toScope noScope =>
      -- the variant's name is the visibility
      have same := h.name
      rw [pub] at same
      obtain rfl : behindVisibility = behind := congrArg Prod.snd (Option.some.inj same)
      have plain := pub_plain pub
      have hbehind := hhead.identifier pub plain
      have behindLe := sound.identifier_le hhead.leadsTo pub le
      have eq := h.toFields.unique toKeyword
      subst eq
      have hplace := (h.toFields.spec hbehind.near).1
      exact sound.no_word_behind hplace hitem.keyword (sound.trivia_le hbehind h.toFields behindLe)
        h.read h.ends
  | @within behindPub scope n pub toScope hscope =>
      -- the variant's name is the visibility, and its fields are the scope
      have same := h.name
      rw [pub] at same
      obtain rfl : behindPub = behind := congrArg Prod.snd (Option.some.inj same)
      have plain := pub_plain pub
      have hbehind := hhead.identifier pub plain
      have behindLe := sound.identifier_le hhead.leadsTo pub le
      have eq := h.toFields.unique toScope
      subst eq
      have hplace := (h.toFields.spec hbehind.near).1
      have placeLe := sound.trivia_le hbehind h.toFields behindLe
      obtain ⟨close, code, encloses, next, _⟩ := exists_encloses_scope hscope
      have sees : place.sees "(" = true := by
        obtain ⟨inner, rest, eq, _⟩ := scopeLength?_some hscope
        rw [sees_iff]
        exact ⟨_, eq⟩
      have placeLt := sound.lt_of_opens hplace (first_of_sees sees) rfl placeLe
      have closeLt := sound.closing_lt hplace encloses placeLt
      have read := h.read
      rw [Variant.readFields, sees, Bool.true_or, Bool.and_true, if_pos (by simpa using placeLt)] at read
      obtain ⟨close', hclose', read⟩ := bind_ok_iff.mp read
      rw [closing_ok_iff.mpr ⟨code, encloses⟩] at hclose'
      cases hclose'
      obtain ⟨_, _, read⟩ := bind_ok_iff.mp read
      obtain ⟨rest', toRest, read⟩ := bind_ok_iff.mp read
      cases read
      rw [skipTrivia_ok_iff, next] at toRest
      have eq := toRest.unique toKeyword
      subst eq
      have behindScope := encloses.level_after hplace
      rw [next] at behindScope
      have restLe := sound.trivia_le behindScope toRest (by rw [← next, advance_offset]; omega)
      exact sound.no_word (toRest.spec behindScope.near).1 hitem.keyword restLe h.ends

end Ends

/-! ## §5. The attributes written with a declaration. -/

/-- The attribute is written with the declaration, in brackets: on it, or on a variant of it. -/
inductive Owns (t : Text) (item : Item) (a : Attribute) : Prop where
  | onItem (mem : a ∈ item.attrs) (noDoc : a.path ≠ "doc")
  | onVariant {enum : EnumDecl} {body close : Cursor} {pieces : List Piece}
      (parts : EnumDecl.Parts t item enum body close pieces)
      (piece : ∃ p ∈ pieces, ∃ attrs head, Prelude p.start attrs head ∧ a ∈ attrs)
      (noDoc : a.path ≠ "doc")

/-- An attribute of a prelude that is no doc comment stands in brackets. -/
theorem Cursor.Laid.bracketed {o c head : Cursor} {attrs : List Attribute}
    (laid : Laid o c attrs head m) (mem : a ∈ attrs) (noDoc : a.path ≠ "doc") :
    ∃ q, Bracketed o q m a := by
  obtain ⟨q, placed⟩ := laid.placed a mem
  rcases placed.kind with doc | bracketed
  · obtain ⟨n, _, rfl⟩ := doc.exists_lexeme
    exact absurd rfl noDoc
  · exact ⟨q, bracketed⟩

/-- Attributes in order are different attributes. -/
theorem nodup_of_ordered {attrs : List Attribute} (order : attrs.Pairwise fun a b => a.stop ≤ b.start)
    (nonempty : ∀ a ∈ attrs, a.start < a.stop) : attrs.Nodup := by
  refine order.imp_of_mem fun {a b} ha hb le => ?_
  rintro rfl
  have := nonempty a ha
  omega

theorem Located.laid (hv : Visits (t.cursor 0) (t.cursor 0) visits)
    (loc : Located t visits item v m) :
    ∃ head k, Prelude v.place item.attrs head ∧ head.offset ≤ v.stop
      ∧ Laid (t.cursor 0) v.place item.attrs head k := by
  obtain ⟨head, place, behind, name, after, hitem, _, le⟩ := loc.head
  obtain ⟨_, found⟩ := hitem.head
  obtain ⟨k, level⟩ := (hv.sound v loc.mem).level
  exact ⟨head, k, found.prelude, le, found.prelude.laid level.near⟩

theorem Located.nodup (hv : Visits (t.cursor 0) (t.cursor 0) visits)
    (loc : Located t visits item v m) : item.attrs.Nodup := by
  obtain ⟨head, k, _, _, laid⟩ := loc.laid hv
  refine nodup_of_ordered laid.order fun a mem => ?_
  obtain ⟨_, placed⟩ := laid.placed a mem
  exact placed.nonempty

/-- An attribute on a declaration is scanned where the declaration is found. -/
theorem Located.scanned (hv : Visits (t.cursor 0) (t.cursor 0) visits)
    (loc : Located t visits item v m) (mem : a ∈ item.attrs) (noDoc : a.path ≠ "doc") :
    Scanned (t.cursor 0) v a := by
  obtain ⟨head, k, prelude, le, laid⟩ := loc.laid hv
  obtain ⟨q, hq⟩ := laid.bracketed mem noDoc
  exact ⟨⟨item.attrs, head, prelude, le, mem⟩, q, k, hq⟩

theorem onVariant_of_parts (parts : EnumDecl.Parts t item enum body close pieces)
    (level : Level (t.cursor 0) (t.cursor item.bodyIndex) m)
    (piece : ∃ p ∈ pieces, ∃ attrs head, Prelude p.start attrs head ∧ a ∈ attrs)
    (noDoc : a.path ≠ "doc") : OnVariant t item enum body close pieces m a := by
  obtain ⟨p, memp, attrs, head, prelude, mem⟩ := piece
  have sound := (parts.sound level).2 p memp
  exact ⟨parts, ⟨p, memp, attrs, head, prelude, mem⟩,
    (prelude.laid sound.level.near).bracketed mem noDoc⟩

/-- **What is written with a declaration is scanned.** -/
theorem Owns.scanned (hv : Visits (t.cursor 0) (t.cursor 0) visits)
    (loc : Located t visits item v m) (h : Owns t item a) :
    ∃ w ∈ visits, Scanned (t.cursor 0) w a := by
  cases h with
  | onItem mem noDoc => exact ⟨v, loc.mem, loc.scanned hv mem noDoc⟩
  | onVariant parts piece noDoc =>
      exact variantAttribute_scanned hv loc (onVariant_of_parts parts loc.level piece noDoc)

/-- An attribute on a declaration is on no variant. -/
theorem onItem_ne_onVariant (hv : Visits (t.cursor 0) (t.cursor 0) visits)
    (loc : Located t visits item v m) {item' : Item} {v' : Visit} {m' : Int}
    (loc' : Located t visits item' v' m') (mem : a ∈ item.attrs)
    (parts : EnumDecl.Parts t item' enum body close pieces)
    (piece : ∃ p ∈ pieces, ∃ attrs head, Prelude p.start attrs head ∧ b ∈ attrs) : a ≠ b := by
  rintro rfl
  obtain ⟨p, memp, attrs, head, prelude, mem'⟩ := piece
  obtain ⟨head', place, behind, name, after, hitem, _, _⟩ := loc.head
  obtain ⟨_, found⟩ := hitem.head
  obtain ⟨_, level⟩ := (hv.sound v loc.mem).level
  have sound := (parts.sound loc'.level).2 p memp
  have same := exists_shared_prelude prelude found.prelude sound.level.leadsTo level.leadsTo mem' mem
  obtain ⟨all, _⟩ := Variant.readAll_ok_iff.mp parts.variants
  obtain ⟨variant, _, hvariant⟩ := exists_of_forall₂_left all memp
  obtain ⟨attrs', fields, d, head'', behind', place', rest, hparts⟩ :=
    Variant.read_ok_iff.mp hvariant
  obtain ⟨_, rfl⟩ := prelude.unique hparts.prelude
  subst same
  exact no_item_at_variant sound hparts hitem

/-- **No attribute is written with two declarations.** -/
theorem Owns.ne (hv : Visits (t.cursor 0) (t.cursor 0) visits) {item' : Item} {v' : Visit} {m' : Int}
    (loc : Located t visits item v m) (loc' : Located t visits item' v' m')
    (order : v.stop ≤ v'.place.offset) (h : Owns t item a) (h' : Owns t item' b) : a ≠ b := by
  cases h with
  | onItem mem noDoc =>
      cases h' with
      | onItem mem' noDoc' =>
          rintro rfl
          have bounds := (loc.scanned hv mem noDoc).bounds (hv.sound v loc.mem)
          have bounds' := (loc'.scanned hv mem' noDoc').bounds (hv.sound v' loc'.mem)
          omega
      | onVariant parts piece _ => exact onItem_ne_onVariant hv loc loc' mem parts piece
  | onVariant parts piece noDoc =>
      cases h' with
      | onItem mem' _ => exact (onItem_ne_onVariant hv loc' loc mem' parts piece).symm
      | onVariant parts' piece' noDoc' =>
          rintro rfl
          exact variants_of_one_enum loc loc' order (onVariant_of_parts parts loc.level piece noDoc)
            (onVariant_of_parts parts' loc'.level piece' noDoc')

/-- The attributes of the pieces of a list follow one another. -/
theorem preludes_ordered {o : Cursor} {i j : Nat} {pieces : List Piece}
    {preludes : List (List Attribute × Cursor)} (apart : Piece.Apart pieces)
    (sound : ∀ p ∈ pieces, p.Sound o m i j)
    (h : List.Forall₂ (fun p x => Prelude p.start x.1 x.2) pieces preludes) :
    (preludes.flatMap (·.1)).Pairwise (fun a b => a.stop ≤ b.start)
      ∧ ∀ a ∈ preludes.flatMap (·.1), a.start < a.stop ∧ ∃ p ∈ pieces, p.start.offset ≤ a.start := by
  induction h with
  | nil => exact ⟨.nil, nofun⟩
  | @cons p x pieces preludes hp _ ih =>
      rw [Piece.Apart, List.pairwise_cons] at apart
      obtain ⟨order, bounds⟩ := ih apart.2 fun q mem => sound q (List.mem_cons_of_mem p mem)
      have here := sound p List.mem_cons_self
      have laid := hp.laid here.level.near
      have le := here.head_le hp
      rw [List.flatMap_cons]
      constructor
      · rw [List.pairwise_append]
        refine ⟨laid.order, order, fun a ha b hb => ?_⟩
        obtain ⟨_, placed⟩ := laid.placed a ha
        obtain ⟨_, q, memq, after⟩ := bounds b hb
        have := apart.1 q memq
        have := placed.before
        omega
      · intro a mem
        rcases List.mem_append.mp mem with mem | mem
        · obtain ⟨_, placed⟩ := laid.placed a mem
          exact ⟨placed.nonempty, p, List.mem_cons_self, placed.after⟩
        · obtain ⟨nonempty, q, memq, after⟩ := bounds a mem
          exact ⟨nonempty, q, List.mem_cons_of_mem p memq, after⟩

end EnumExtract
