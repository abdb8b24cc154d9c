/-
  EnumExtract.Proofs.Likeness
  ────────────────────────────────
  The same variant in two sources.

  A piece that has grown from another holds what the other holds, and then
  nothing or an equals sign.  The variant that is read of it is like the one
  read of the other: they differ in their places only.

  Main results:
    • `Attribute.Twin.listedAttrs`   the same attributes are listed,
    • `Directives.like_of_fold`      the same directives are found,
    • `Variant.Parts.plain`          the name of a variant opens no raw string,
    • `Piece.Grown.read`             the variants of two pieces are alike.
-/
import EnumExtract.Proofs.Fields
import EnumExtract.Proofs.Variants

namespace EnumExtract

open Cursor

variable {source source' : Text} {e e' : Nat} {o c c' d x x' head : Cursor} {a a' : Attribute}
  {m k : Int} {i j : Nat} {p p' : Piece}

/-! ## §1. Directives. -/

/-- The metadata of an attribute goes by its path, its text and the text of its arguments. -/
theorem Metadata.ofAttribute_congr (path : a'.path = a.path) (text : a'.text = a.text)
    (args : a'.args.map (·.text) = a.args.map (·.text)) : ofAttribute a' = ofAttribute a := by
  unfold ofAttribute
  rw [path, text]
  cases ha : a.args with
  | none =>
      rw [ha] at args
      rw [Option.map_eq_none_iff.mp args]
  | some x =>
      rw [ha] at args
      obtain ⟨x', ha', same⟩ := Option.map_eq_some_iff.mp args
      rw [ha']
      simp only [same]

theorem Metadata.mapM_ofAttribute_congr {attrs attrs' : List Attribute}
    (h : List.Forall₂ (fun a a' => ofAttribute a' = ofAttribute a) attrs attrs') :
    attrs'.mapM ofAttribute = attrs.mapM ofAttribute := by
  induction h with
  | nil => rfl
  | cons here _ ih => rw [List.mapM_cons, List.mapM_cons, here, ih]

/-- Attributes that stand at corresponding places are the same metadata. -/
theorem Attribute.Twin.metadata (h : a.Twin e e' c c' a') :
    Metadata.ofAttribute a' = Metadata.ofAttribute a := by
  refine Metadata.ofAttribute_congr h.path h.text ?_
  rcases h.args with ⟨none, none'⟩ | ⟨x, x', stop, _, _, _, _, _, some, some'⟩
  · rw [none, none']
  · rw [some, some']
    rfl

/-- **The same attributes** are listed in corresponding `#[variant_attrs(…)]`. -/
theorem Attribute.Twin.listedAttrs {entries : List Metadata} (h : a.Twin e e' c c' a')
    (onward : (source.cursor 0).LeadsTo c) (onward' : (source'.cursor 0).LeadsTo c')
    (hl : Variant.Directives.listedAttrs source a = .ok entries) :
    Variant.Directives.listedAttrs source' a' = .ok entries := by
  unfold Variant.Directives.listedAttrs at hl ⊢
  rcases h.args with ⟨none, _⟩ | ⟨x, x', stop, hx, hx', agree, sound, lt, some, some'⟩
  · rw [none] at hl
    cases hl
  · rw [some] at hl
    rw [some']
    simp only at hl ⊢
    rw [← cursor_of_leadsTo (onward.trans hx)] at hl
    rw [← cursor_of_leadsTo (onward'.trans hx')]
    obtain ⟨⟨inner, place⟩, prelude, hl⟩ := bind_ok_iff.mp hl
    obtain ⟨y, toEnd, hl⟩ := bind_ok_iff.mp hl
    rw [readPrelude_ok_iff] at prelude
    rw [skipTrivia_ok_iff] at toEnd
    split at hl
    next => cases hl
    next atEnd =>
      have level := (prelude.laid sound.level.near).level
      have placeLe := sound.head_le prelude
      have endLe := sound.trivia_le level toEnd placeLe
      have long : (x.upTo stop).length = stop - x.offset := by
        obtain ⟨z, _, same, hz, _⟩ := sound.ended
        simp only at same
        rw [← same]
        exact hz.level.leadsTo.length_upTo
      have forward : x.offset ≤ stop := sound.forward
      simp only at placeLe endLe
      obtain ⟨inner', place', prelude', agreePlace, twins⟩ := agree.prelude prelude (by omega)
      obtain ⟨y', agreeEnd, toEnd'⟩ := agreePlace.trivia toEnd (by omega)
      have hy := agreeEnd.place
      have hx := agree.place
      refine bind_ok_iff.mpr ⟨_, readPrelude_ok_iff.mpr prelude', ?_⟩
      refine bind_ok_iff.mpr ⟨_, skipTrivia_ok_iff.mpr toEnd', ?_⟩
      rw [if_neg (by omega), Metadata.mapM_ofAttribute_congr (twins.imp fun _ _ twin => twin.metadata)]
      exact hl

namespace Variant.Directives

/-- The same directives, perhaps at other places. -/
structure Like (d d' : Directives) : Prop where
  metadata : d'.metadata = d.metadata
  excluded : d'.excluded = d.excluded
  listed : d'.listed = d.listed

theorem Adds.like {d d' d₁ : Directives} (h : Adds source d a d₁) (twin : a.Twin e e' c c' a')
    (onward : (source.cursor 0).LeadsTo c) (onward' : (source'.cursor 0).LeadsTo c')
    (like : d.Like d') : ∃ d₁', Adds source' d' a' d₁' ∧ d₁.Like d₁' := by
  have path := twin.path
  cases h with
  | exclude here => exact ⟨_, .exclude (path.trans here), like.metadata, rfl, like.listed⟩
  | @listed entries here first h =>
      refine ⟨_, .listed (path.trans here) (like.listed.trans first)
        (twin.listedAttrs onward onward' h), ?_, like.excluded, rfl⟩
      show d'.metadata ++ entries = _
      rw [like.metadata]
  | @doc entry here h =>
      refine ⟨_, .doc (path.trans here) (twin.metadata.trans h), ?_, like.excluded, like.listed⟩
      show d'.metadata ++ [entry] = _
      rw [like.metadata]
  | other noDirective noDoc =>
      exact ⟨_, .other (by rw [path]; exact noDirective) (by rw [path]; exact noDoc), like⟩

/-- **The same directives** are found among corresponding attributes. -/
theorem like_of_fold {attrs attrs' : List Attribute}
    (h : List.Forall₂ (Attribute.Twin e e' c c') attrs attrs')
    (onward : (source.cursor 0).LeadsTo c) (onward' : (source'.cursor 0).LeadsTo c') :
    ∀ {d d' r : Directives}, d.Like d' → attrs.foldlM (add source) d = .ok r →
      ∃ r', attrs'.foldlM (add source') d' = .ok r' ∧ r.Like r' := by
  induction h with
  | nil =>
      intro d d' r like hr
      cases hr
      exact ⟨d', rfl, like⟩
  | cons here _ ih =>
      intro d d' r like hr
      rw [List.foldlM_cons] at hr
      obtain ⟨d₁, hadd, hr⟩ := bind_ok_iff.mp hr
      obtain ⟨d₁', hadd', like₁⟩ := (add_ok_iff.mp hadd).like here onward onward' like
      obtain ⟨r', hr', like'⟩ := ih like₁ hr
      exact ⟨r', by rw [List.foldlM_cons]; exact bind_ok_iff.mpr ⟨_, add_ok_iff.mpr hadd', hr'⟩, like'⟩

end Variant.Directives

/-! ## §2. The name of a variant. -/

/-- Where no bracket of a field list opens, no fields are read. -/
theorem Variant.readFields_eq_nil {stop : Nat}
    (h : c.offset < stop → c.sees "(" = false ∧ c.sees "\x7b" = false) :
    readFields c stop = .ok ([], c) := by
  unfold readFields
  rw [if_neg fun both => ?_]
  · rfl
  · rw [Bool.and_eq_true, decide_eq_true_iff, Bool.or_eq_true] at both
    have neither := h both.1
    rcases both.2 with paren | brace
    · rw [neither.1] at paren
      cases paren
    · rw [neither.2] at brace
      cases brace

theorem sees_of_first {ch : Char} (first : c.ahead.head? = some ch) (other : Char) :
    c.sees [other] = (other == ch) := by
  obtain ⟨tail, eq⟩ := List.head?_eq_some_iff.mp first
  unfold sees Text.startsWith
  rw [eq, List.isPrefixOf, List.isPrefixOf, Bool.and_true]

/-- **The name of a variant opens no raw string**: behind a raw identifier that does, neither a
field list nor the end of the piece follows. -/
theorem Variant.Parts.plain {v : Variant} {attrs : List Attribute} {fields : List Field}
    {ds : Directives} {behind place rest : Cursor} (sound : p.Sound o m i j)
    (h : Parts source p v attrs fields ds head behind place rest) : head.PlainWord v.name := by
  have level := (h.prelude.laid sound.level.near).level
  have le := sound.identifier_le level.leadsTo h.name (sound.head_le h.prelude)
  obtain ⟨hw, behindEq⟩ := identifier?_eq_some h.name
  obtain ⟨tail, eq, isIdentifier, stop⟩ := Text.identifier?_some hw
  have ahead : behind.ahead = tail := by
    rw [behindEq, advance_ahead, eq, List.drop_left]
  obtain ⟨x, ch, xStop, hx, ends⟩ := sound.ended
  have onward : behind.LeadsTo x :=
    (level.leadsTo.trans (leadsTo_identifier h.name).1).of_le hx.level.leadsTo (by omega)
  -- a character follows the name, for the piece is ended by one
  cases tail with
  | nil =>
      have atEnd := onward.end_eq
      have forward := onward.offset_le
      rw [ahead, List.length_nil] at atEnd
      have none : x.ahead = [] := List.length_eq_zero_iff.mp (by omega)
      have first := hx.first
      rw [none] at first
      cases first
  | cons f tail =>
      refine plainWord_of_stop isIdentifier eq ?_
      have first : behind.ahead.head? = some f := by
        rw [ahead]
        rfl
      by_cases opens : f = '#' ∨ f = '"'
      · exfalso
        -- such a character is no trivia, opens no field list, and ends no piece
        have same : place = behind := by
          rcases h.toFields.first with same | ⟨ch', first', blank⟩
          · exact same
          · rw [first] at first'
            cases first'
            rcases opens with rfl | rfl <;> rcases blank with blank | blank <;> cases blank
        subst same
        have sees (other : Char) (ne : other ≠ f) : place.sees [other] = false := by
          rw [sees_of_first first]
          exact beq_eq_false_iff_ne.mpr ne
        have read := h.read
        rw [readFields_eq_nil fun _ => ⟨sees '(' (by rintro rfl; simp at opens),
          sees '{' (by rintro rfl; simp at opens)⟩] at read
        cases read
        have before : ¬ place.offset < p.stop := by
          intro lt
          have equals := h.ends lt
          rw [show ("=" : Text) = ['='] from rfl, sees '=' (by rintro rfl; simp at opens)] at equals
          cases equals
        have eq := onward.eq_advance
        rw [show x.offset - place.offset = 0 from by omega, advance_zero] at eq
        subst eq
        rw [hx.first] at first
        cases first
        rcases ends with rfl | closes
        · simp at opens
        · rcases opens with rfl | rfl <;> cases closes
      · have word := stop f rfl
        refine ⟨fun same => opens (.inl same), fun same => opens (.inr same), ?_, ?_⟩
        · rintro rfl
          cases word
        · rintro rfl
          cases word

/-! ## §3. Trivia at the end of a piece. -/

/-- From offset `e` on, nothing but trivia is in the piece. -/
def Piece.Trails (o : Cursor) (m : Int) (p : Piece) (e : Nat) : Prop :=
  ∃ x y, Level o x m ∧ x.offset = e ∧ Trivia false x y ∧ y.offset = p.stop

theorem Piece.Trails.le (h : p.Trails o m e) : e ≤ p.stop := by
  obtain ⟨x, y, _, rfl, trivia, stop⟩ := h
  rw [← stop]
  exact trivia.leadsTo.offset_le

/-- Nothing but trivia begins behind the content of a piece. -/
theorem Piece.Trails.trivium (h : p.Trails o m e) (hc : Level o c k) (le : e ≤ c.offset)
    (lt : c.offset < p.stop) : ∃ n, c.trivium? false = .ok (some n) := by
  obtain ⟨x, y, level, rfl, trivia, stop⟩ := h
  exact trivia.trivium_of_level level hc le (by omega)

/-- A word that begins in a piece begins before the trivia at its end. -/
theorem Piece.Trails.word_lt (h : p.Trails o m e) (sound : p.Sound o m i j) {w : Text} {after : Cursor}
    (level : Level o c k) (hw : c.identifier? = some (w, after)) (le : c.offset ≤ p.stop) :
    c.offset < e := by
  have ne := sound.not_word level hw
  rcases Nat.lt_or_ge c.offset e with lt | ge
  · exact lt
  · exfalso
    obtain ⟨n, trivium⟩ := h.trivium level ge (by omega)
    obtain ⟨ch, first, word⟩ := isWord_of_identifier? hw
    have stop : c.trivium? false = .ok none := by
      refine trivium?_of_first first (not_isBlank_of_isWord word) ?_
      rintro rfl
      cases word
    rw [stop] at trivium
    cases trivium

/-- An identifier in a piece ends before the trivia at its end. -/
theorem Piece.Trails.identifier_le (h : p.Trails o m e) (sound : p.Sound o m i j) {w : Text}
    {after : Cursor} (level : Level o c k) (hw : c.identifier? = some (w, after))
    (le : c.offset ≤ p.stop) : after.offset ≤ e := by
  have start := h.word_lt sound level hw le
  have bound := sound.identifier_le level.leadsTo hw le
  obtain ⟨x, y, hx, rfl, trivia, stop⟩ := h
  rcases trivia.first with rfl | ⟨ch, first, blank⟩
  · omega
  · rcases Nat.lt_or_ge x.offset after.offset with past | ok
    · exfalso
      obtain ⟨hw', rfl⟩ := identifier?_eq_some hw
      obtain ⟨rest, eq, isIdentifier, _⟩ := Text.identifier?_some hw'
      have there := (level.leadsTo.of_le hx.leadsTo (by omega)).eq_advance
      rw [advance_offset] at past
      rw [there, advance_ahead, eq, List.head?_drop, List.getElem?_append_left (by omega)] at first
      rcases isIdentifier.isWord ch (List.mem_of_getElem? first) with word | rfl
      · rcases blank with blank | rfl
        · rw [not_isBlank_of_isWord word] at blank
          cases blank
        · cases word
      · rcases blank with blank | blank <;> cases blank
    · exact ok

/-- A bracket on the level of a piece closes before the trivia at its end. -/
theorem Piece.Trails.closing_lt (h : p.Trails o m e) (sound : p.Sound o m i j) (level : Level o c m)
    {code : List (Cursor × Char)} (encloses : Encloses c code d) (lt : c.offset < p.stop) :
    d.offset < e := by
  have bound := sound.closing_lt level encloses lt
  rcases Nat.lt_or_ge d.offset e with ok | past
  · exact ok
  · exfalso
    obtain ⟨n, trivium⟩ := h.trivium (encloses.level_closer level) past bound
    obtain ⟨opener, closer, _, pair, last⟩ := encloses.closes
    have closes := (isCloser_of_closer? pair).1
    have stop : d.trivium? false = .ok none := by
      refine trivium?_of_first last (isBracket_not_blank (.inr closes)) ?_
      rintro rfl
      cases closes
    rw [stop] at trivium
    cases trivium

/-! ## §4. Pieces that have grown. -/

/-- The piece `p'` has grown from `p`: it begins with the text of `p` up to offset `e`, behind
which `p` holds only trivia, and then, behind trivia, it is over or goes on with an equals sign. -/
structure Piece.Grown (o : Cursor) (m : Int) (e e' : Nat) (p p' : Piece) : Prop where
  start : Agree e e' p.start p'.start
  trails : p.Trails o m e
  within : e' ≤ p'.stop
  behind : ∃ x' y', p'.start.LeadsTo x' ∧ x'.offset = e' ∧ Trivia false x' y'
    ∧ (p'.stop ≤ y'.offset ∨ y'.sees "=" = true)

/-- Trivia of a piece lead to a place of the grown piece as well. -/
theorem Piece.Grown.landing (h : p.Grown o m e e' p') (agree : Agree e e' x x')
    (onward : p'.start.LeadsTo x') (level : Level o x k) (ht : Trivia false x d) :
    ∃ d', Trivia false x' d' ∧ ((d.offset < e ∧ Agree e e' d d')
      ∨ (e ≤ d.offset ∧ (p'.stop ≤ d'.offset ∨ d'.sees "=" = true))) := by
  have le := agree.le
  rcases Nat.lt_or_ge d.offset e with lt | ge
  · obtain ⟨d', agreeEnd, ht'⟩ := agree.trivia ht lt
    exact ⟨d', ht', .inl ⟨lt, agreeEnd⟩⟩
  · obtain ⟨z, _, hz, zStop, _⟩ := h.trails
    obtain ⟨z', agreeEnd, onward', further⟩ :=
      agree.trivia_by ht level hz (by omega) (by omega) (by omega)
    obtain ⟨x₁, y', toEnd, atEnd, trivia, ends⟩ := h.behind
    have place := agreeEnd.place
    have same : z' = x₁ := (onward.trans onward').eq_of_offset toEnd (by omega)
    rw [← same] at trivia
    exact ⟨y', further y' trivia, .inr ⟨ge, ends⟩⟩

namespace Variant

/-- A list of fields that has a shape has it at every place. -/
theorem classify_ok {fields : List Field} {shape : Shape} {index : Nat} (index' : Nat)
    (h : Shape.classify fields index = .ok shape) : Shape.classify fields index' = .ok shape := by
  unfold Shape.classify at h ⊢
  split at h
  next none =>
    rw [if_pos none]
    exact h
  next some =>
    rw [if_neg some]
    split at h
    next named =>
      rw [if_pos named]
      exact h
    next mixed =>
      rw [if_neg mixed]
      split at h
      next unnamed =>
        rw [if_pos unnamed]
        exact h
      next => cases h

/-- The same variant, perhaps at another place. -/
structure Like (v v' : Variant) : Prop where
  name : v'.name = v.name
  shape : v'.shape = v.shape
  metadata : v'.metadata = v.metadata
  excluded : v'.excluded = v.excluded

end Variant

/-- What is behind the fields of a grown piece. -/
theorem Piece.Grown.ends (h : p.Grown o m e e' p') {rest rest' : Cursor}
    (ends : rest.offset < p.stop → rest.sees "=" = true)
    (landed : (rest.offset < e ∧ Agree e e' rest rest')
      ∨ (e ≤ rest.offset ∧ (p'.stop ≤ rest'.offset ∨ rest'.sees "=" = true))) :
    rest'.offset < p'.stop → rest'.sees "=" = true := by
  intro lt
  have le := h.trails.le
  rcases landed with ⟨inside, agree⟩ | ⟨_, beyond | equals⟩
  · rw [agree.sees (by show rest.offset + 1 ≤ e; omega)]
    exact ends (by omega)
  · omega
  · exact equals

/-- **The same fields** are read in a grown piece. -/
theorem Piece.Grown.readFields (h : p.Grown o m e e' p') (sound : p.Sound o m i j)
    {place place' rest : Cursor} {fields : List Field} (level : Level o place m)
    (onward : p'.start.LeadsTo place')
    (landed : (place.offset < e ∧ Agree e e' place place')
      ∨ (e ≤ place.offset ∧ (p'.stop ≤ place'.offset ∨ place'.sees "=" = true)))
    (read : Variant.readFields place p.stop = .ok (fields, rest))
    (ends : rest.offset < p.stop → rest.sees "=" = true) :
    ∃ rest', Variant.readFields place' p'.stop = .ok (fields, rest')
      ∧ (rest'.offset < p'.stop → rest'.sees "=" = true) := by
  by_cases opens : place.offset < p.stop ∧ (place.sees "(" = true ∨ place.sees "\x7b" = true)
  · unfold Variant.readFields at read ⊢
    rw [if_pos (by simpa using opens)] at read
    obtain ⟨close, hclose, read⟩ := bind_ok_iff.mp read
    obtain ⟨read', hfields, read⟩ := bind_ok_iff.mp read
    obtain ⟨rest', toRest, read⟩ := bind_ok_iff.mp read
    cases read
    obtain ⟨code, encloses⟩ := closing_ok_iff.mp hclose
    have closeLt := h.trails.closing_lt sound level encloses opens.1
    have forward := encloses.lt
    have agree : Agree e e' place place' := by
      rcases landed with ⟨_, agree⟩ | ⟨beyond, _⟩
      · exact agree
      · omega
    have hplace := agree.place
    have within := h.within
    have sees (w : Text) (one : w.length = 1) : place'.sees w = place.sees w :=
      agree.sees (by omega)
    rw [sees "(" rfl, sees "\x7b" rfl, if_pos (by
      rw [Bool.and_eq_true, decide_eq_true_iff, Bool.or_eq_true]
      exact ⟨by omega, opens.2⟩)]
    obtain ⟨close', hclose', agreeClose⟩ := agree.closing hclose closeLt
    have closePlace := agreeClose.place
    have hfields' := agree.fields encloses closeLt (by omega) hfields
    have agreeBehind := agreeClose.advance (k := 1) (by omega)
    obtain ⟨code', encloses'⟩ := closing_ok_iff.mp hclose'
    obtain ⟨rest', toRest', landed'⟩ := h.landing agreeBehind (onward.trans encloses'.leadsTo)
      (encloses.level_after level) (skipTrivia_ok_iff.mp toRest)
    exact ⟨rest', bind_ok_iff.mpr ⟨_, hclose', bind_ok_iff.mpr ⟨_, hfields',
      bind_ok_iff.mpr ⟨_, skipTrivia_ok_iff.mpr toRest', rfl⟩⟩⟩, h.ends ends landed'⟩
  · have noFields : Variant.readFields place p.stop = .ok ([], place) := by
      refine Variant.readFields_eq_nil fun lt => ?_
      simpa [lt] using opens
    rw [noFields] at read
    cases read
    have ends' := h.ends ends landed
    refine ⟨place', Variant.readFields_eq_nil fun lt => ?_, ends'⟩
    have equals := first_of_sees (ends' lt)
    exact ⟨sees_of_first equals '(', sees_of_first equals '{'⟩

/-- **The variants of two pieces are alike** if one of the pieces has grown from the other. -/
theorem Piece.Grown.read (h : p.Grown o m e e' p') (sound : p.Sound o m i j)
    (onward : (source.cursor 0).LeadsTo p.start) (onward' : (source'.cursor 0).LeadsTo p'.start)
    {v : Variant} (hv : Variant.read source p = .ok v) :
    ∃ v', Variant.read source' p' = .ok v' ∧ v.Like v' := by
  obtain ⟨attrs, fields, ds, head, behind, place, rest, parts⟩ := Variant.read_ok_iff.mp hv
  have levelHead := (parts.prelude.laid sound.level.near).level
  have headLe := sound.head_le parts.prelude
  have headLt := h.trails.word_lt sound levelHead parts.name headLe
  have behindLe := h.trails.identifier_le sound levelHead parts.name headLe
  have levelBehind := levelHead.identifier parts.name (parts.plain sound)
  have levelPlace := (parts.toFields.spec levelBehind.near).1
  obtain ⟨attrs', head', prelude', agreeHead, twins⟩ := h.start.prelude parts.prelude headLt
  obtain ⟨behind', name', agreeBehind⟩ := agreeHead.identifier? parts.name behindLe
  have toBehind := prelude'.leadsTo.trans (leadsTo_identifier name').1
  obtain ⟨place', toFields', landed⟩ := h.landing agreeBehind toBehind levelBehind parts.toFields
  obtain ⟨ds', directives', like⟩ :=
    Variant.Directives.like_of_fold twins onward onward' ⟨rfl, rfl, rfl⟩ parts.directives
  obtain ⟨rest', read', ends'⟩ := h.readFields sound levelPlace (toBehind.trans toFields'.leadsTo)
    landed parts.read parts.ends
  refine ⟨⟨v.name, v.shape, ds'.metadata, ds'.excluded, head'.offset, ds'.spans⟩,
    Variant.read_ok_iff.mpr ⟨attrs', fields, ds', head', behind', place', rest', prelude', name',
      toFields', read', ends', directives', ?_, rfl, rfl, rfl, rfl⟩, rfl, rfl, ?_, ?_⟩
  · exact Variant.classify_ok _ parts.shape
  · exact like.metadata.trans parts.metadata.symm
  · exact like.excluded.trans parts.excluded.symm

end EnumExtract
