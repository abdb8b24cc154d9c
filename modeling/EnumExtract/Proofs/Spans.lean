/-
  EnumExtract.Proofs.Spans
  ────────────────────────────────
  Declarations and attributes stand where they say.

  A declaration carries offsets of the text it was found in, and so do its
  attributes and their arguments:

      #[derive(Debug)] pub enum Shape { … }
      │        └───┘  │              │
      start    args   stop           bodyIndex

  Each offset comes from another reader: trivia, the end of a doc comment, the
  bracket that closes, the path, the name.  What they say together is
  `Item.StandsIn`.  It holds of every declaration of every text, whether or not
  the reading of the text comes to the place behind the name.

  Main results:
    • `readAttribute_standsIn`   an attribute is where it says, and its
                                 arguments are between its parentheses,
    • `ItemAt.standsIn`          so is a declaration, with its attributes in order,
    • `Text.items_stand`         the declarations of a text follow one another.
-/
import EnumExtract.Proofs.Paths
import EnumExtract.Proofs.Scan

namespace EnumExtract

open Cursor

variable {t : Text}

/-! ## §1. What the offsets say. -/

/-- The arguments stand in the text, between parentheses strictly inside the attribute `a`. -/
structure AttributeArgs.StandsIn (t : Text) (a : Attribute) (args : AttributeArgs) : Prop where
  after : a.start + 1 < args.start
  opens : t[args.start - 1]? = some '('
  text : t.slice args.start (args.start + args.text.length) = args.text
  closes : t[args.start + args.text.length]? = some ')'
  before : args.start + args.text.length + 1 < a.stop

/-- The attribute stands in the text from its start to its stop. -/
structure Attribute.StandsIn (t : Text) (a : Attribute) : Prop where
  nonempty : a.start < a.stop
  fits : a.stop ≤ t.length
  text : t.slice a.start a.stop = a.text
  args : ∀ args ∈ a.args, args.StandsIn t a

/-- The declaration stands in the text: its name in front of its body, and its attributes in order
from its start on. -/
structure Item.StandsIn (t : Text) (item : Item) : Prop where
  fits : item.bodyIndex ≤ t.length
  identifier : IsIdentifier item.name
  named : item.start + item.name.length < item.bodyIndex
  name : t.slice (item.bodyIndex - item.name.length) item.bodyIndex = item.name
  attrs : ∀ a ∈ item.attrs, a.StandsIn t ∧ item.start ≤ a.start ∧ a.stop < item.bodyIndex
  order : item.attrs.Pairwise fun a b => a.stop ≤ b.start
  first : ∀ a ∈ item.attrs.head?, a.start = item.start

namespace Cursor

variable {c p close head next : Cursor} {a : Attribute}

/-! ## §2. Attributes. -/

/-- A doc comment stands where it says, and has no arguments. -/
theorem DocAt.standsIn (h : DocAt p a) (onward : (t.cursor 0).LeadsTo p) : a.StandsIn t := by
  have bounds := h.bounds
  have total := offset_le_length (onward.trans (leadsTo_advance bounds.2))
  have start := h.start
  rw [advance_offset] at total
  refine ⟨by omega, by omega, ?_, ?_⟩
  · rw [start, slice_of_leadsTo onward]
    obtain ⟨n, _, rfl⟩ := h.exists_lexeme
    obtain ⟨blank, eq, _⟩ := Text.exists_trimEnd_append (p.ahead.take n)
    have cut : p.ahead = Text.trimEnd (p.ahead.take n) ++ (blank ++ p.ahead.drop n) := by
      rw [← List.append_assoc, ← eq, List.take_append_drop]
    generalize Text.trimEnd (p.ahead.take n) = u at cut
    show p.upTo (p.offset + u.length) = u
    rw [upTo, cut, Nat.add_sub_cancel_left, List.take_left]
  · obtain ⟨n, _, rfl⟩ := h.exists_lexeme
    intro args mem
    cases mem

/-- **The arguments of an attribute are between its parentheses.** -/
theorem AttributeParts.args_standsIn (h : AttributeParts p a close head next)
    (sees : p.sees "#[" = true) (onward : (t.cursor 0).LeadsTo p) :
    ∀ args ∈ a.args, args.StandsIn t a := by
  intro args mem
  rcases h.args with ⟨⟨before, paren⟩, argsClose, closing, eq⟩ | ⟨_, none⟩
  case inr =>
    rw [none] at mem
    cases mem
  case inl =>
    rw [eq] at mem
    cases mem
    -- the list closes before the attribute does
    have inside := h.spec.2.2 paren argsClose closing before
    obtain ⟨code, encloses⟩ := closing_ok_iff.mp closing
    obtain ⟨opener, closer, first, pair, last⟩ := encloses.closes
    rw [first_of_sees paren] at first
    cases first
    cases pair
    -- all places are places of the text, each ahead of the one before
    have toNext := h.leadsTo_next
    have here := (onward.trans (leadsTo_advance (k := 2) (length_le_of_sees sees))).trans toNext
    have inner := here.trans (leadsTo_first (first_of_sees paren))
    have there := inner.trans encloses.reads.leadsTo
    have after := toNext.offset_le
    have length := encloses.reads.leadsTo.length_upTo
    have forward := encloses.reads.offset_le
    rw [advance_offset] at after length forward
    -- the arguments reach from behind the parenthesis to the one that closes it
    have stop : next.offset + 1 + ((next.advance 1).upTo argsClose.offset).length = argsClose.offset := by
      omega
    refine ⟨?_, getElem?_of_head? here (first_of_sees paren), ?_, ?_, ?_⟩
    · show a.start + 1 < next.offset + 1
      rw [h.start]
      omega
    · show t.slice (next.advance 1).offset (next.offset + 1 + ((next.advance 1).upTo argsClose.offset).length) = _
      rw [stop, slice_of_leadsTo inner]
    · show t[next.offset + 1 + ((next.advance 1).upTo argsClose.offset).length]? = _
      rw [stop]
      exact getElem?_of_head? there last
    · show next.offset + 1 + ((next.advance 1).upTo argsClose.offset).length + 1 < a.stop
      rw [stop, h.stop]
      omega

/-- **An attribute is where it says.** -/
theorem readAttribute_standsIn (sees : p.sees "#[" = true) (read : p.readAttribute = .ok a)
    (onward : (t.cursor 0).LeadsTo p) : a.StandsIn t := by
  have bounds := readAttribute_bounds sees read
  have total := offset_le_length (onward.trans (leadsTo_advance bounds.2))
  obtain ⟨close, head, next, parts⟩ := readAttribute_ok_iff.mp read
  have start := parts.start
  rw [advance_offset] at total
  refine ⟨by omega, by omega, ?_, parts.args_standsIn sees onward⟩
  rw [start, parts.stop, parts.text]
  exact slice_of_leadsTo onward _

theorem Prelude.standIn {attrs : List Attribute} (h : Prelude c attrs head)
    (onward : (t.cursor 0).LeadsTo c) : ∀ a ∈ attrs, a.StandsIn t := by
  intro a mem
  obtain ⟨p, toPlace, doc | ⟨sees, read⟩⟩ := h.exists_place a mem
  · exact doc.standsIn (onward.trans toPlace)
  · exact readAttribute_standsIn sees read (onward.trans toPlace)

/-! ## §3. Declarations. -/

/-- Where a declaration may start, no trivia stands but a doc comment. -/
theorem trivium?_of_mayStartItem (starts : c.mayStartItem = true) : c.trivium? true = .ok none := by
  cases doc : startsDocComment c.ahead with
  | true => exact trivium?_of_doc doc
  | false =>
      cases sees : c.sees "#[" with
      | true =>
          obtain ⟨rest, eq⟩ := sees_iff.mp sees
          have first : c.ahead.head? = some '#' := by
            rw [eq]
            rfl
          exact trivium?_of_first first rfl (by decide)
      | false =>
          obtain ⟨ch, first, word, _⟩ := exists_keyword_char starts doc sees
          exact trivium?_of_first first (not_isBlank_of_isWord word) (by rintro rfl; cases word)

/-- **A declaration is where it says**, with its attributes in order in front of its name. -/
theorem ItemAt.standsIn {item : Item} {place behind name after : Cursor}
    (h : ItemAt c item head place behind name after) (starts : c.mayStartItem = true)
    (onward : (t.cursor 0).LeadsTo c) : item.StandsIn t := by
  obtain ⟨afterVisibility, found⟩ := h.head
  obtain ⟨toBehind, keyword⟩ := leadsTo_identifier h.keyword
  have toName := (found.leadsTo.trans toBehind).trans h.toName.leadsTo
  have toAfter := (leadsTo_identifier h.name).1
  have laid := found.prelude.laid (Level.start c).near
  obtain ⟨word, eq⟩ := identifier?_eq_some h.name
  obtain ⟨rest, written, identifier, _⟩ := Text.identifier?_some word
  have start := h.start
  have behindName : item.bodyIndex = name.offset + item.name.length := by
    rw [h.bodyIndex, eq, advance_offset]
  have toPlace := found.leadsTo.offset_le
  have toWord := h.toName.leadsTo.offset_le
  refine ⟨?_, identifier, by omega, ?_, fun a mem => ?_, laid.order, ?_⟩
  · rw [h.bodyIndex]
    exact offset_le_length ((onward.trans toName).trans toAfter)
  · rw [behindName, Nat.add_sub_cancel, slice_of_leadsTo (onward.trans toName), upTo,
      Nat.add_sub_cancel_left, written, List.take_left]
  · obtain ⟨p, placed⟩ := laid.placed a mem
    have after := placed.after
    have before := placed.before
    have behindPrelude := (found.visibility.leadsTo.trans found.toKeyword.leadsTo).offset_le
    exact ⟨found.prelude.standIn onward a mem, by omega, by omega⟩
  · rw [start]
    exact found.prelude.start_first (trivium?_of_mayStartItem starts)

/-! ## §4. The run of the scan. -/

/-- The declarations found by the time that the scan is at `c`, the latest first: they stand in the text
before that place, one behind the other. -/
structure Scan.Kept (t : Text) (c : Cursor) (s : Scan) : Prop where
  onward : (t.cursor 0).LeadsTo c
  stands : ∀ item ∈ s.items, item.StandsIn t ∧ item.bodyIndex ≤ c.offset
  order : s.items.Pairwise fun later item => item.bodyIndex ≤ later.start

/-- A step that finds nothing goes on. -/
theorem Scan.Kept.on {s s' : Scan} {d : Cursor} (h : s.Kept t c) (same : s'.items = s.items)
    (further : c.LeadsTo d) : s'.Kept t d := by
  refine ⟨h.onward.trans further, ?_, ?_⟩
  · rw [same]
    exact fun item mem => ⟨(h.stands item mem).1, Nat.le_trans (h.stands item mem).2 further.offset_le⟩
  · rw [same]
    exact h.order

theorem Scan.Kept.step {s s' : Scan} {n : Nat} (h : s.Kept t c) (more : c.ahead ≠ [])
    (step : scanStep s c = .ok (.move s' n)) : s'.Kept t (c.advance n) := by
  have further : c.LeadsTo (c.advance n) := leadsTo_advance (scanStep_steady s c s' n more step).2
  cases scanStep_spec step with
  | enter _ _ => exact h.on rfl further
  | pass _ => exact h.on rfl further
  | other _ _ => exact h.on rfl further
  | @head modules module item? next starts read =>
      cases read with
      | nameless _ _ _ _ => exact h.on rfl further
      | other _ _ => exact h.on rfl further
      | @item item head place behind name after found _ =>
          -- the declaration begins where the scan is, and that is behind all that it has found
          have stop := (HeadRead.item found rfl).leadsTo more
          have body := found.bodyIndex
          have start := found.start
          rw [← stop.1.eq_advance] at further ⊢
          refine ⟨h.onward.trans further, List.forall_mem_cons.mpr ⟨?_, fun item mem => ?_⟩, ?_⟩
          · exact ⟨found.standsIn starts h.onward, Nat.le_of_eq body⟩
          · exact ⟨(h.stands item mem).1, Nat.le_trans (h.stands item mem).2 further.offset_le⟩
          · refine List.pairwise_cons.mpr ⟨fun earlier mem => ?_, h.order⟩
            rw [start]
            exact (h.stands earlier mem).2

end Cursor

/-- **The declarations of a text follow one another**, each of them where it says, with its attributes
in order from its start on. -/
theorem Text.items_stand {items : List Item} (h : t.items = .ok items) :
    items.Pairwise (fun a b => a.start < b.start ∧ a.bodyIndex ≤ b.start)
      ∧ ∀ item ∈ items, item.StandsIn t := by
  have run := h
  rw [Text.items, Cursor.items, walk_ok_iff scanStep_steady] at run
  have found : ∃ s c, items = s.items.reverse ∧ Scan.Kept t c s := by
    refine run.kept (I := fun s c => Scan.Kept t c s)
      (P := fun items => ∃ s c, items = s.items.reverse ∧ Scan.Kept t c s)
      ⟨.refl _, List.forall_mem_nil _, .nil⟩ ?_ ?_ ?_
    · exact fun s c s' n more kept step => kept.step more step
    · exact fun s c items more _ step => by cases scanStep_spec step
    · rintro s c items kept ⟨⟩
      exact ⟨s, c, rfl, kept⟩
  obtain ⟨s, c, rfl, kept⟩ := found
  refine ⟨?_, fun item mem => (kept.stands item (List.mem_reverse.mp mem)).1⟩
  rw [List.pairwise_reverse]
  refine kept.order.imp_of_mem fun _ mem before => ⟨?_, before⟩
  have named := (kept.stands _ mem).1.named
  omega

/-- A doc comment and an attribute with arguments in front of one declaration, and none in front of
another. -/
theorem Text.items_stand_two :
    ∃ items, Text.items "/// A\n#[serde( tag = \"t\" )]\npub enum Shape; struct Unit;" = .ok items
      ∧ items.map (fun item => (item.start, item.attrs.map (·.stop), item.bodyIndex))
          = [(0, [5, 27], 42), (44, [], 55)]
      ∧ ∀ item ∈ items, item.StandsIn "/// A\n#[serde( tag = \"t\" )]\npub enum Shape; struct Unit;" := by
  have read : ∃ items, Text.items "/// A\n#[serde( tag = \"t\" )]\npub enum Shape; struct Unit;" = .ok items
      ∧ items.map (fun item => (item.start, item.attrs.map (·.stop), item.bodyIndex))
          = [(0, [5, 27], 42), (44, [], 55)] :=
    exists_ok_of_decide (by decide +kernel)
  obtain ⟨items, found, offsets⟩ := read
  exact ⟨items, found, offsets, (Text.items_stand found).2⟩

end EnumExtract
