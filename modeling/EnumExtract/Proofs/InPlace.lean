/-
  EnumExtract.Proofs.InPlace
  ────────────────────────────────
  Lists that are cut on their own and in place.

  The traits of a derive are cut from a copy of its arguments.  Cut where they
  stand in the source, they are the same traits.  Two differences have to be
  bridged: behind the arguments stands a closing parenthesis in the source and
  nothing in the copy, and before them an opening parenthesis and nothing.  The
  first one matters to trivia, which ends with the copy, and the second one to
  the first place only, where a word begins either way.

  Main results:
    • `Cursor.Reads.traits_alone`       a balanced list has the same traits in both,
    • `Metadata.ofAttribute_inPlace`    what is made of an attribute that has been read
                                        never fails, and a derive has the traits that
                                        stand in its place.
-/
import EnumExtract.Proofs.Grammar.Attributes
import EnumExtract.Schema.EnumDecl

namespace EnumExtract

open Cursor

variable {c c' d x : Cursor} {code : List (Cursor × Char)} {w : Text} {e e' : Nat}

/-! ## §1. What stands before a list. -/

/-- The two cursors are the same but for the character before them, and a word begins at both or at
neither. -/
structure Cursor.Akin (c c' : Cursor) : Prop where
  offset : c'.offset = c.offset
  ahead : c'.ahead = c.ahead
  start : c'.atWordStart = c.atWordStart

namespace Cursor.Akin

variable (h : c.Akin c')

include h

theorem lexeme? : c'.lexeme? = c.lexeme? :=
  lexeme?_congr h.offset h.ahead h.start

theorem comment? : c'.comment? = c.comment? := by
  unfold Cursor.comment? fail
  rw [h.ahead, h.offset]

theorem literal? : c'.literal? = c.literal? := by
  unfold Cursor.literal? Cursor.rawOpener? fail
  rw [h.ahead, h.offset, h.start]

theorem trivium? (keepDocs : Bool) : c'.trivium? keepDocs = c.trivium? keepDocs := by
  unfold Cursor.trivium?
  rw [h.ahead, h.comment?]

theorem advance {k : Nat} (pos : 0 < k) : c'.advance k = c.advance k :=
  advance_congr h.offset h.ahead pos

theorem trivia (ht : Trivia false c x) : ∃ x', Trivia false c' x' ∧ x'.offset = x.offset := by
  cases ht with
  | stop none => exact ⟨c', .stop ((h.trivium? false).trans none), h.offset⟩
  | @pass _ _ n some rest =>
      rw [← h.advance (trivium?_bounds some).1] at rest
      exact ⟨x, .pass ((h.trivium? false).trans some) rest, rfl⟩

theorem stripped (hw : Stripped c w d) : ∃ d', Stripped c' w d' ∧ d'.offset = d.offset := by
  cases hw with
  | here => exact ⟨c', .here c', h.offset⟩
  | @comment _ _ w n hc rest =>
      rw [← h.advance (comment?_bounds hc).1] at rest
      exact ⟨d, .comment (h.comment?.trans hc) rest, rfl⟩
  | @literal _ _ w n hc hl rest =>
      rw [← h.advance (literal?_bounds hl).1] at rest
      rw [← h.ahead]
      exact ⟨d, .literal (h.comment?.trans hc) (h.literal?.trans hl) rest, rfl⟩
  | @char _ _ w ch hl first rest =>
      rw [← h.advance Nat.one_pos] at rest
      exact ⟨d, .char (h.lexeme?.trans hl) (by rw [h.ahead, first]) rest, rfl⟩

end Cursor.Akin

/-- Where the first piece starts says nothing about where it ends. -/
theorem Cutting.read_first (y : Cursor) (ch : Char) (depth : Int) (angle : Nat) :
    (∃ depth' angle', ∀ c, Cutting.read ⟨[], c, depth, angle⟩ y ch = ⟨[], c, depth', angle'⟩)
      ∨ ∀ c, Cutting.read ⟨[], c, depth, angle⟩ y ch = ⟨[⟨c, y.offset⟩], y.advance 1, depth, angle⟩ := by
  unfold Cutting.read
  split
  · exact .inl ⟨depth + 1, angle, fun c => rfl⟩
  · split
    · exact .inl ⟨depth - 1, angle, fun c => rfl⟩
    · by_cases deep : depth ≠ 0
      · simp only [if_pos deep]
        exact .inl ⟨_, _, fun c => rfl⟩
      · simp only [if_neg deep]
        split
        · exact .inl ⟨_, _, fun c => rfl⟩
        · split
          · exact .inl ⟨_, _, fun c => rfl⟩
          · by_cases comma : (ch = ',' && angle = 0) = true
            · simp only [if_pos comma]
              exact .inr fun c => trivial
            · simp only [if_neg comma]
              exact .inl ⟨_, _, fun c => rfl⟩

theorem Cutting.pieces_first (code : List (Cursor × Char)) (stop : Nat) : ∀ (depth : Int) (angle : Nat),
    ∃ first rest, ∀ c, (Cutting.over ⟨[], c, depth, angle⟩ code).pieces stop = ⟨c, first⟩ :: rest := by
  induction code with
  | nil => exact fun _ _ => ⟨stop, [], fun c => rfl⟩
  | cons y code ih =>
      intro depth angle
      rcases Cutting.read_first y.1 y.2 depth angle with ⟨depth', angle', same⟩ | same
      · obtain ⟨first, rest, eq⟩ := ih depth' angle'
        refine ⟨first, rest, fun c => ?_⟩
        rw [Cutting.over_cons, same, eq]
      · refine ⟨y.1.offset, (Cutting.over ⟨[], y.1.advance 1, depth, angle⟩ code).pieces stop, fun c => ?_⟩
        rw [Cutting.over_cons, same]
        have frame := Cutting.over_frame [⟨c, y.1.offset⟩] code ⟨[], y.1.advance 1, depth, angle⟩
        rw [List.nil_append] at frame
        rw [frame]
        simp [Cutting.pieces]

/-- No angle bracket is open at the first place, so that an arrow there would not matter either. -/
theorem Cursor.Akin.read (h : c.Akin c') (start : Cursor) (ch : Char) :
    Cutting.read ⟨[], start, 0, 0⟩ c' ch = Cutting.read ⟨[], start, 0, 0⟩ c ch := by
  unfold Cutting.read
  rw [h.offset, h.advance Nat.one_pos]
  by_cases greater : ch = '>'
  · subst greater
    simp [closer?, isCloser]
  · simp [greater]

/-- **The same pieces are cut at both**, but for where the first one starts. -/
theorem Cursor.Akin.allPieces (h : c.Akin c') (r : Reads c code d) :
    ∃ first rest, c.allPieces d.offset = .ok (⟨c, first⟩ :: rest)
      ∧ c'.allPieces d.offset = .ok (⟨c', first⟩ :: rest) := by
  have cut {code' : List (Cursor × Char)} (r' : Reads c' code' d)
      (same : Cutting.over ⟨[], c', 0, 0⟩ code' = Cutting.over ⟨[], c', 0, 0⟩ code) :
      ∃ first rest, c.allPieces d.offset = .ok (⟨c, first⟩ :: rest)
        ∧ c'.allPieces d.offset = .ok (⟨c', first⟩ :: rest) := by
    obtain ⟨first, rest, eq⟩ := Cutting.pieces_first code d.offset 0 0
    exact ⟨first, rest, by rw [allPieces_of_reads r, eq], by rw [allPieces_of_reads r', same, eq]⟩
  cases r with
  | here =>
      have here := allPieces_of_reads (.here c')
      rw [h.offset] at here
      exact ⟨c.offset, [], allPieces_of_reads (.here c), here⟩
  | @lexeme _ _ _ n hl rest =>
      have rest' := rest
      rw [← h.advance (lexeme?_bounds hl).1] at rest'
      exact cut (.lexeme (h.lexeme?.trans hl) rest') rfl
  | @char _ _ code ch hl first rest =>
      have rest' := rest
      rw [← h.advance Nat.one_pos] at rest'
      refine cut (.char (h.lexeme?.trans hl) (by rw [h.ahead, first]) rest') ?_
      rw [Cutting.over_cons, Cutting.over_cons, h.read]

/-! ## §2. What stands behind a list. -/

/-- Trivia of a stretch are trivia of its copy, also where they go up to its end. -/
theorem Cursor.Agree.trivia_alone (h : Agree e e' c c') (ends : c'.offset + c'.ahead.length = e')
    (ht : Trivia false c x) (le : x.offset ≤ e) : ∃ x', Agree e e' x x' ∧ Trivia false c' x' := by
  induction ht generalizing c' with
  | @stop c none =>
      refine ⟨c', h, .stop ?_⟩
      rcases Nat.lt_or_ge c.offset e with before | atEnd
      · exact h.trivium?_none before none rfl
      · have place := h.place
        exact trivium?_of_end (List.eq_nil_of_length_eq_zero (by omega))
  | @pass c x n some rest ih =>
      have forward := rest.leadsTo.offset_le
      rw [advance_offset] at forward
      have onward := (h.leadsTo (k := n) (by omega)).end_eq
      obtain ⟨x', agree, ht'⟩ := ih (h.advance (by omega)) (by omega) le
      exact ⟨x', agree, .pass (h.trivium?_some some (by omega)) ht'⟩

/-- What is seen of a piece: whether it is filled, and its text without comments. -/
structure Piece.Shows (p : Piece) (filled : Bool) (w : Text) : Prop where
  isFilled : p.isFilled = .ok filled
  withoutComments : p.withoutComments = .ok w

/-- A stretch that is read to its end shows the same in place, in its copy, and in the copy without
what stands before it. -/
theorem Cursor.Agree.shows {stop : Nat} (h : Agree e e' c c') (ends : c'.offset + c'.ahead.length = e')
    (r : Reads c code d) (stops : d.trivium? false = .ok none) (le : d.offset ≤ e)
    (same : stop + e = d.offset + e') :
    ∃ filled w, Piece.Shows ⟨c, d.offset⟩ filled w
      ∧ ∀ c'', c'.Akin c'' → Piece.Shows ⟨c'', stop⟩ filled w := by
  obtain ⟨x, trivia, inside⟩ := r.exists_trivia stops
  obtain ⟨w, stripped⟩ := r.stripped
  obtain ⟨x', agree, trivia'⟩ := h.trivia_alone ends trivia (by omega)
  obtain ⟨d', stripped', agree'⟩ := h.stripped stripped le
  have place := agree.place
  have place' := agree'.place
  refine ⟨decide (x.offset < d.offset), w, ⟨Piece.isFilled_ok_iff.mpr ⟨x, trivia, rfl⟩,
    withoutComments_of_stripped stripped⟩, fun c'' akin => ⟨?_, ?_⟩⟩
  · obtain ⟨x'', trivia'', offset⟩ := akin.trivia trivia'
    refine Piece.isFilled_ok_iff.mpr ⟨x'', trivia'', ?_⟩
    rw [decide_eq_decide]
    show x.offset < d.offset ↔ x''.offset < stop
    omega
  · obtain ⟨d'', stripped'', offset⟩ := akin.stripped stripped'
    have found := withoutComments_of_stripped stripped''
    rwa [show d''.offset = stop by omega] at found

/-! ## §3. The traits of a list. -/

/-- The traits between the cursor and offset `stop`: the pieces without comments and blanks. -/
def Cursor.traits (c : Cursor) (stop : Nat) : Except Fault (List Text) := do
  (← c.pieces stop).mapM fun piece => return Text.unspaced (← piece.withoutComments)

theorem forall₂_with_mem {α β : Type} {R : α → β → Prop} {xs : List α} {ys : List β}
    (h : List.Forall₂ R xs ys) : List.Forall₂ (fun x y => x ∈ xs ∧ y ∈ ys ∧ R x y) xs ys := by
  induction h with
  | nil => exact .nil
  | cons here _ ih =>
      refine .cons ⟨List.mem_cons_self, List.mem_cons_self, here⟩ (ih.imp fun x y inside => ?_)
      exact ⟨List.mem_cons_of_mem _ inside.1, List.mem_cons_of_mem _ inside.2.1, inside.2.2⟩

/-- Two maps that come to the same results. -/
theorem exists_mapM_same {ε α β : Type} {f g : α → Except ε β} {xs ys : List α}
    (h : List.Forall₂ (fun x y => ∃ z, f x = .ok z ∧ g y = .ok z) xs ys) :
    ∃ zs, xs.mapM f = .ok zs ∧ ys.mapM g = .ok zs := by
  simp only [mapM_ok_iff]
  induction h with
  | nil => exact ⟨[], .nil, .nil⟩
  | cons here _ ih =>
      obtain ⟨z, hf, hg⟩ := here
      obtain ⟨zs, left, right⟩ := ih
      exact ⟨z :: zs, .cons hf left, .cons hg right⟩

/-- Lists whose pieces show the same have the same traits. -/
theorem traits_of_shows {stop stop' : Nat} {ps ps' : List Piece} (h : c.allPieces stop = .ok ps)
    (h' : c'.allPieces stop' = .ok ps')
    (same : List.Forall₂ (fun p p' => ∃ filled w, p.Shows filled w ∧ p'.Shows filled w) ps ps') :
    ∃ traits, c.traits stop = .ok traits ∧ c'.traits stop' = .ok traits := by
  have decided {p : Piece} {filled : Bool} {w : Text} (shows : p.Shows filled w) :
      p.isFilled = .ok (holds Piece.isFilled p) := by
    rw [holds_of_ok shows.isFilled, shows.isFilled]
  have pieces : c.pieces stop = .ok (ps.filter (holds Piece.isFilled)) := by
    refine bind_ok_iff.mpr ⟨ps, h, filterM_ok_iff.mpr ⟨fun p mem => ?_, rfl⟩⟩
    obtain ⟨_, _, _, _, shows, _⟩ := exists_of_forall₂_left same mem
    exact decided shows
  have pieces' : c'.pieces stop' = .ok (ps'.filter (holds Piece.isFilled)) := by
    refine bind_ok_iff.mpr ⟨ps', h', filterM_ok_iff.mpr ⟨fun p mem => ?_, rfl⟩⟩
    obtain ⟨_, _, _, _, _, shows⟩ := exists_of_forall₂_right same mem
    exact decided shows
  have each : List.Forall₂ (fun p p' : Piece => ∃ trait : Text,
      (do return Text.unspaced (← p.withoutComments)) = Except.ok trait
        ∧ (do return Text.unspaced (← p'.withoutComments)) = Except.ok trait)
      (ps.filter (holds Piece.isFilled)) (ps'.filter (holds Piece.isFilled)) := by
    refine forall₂_filter (same.imp fun p p' here => ?_)
    obtain ⟨filled, w, shows, shows'⟩ := here
    refine ⟨⟨w.unspaced, ?_, ?_⟩, (holds_of_ok shows'.isFilled).trans (holds_of_ok shows.isFilled).symm⟩
    · exact bind_ok_iff.mpr ⟨w, shows.withoutComments, rfl⟩
    · exact bind_ok_iff.mpr ⟨w, shows'.withoutComments, rfl⟩
  obtain ⟨traits, map, map'⟩ := exists_mapM_same each
  exact ⟨traits, bind_ok_iff.mpr ⟨_, pieces, map⟩, bind_ok_iff.mpr ⟨_, pieces', map'⟩⟩

theorem Cuts.whole {ps : List Piece} (h : Cuts c code ps d) : Reads c code d := by
  induction h with
  | last r => exact r
  | cut r _ plain first _ ih => exact r.trans (.char plain first ih)

/-- Each piece lies in the list, and starts at a place that the reading of the list comes to. -/
theorem Cuts.within {ps : List Piece} (h : Cuts c code ps d) :
    ∀ p ∈ ps, c.LeadsTo p.start ∧ p.stop ≤ d.offset := by
  induction h with
  | last => exact List.forall_mem_singleton.mpr ⟨.refl _, Nat.le_refl _⟩
  | cut r _ plain first rest ih =>
      have behind := (Reads.char plain first rest.whole).offset_le
      refine List.forall_mem_cons.mpr ⟨⟨.refl _, behind⟩, fun p mem => ?_⟩
      obtain ⟨onward, inside⟩ := ih p mem
      exact ⟨(r.leadsTo.trans (leadsTo_first first)).trans onward, inside⟩

/-- **A balanced list has the same traits in place and on its own.** -/
theorem Cursor.Reads.traits_alone (r : Reads c code d) (balanced : Balanced code)
    (stops : d.trivium? false = .ok none) (start : c.atWordStart = true) :
    ∃ traits, c.traits d.offset = .ok traits
      ∧ (Text.cursor (c.upTo d.offset) 0).traits (c.upTo d.offset).length = .ok traits := by
  have length := r.leadsTo.length_upTo
  have forward := r.leadsTo.offset_le
  have even : level (chars code) = 0 := by
    have length := length_of_nest (balanced [])
    simp only [List.length_nil] at length
    omega
  -- the copy, with what stands before the list in the source
  let anchored : Cursor := ⟨c.before, 0, c.upTo d.offset⟩
  have agree : Agree d.offset (c.upTo d.offset).length c anchored :=
    ⟨rfl, c.upTo d.offset, d.ahead, [], r.leadsTo.ahead_eq, (List.append_nil _).symm, by omega,
      Nat.zero_add _, .alone _ _⟩
  have akin : anchored.Akin (Text.cursor (c.upTo d.offset) 0) := ⟨rfl, rfl, start.symm⟩
  obtain ⟨code', d', r', there, same⟩ := agree.reads r (Nat.le_refl _)
  have place : d'.offset = (c.upTo d.offset).length := by
    have := there.place
    omega
  have all := allPieces_of_reads r
  have cuts := Cuts.of_reads r even all
  obtain ⟨ps', all', twins⟩ := agree.allPieces r (Nat.le_refl _) (Nat.add_comm _ _) all
  obtain ⟨first, rest, here, alone⟩ := akin.allPieces r'
  rw [place] at here alone
  obtain rfl : ps' = ⟨anchored, first⟩ :: rest := Except.ok.inj (all'.symm.trans here)
  have cuts' := Cuts.of_reads r' (by rw [same.chars_eq, even]) (by rw [place, here])
  refine traits_of_shows all alone ?_
  generalize (Cutting.over ⟨[], c, 0, 0⟩ code).pieces d.offset = ps at cuts twins
  have shows : List.Forall₂ (fun p p' => ∃ filled w, p.Shows filled w
      ∧ ∀ c'', p'.start.Akin c'' → Piece.Shows ⟨c'', p'.stop⟩ filled w) ps (⟨anchored, first⟩ :: rest) := by
    refine (forall₂_with_mem twins).imp fun p p' ⟨mem, mem', twin⟩ => ?_
    obtain ⟨_, e, reads, stop, stops⟩ := cuts.reads stops p mem
    have inside := (cuts.within p mem).2
    have ends := (cuts'.within p' mem').1.end_eq
    have total : anchored.offset + anchored.ahead.length = (c.upTo d.offset).length := Nat.zero_add _
    have twinStop := twin.stop
    have found := twin.start.shows (by omega) reads stops (by omega) (by omega : p'.stop + d.offset = _)
    rwa [stop] at found
  cases shows with
  | cons head tail =>
      obtain ⟨filled, w, here, copy⟩ := head
      refine .cons ⟨filled, w, here, copy _ akin⟩ (tail.imp fun p p' ⟨filled, w, here, copy⟩ => ?_)
      exact ⟨filled, w, here, copy _ ⟨rfl, rfl, rfl⟩⟩

/-! ## §4. Attributes that have been read. -/

theorem exists_anyM_ok {ε α : Type} {f : α → Except ε Bool} {xs : List α}
    (h : ∀ x ∈ xs, ∃ b, f x = .ok b) : ∃ b, xs.anyM f = .ok b := by
  induction xs with
  | nil => exact ⟨false, rfl⟩
  | cons x xs ih =>
      obtain ⟨⟨b, first⟩, rest⟩ := List.forall_mem_cons.mp h
      rw [List.anyM_cons, first]
      cases b with
      | true => exact ⟨true, rfl⟩
      | false => exact ih rest

/-- Where the metadata of an attribute can be read, a trait can be taken out of it. -/
theorem Attribute.exists_withoutTrait? {a : Attribute} (source trait : Text)
    (h : ∃ entry, Metadata.ofAttribute a = .ok entry) :
    ∃ edit?, a.withoutTrait? source trait = .ok edit? := by
  obtain ⟨entry, hentry⟩ := h
  unfold Attribute.withoutTrait?
  rw [hentry]
  show ∃ edit?, (if entry.category ≠ .derive then (pure none : Except Fault (Option Edit)) else _) = .ok edit?
  split
  next => exact ⟨_, rfl⟩
  next =>
    split
    next => exact ⟨_, rfl⟩
    next => split <;> exact ⟨_, rfl⟩

/-- Whether a declaration is marked is known where the metadata of its attributes can be read. -/
theorem EnumDecl.exists_isMarked (source : Text) {item : Item}
    (h : ∀ a ∈ item.attrs, ∃ entry, Metadata.ofAttribute a = .ok entry) :
    ∃ marked, isMarked source item = .ok marked := by
  unfold isMarked
  split
  · refine exists_anyM_ok fun a mem => ?_
    by_cases own : a.path = marker
    · rw [if_pos own]
      exact ⟨true, rfl⟩
    · obtain ⟨edit?, hedit⟩ := Attribute.exists_withoutTrait? source marker (h a mem)
      rw [if_neg own, hedit]
      exact ⟨edit?.isSome, rfl⟩
  · exact ⟨false, rfl⟩

/-- The arguments of an attribute have the same traits behind its parenthesis and on their own. -/
theorem Cursor.closing_traits {next : Cursor} (sees : next.sees "(" = true) (closing : next.closing = .ok d) :
    ∃ traits, (next.advance 1).traits d.offset = .ok traits
      ∧ (Text.cursor ((next.advance 1).upTo d.offset) 0).traits ((next.advance 1).upTo d.offset).length
        = .ok traits := by
  obtain ⟨code, encloses⟩ := closing_ok_iff.mp closing
  have first := first_of_sees sees
  have start : (next.advance 1).atWordStart = true := by
    have before : (next.advance 1).before = some '(' := by
      rwa [List.head?_eq_getElem?] at first
    rw [atWordStart, before]
    rfl
  have balanced : Balanced code := fun awaited => nest_frame awaited encloses.nests
  have stops : d.trivium? false = .ok none := by
    obtain ⟨opener, closer, first', pair, last⟩ := encloses.closes
    obtain rfl : '(' = opener := Option.some.inj (first.symm.trans first')
    cases pair
    exact trivium?_of_first last rfl (by decide)
  exact encloses.reads.traits_alone balanced stops start

/-- The metadata of a derive are its traits. -/
theorem Metadata.ofAttribute_derive {attr : Attribute} {args : AttributeArgs} {traits : List Text}
    (given : attr.args = some args) (h : (args.text.cursor 0).traits args.text.length = .ok traits)
    (derive : attr.path = "derive") : ofAttribute attr = .ok ⟨.derive, attr.text, traits⟩ := by
  obtain ⟨ps, cut, map⟩ := bind_ok_iff.mp h
  have noDoc : ¬ attr.path = "doc" := by
    rw [derive]
    decide
  rw [ofAttribute, if_neg noDoc, given]
  simp only
  rw [if_pos derive]
  exact bind_ok_iff.mpr ⟨ps, cut, bind_ok_iff.mpr ⟨traits, map, rfl⟩⟩

/-- Nothing but a derive with arguments has traits. -/
theorem Metadata.ofAttribute_other {attr : Attribute} (h : ¬ (attr.path = "derive" ∧ attr.args.isSome)) :
    ∃ category, ofAttribute attr = .ok ⟨category, attr.text, []⟩ ∧ category ≠ .derive := by
  rw [ofAttribute]
  split
  next => exact ⟨.doc, rfl, by decide⟩
  next =>
    split
    next args given =>
      rw [if_neg fun derive => h ⟨derive, by rw [given]; rfl⟩]
      exact ⟨.other, rfl, by decide⟩
    next => exact ⟨.other, rfl, by decide⟩

/-- **The metadata of each attribute that is read can be read.** -/
theorem Metadata.exists_ofAttribute {p : Cursor} {attr : Attribute} (read : p.readAttribute = .ok attr) :
    ∃ entry, ofAttribute attr = .ok entry := by
  by_cases derive : attr.path = "derive" ∧ attr.args.isSome
  · obtain ⟨close, head, next, parts⟩ := readAttribute_ok_iff.mp read
    rcases parts.args with ⟨⟨_, sees⟩, d, closing, given⟩ | ⟨_, none⟩
    · obtain ⟨traits, _, alone⟩ := closing_traits sees closing
      exact ⟨_, ofAttribute_derive given alone derive.1⟩
    · rw [none] at derive
      cases derive.2
  · obtain ⟨category, found, _⟩ := ofAttribute_other derive
    exact ⟨_, found⟩

/-- What is ahead of a place of the source is a place of it. -/
theorem advance_of_cursor {t : Text} (here : c = t.cursor c.offset) (k : Nat) :
    c.advance k = t.cursor (c.offset + k) := by
  rw [here, advance_cursor]
  rfl

theorem Cursor.LeadsTo.of_cursor {t : Text} (here : c = t.cursor c.offset) (h : c.LeadsTo d) :
    d = t.cursor d.offset := by
  obtain ⟨k, _, rfl⟩ := h
  exact advance_of_cursor here k

/-- The arguments of an attribute have the same traits in the source and on their own. -/
theorem Cursor.readAttribute_traits {source : Text} {i : Nat} {attr : Attribute} {args : AttributeArgs}
    (h : (source.cursor i).readAttribute = .ok attr) (given : attr.args = some args) :
    (source.cursor args.start).upTo (args.start + args.text.length) = args.text
      ∧ ∃ traits, (args.text.cursor 0).traits args.text.length = .ok traits
        ∧ (source.cursor args.start).traits (args.start + args.text.length) = .ok traits := by
  obtain ⟨close, head, next, parts⟩ := readAttribute_ok_iff.mp h
  rcases parts.args with ⟨⟨_, sees⟩, d, closing, eq⟩ | ⟨_, none⟩
  · obtain rfl := Option.some.inj (given.symm.trans eq)
    obtain ⟨traits, inPlace, alone⟩ := closing_traits sees closing
    have toNext := LeadsTo.of_cursor (advance_cursor source i 2) parts.leadsTo_next
    have place := advance_of_cursor toNext 1
    have stop : next.offset + 1 + ((next.advance 1).upTo d.offset).length = d.offset := by
      obtain ⟨code, encloses⟩ := closing_ok_iff.mp closing
      have length := encloses.reads.leadsTo.length_upTo
      have forward := encloses.reads.offset_le
      rw [advance_offset] at length forward
      omega
    simp only [stop]
    rw [← place]
    exact ⟨rfl, traits, alone, inPlace⟩
  · rw [none] at given
    cases given

/-- **What is made of an attribute that has been read never fails**: its metadata, the edit that takes
a trait out of it, and whether a declaration with such attributes is marked.  For a derive the traits
are those of its arguments on their own, and those that stand in the source in their place. -/
theorem Metadata.ofAttribute_inPlace {source : Text} {i : Nat} {attr : Attribute}
    (h : (source.cursor i).readAttribute = .ok attr) :
    (∃ entry, ofAttribute attr = .ok entry
        ∧ (entry.category = .derive → ∃ args, attr.args = some args
          ∧ (source.cursor args.start).upTo (args.start + args.text.length) = args.text
          ∧ (args.text.cursor 0).traits args.text.length = .ok entry.traits
          ∧ (source.cursor args.start).traits (args.start + args.text.length) = .ok entry.traits))
      ∧ (∀ trait, ∃ edit?, attr.withoutTrait? source trait = .ok edit?)
      ∧ ∀ item : Item, (∀ a ∈ item.attrs, ∃ j, (source.cursor j).readAttribute = .ok a
            ∨ DocAt (source.cursor j) a) →
          ∃ marked, EnumDecl.isMarked source item = .ok marked := by
  obtain ⟨entry, hentry⟩ := exists_ofAttribute h
  refine ⟨⟨entry, hentry, fun isDerive => ?_⟩, fun trait => ?_, fun item read => ?_⟩
  · by_cases derive : attr.path = "derive" ∧ attr.args.isSome
    · obtain ⟨args, given⟩ := Option.isSome_iff_exists.mp derive.2
      obtain ⟨same, traits, alone, inPlace⟩ := readAttribute_traits h given
      obtain rfl := Except.ok.inj (hentry.symm.trans (ofAttribute_derive given alone derive.1))
      exact ⟨args, given, same, alone, inPlace⟩
    · obtain ⟨category, found, other⟩ := ofAttribute_other derive
      obtain rfl := Except.ok.inj (hentry.symm.trans found)
      exact absurd isDerive other
  · exact Attribute.exists_withoutTrait? source trait ⟨entry, hentry⟩
  · refine EnumDecl.exists_isMarked source fun a mem => ?_
    obtain ⟨j, bracketed | doc⟩ := read a mem
    · exact exists_ofAttribute bracketed
    · obtain ⟨n, _, rfl⟩ := doc.exists_lexeme
      exact ⟨_, rfl⟩

/-- A derive with a comma in a comment, and a line comment in front of its end. -/
def commentedDerive : Text := "#[derive(Debug, /* , */ Clone // )\n)]"

theorem commentedDerive_inPlace : ∃ attr args, (commentedDerive.cursor 0).readAttribute = .ok attr
    ∧ attr.args = some args
    ∧ Metadata.ofAttribute attr = .ok ⟨.derive, commentedDerive, ["Debug", "Clone"]⟩
    ∧ (commentedDerive.cursor args.start).traits (args.start + args.text.length)
        = .ok ["Debug", "Clone"] := by
  have read : (commentedDerive.cursor 0).readAttribute = .ok ⟨"derive", commentedDerive, 0, 37,
      some ⟨"Debug, /* , */ Clone // )\n", 9⟩⟩ := by rfl
  obtain ⟨⟨entry, hentry, inPlace⟩, _⟩ := Metadata.ofAttribute_inPlace read
  have traits : Metadata.ofAttribute ⟨"derive", commentedDerive, 0, 37,
      some ⟨"Debug, /* , */ Clone // )\n", 9⟩⟩ = .ok ⟨.derive, commentedDerive, ["Debug", "Clone"]⟩ := by rfl
  obtain rfl := Except.ok.inj (hentry.symm.trans traits)
  obtain ⟨args, given, _, _, found⟩ := inPlace rfl
  exact ⟨_, args, read, given, hentry, found⟩

end EnumExtract
