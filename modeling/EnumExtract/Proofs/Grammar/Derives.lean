/-
  EnumExtract.Proofs.Grammar.Derives
  ────────────────────────────────
  Derives as they are written, and what is left of them when a trait is taken out.

      derive   `#[`, `derive`, a list of traits in parentheses, `]`, with trivia
               in between

  A derive is read twice: from the source, and from what is put in its place.
  What is put there is a derive of the other paths, written without trivia; so
  one statement about the reading of derives serves both.

  Main results:
    • `IsDerive.read`              a derive is read as its paths, in order,
    • `isDerive_derive`            what is printed of paths is a derive of them,
    • `IsDerive.trait_taken_out`   a trait is taken out of a derive.
-/
import EnumExtract.Proofs.Edits
import EnumExtract.Proofs.Grammar.Remarks
import EnumExtract.Proofs.Grammar.TraitLists
import EnumExtract.Proofs.Ownership

namespace EnumExtract

open Cursor

variable {c : Cursor} {n q t t' t'' l u w tail : Text} {ps : List TraitPath}

/-! ## §1. Reading a derive. -/

/-- What stands between the brackets of a derive. -/
def deriveInner (t t' l t'' : Text) : Text :=
  t ++ ("derive" ++ (t' ++ ('(' :: l ++ ')' :: t'')))

/-- A derive as it is written. -/
inductive IsDerive (ps : List TraitPath) : Text → Prop where
  | mk {t t' l t'' : Text} (before : IsTrivia t) (between : IsTrivia t') (list : IsTraitList ps l)
      (behind : IsTrivia t'') : IsDerive ps ("#[" ++ deriveInner t t' l t'' ++ "]")

theorem isName_derive : IsName "derive" :=
  ⟨'d', ['e', 'r', 'i', 'v', 'e'], rfl, rfl, by decide⟩

theorem sealed_paren : Text.Sealed ('(' :: w) := by
  rintro _ ⟨⟩
  decide

/-- Trivia is blanks up to its first comment. -/
theorem IsTrivia.exists_gap (h : IsTrivia t) :
    ∃ b v, t = b ++ v ∧ IsGap b ∧ ∀ ch, v.head? = some ch → ch = '/' := by
  induction h with
  | nil => exact ⟨[], [], rfl, IsGap.nil, nofun⟩
  | @blank ch t blank rest ih =>
      obtain ⟨b, v, rfl, gap, slash⟩ := ih
      exact ⟨ch :: b, v, rfl, List.forall_mem_cons.mpr ⟨blank, gap⟩, slash⟩
  | @comment u t comment rest ih =>
      refine ⟨[], u ++ t, rfl, IsGap.nil, ?_⟩
      obtain ⟨v, rfl⟩ := comment.exists_first
      rintro _ ⟨⟩
      rfl

/-- Behind `derive` the path is at its end. -/
theorem segmentLength?_trivia (h : IsTrivia t) (w : Text) : Text.segmentLength? (t ++ '(' :: w) = none := by
  obtain ⟨b, v, rfl, gap, slash⟩ := h.exists_gap
  have first : ∀ ch, (v ++ '(' :: w).head? = some ch → isBlank ch = false ∧ ch ≠ ':' := by
    refine head?_append_cases (fun ch first => ?_) (by rintro _ ⟨⟩; decide)
    rw [slash ch first]
    decide
  have blanks := blanks_append gap fun ch h => (first ch h).1
  unfold Text.segmentLength?
  simp only [List.append_assoc, blanks, List.drop_left]
  rw [if_neg]
  intro colons
  obtain ⟨rest, eq⟩ := List.isPrefixOf_iff_prefix.mp colons
  exact (first ':' (by rw [← eq]; rfl)).2 rfl

theorem pathLength_derive (h : IsTrivia t) (w : Text) :
    Text.pathLength ("derive" ++ (t ++ '(' :: w)) = ("derive" : Text).length :=
  pathLength_written isName_derive.isWrittenPath (h.sealed sealed_paren) (segmentLength?_trivia h w)

/-- Brackets around what is read in balance. -/
theorem Token.reading_group {o : Opened} {opener closer : Char} (inner : ReadsBalanced u)
    (pair : closer? opener = some closer) (eq : c.ahead = opener :: u ++ closer :: w) :
    Token.Reading c (opener :: u ++ [closer]) o o := by
  obtain ⟨code, encloses, balanced, _⟩ := inner.encloses pair eq
  obtain ⟨opener', closer', pair', whole⟩ := encloses.reads_whole
  have size : (opener :: u ++ [closer]).length = u.length + 1 + 1 := by simp
  rw [advance_advance, ← size] at whole
  exact ⟨_, whole, .group pair' balanced⟩

/-- What stands between the brackets is read to its end. -/
theorem readsBalanced_deriveInner (before : IsTrivia t) (between : IsTrivia t') (list : IsTraitList ps l)
    (behind : IsTrivia t'') : ReadsBalanced (deriveInner t t' l t'') := by
  intro c tail eq closes _
  have split : deriveInner t t' l t'' = t ++ ("derive" ++ (t' ++ (('(' :: l ++ [')']) ++ t''))) := by
    simp [deriveInner]
  rw [split] at eq ⊢
  simp only [List.append_assoc] at eq
  -- trivia, the name, trivia, the group and trivia are read one after the other
  have atName := ahead_advance eq
  have behindName := ahead_advance atName
  have atList := ahead_advance behindName
  have sealed : Text.Sealed (t' ++ ('(' :: l ++ ([')'] ++ (t'' ++ tail)))) := between.sealed sealed_paren
  obtain ⟨_, _, skipped⟩ := Strips.trivia before eq
  have name := IsSegment.strips (IsIdentifier.isSegment (.inl isName_derive)).plain sealed atName
  obtain ⟨_, _, skipped'⟩ := Strips.trivia between behindName
  have group := Token.reading_group (o := .start) list.readsBalanced rfl atList
  rw [← List.append_assoc ('(' :: l)] at atList
  have atEnd := ahead_advance atList
  obtain ⟨_, _, skipped''⟩ := Strips.trivia behind atEnd
  obtain ⟨code, reads, carries⟩ := skipped.reading.append
    (name.reading.append (skipped'.reading.append (group.append skipped''.reading)))
  exact ⟨code, reads, carries.balanced⟩

/-- What the reader finds of a derive: its name, its text and its list. -/
theorem attributeParts_derive (before : IsTrivia t) (between : IsTrivia t') (list : IsTraitList ps l)
    (behind : IsTrivia t'') (eq : c.ahead = "#[" ++ deriveInner t t' l t'' ++ "]" ++ tail) :
    ∃ close head next start, AttributeParts c ⟨"derive", "#[" ++ deriveInner t t' l t'' ++ "]", c.offset,
      c.offset + ("#[" ++ deriveInner t t' l t'' ++ "]" : Text).length, some ⟨l, start⟩⟩ close head next := by
  have bracket : (c.advance 1).ahead = '[' :: deriveInner t t' l t'' ++ ']' :: tail := by
    rw [advance_ahead, eq]
    simp
  obtain ⟨_, encloses, _, _⟩ :=
    ReadsBalanced.encloses (readsBalanced_deriveInner before between list behind) rfl bracket
  have inner : (c.advance 2).ahead = t ++ ("derive" ++ (t' ++ ('(' :: l ++ ')' :: (t'' ++ ']' :: tail)))) := by
    rw [advance_ahead, eq, deriveInner]
    simp
  have atName := ahead_advance inner
  have behindName := ahead_advance atName
  have atList := ahead_advance behindName
  obtain ⟨_, listed, _, _⟩ := ReadsBalanced.encloses list.readsBalanced rfl atList
  -- the offsets of all these places, counted from the start
  have size : (deriveInner t t' l t'').length = t.length + 6 + t'.length + l.length + 2 + t''.length := by
    simp [deriveInner]
    omega
  let name := (c.advance 2).advance t.length
  let close := (c.advance 1).advance ((deriveInner t t' l t'').length + 1)
  let paren := (name.advance ("derive" : Text).length).advance t'.length
  have path : name.upTo close.offset = "derive" ++ (t' ++ '(' :: (l ++ ')' :: t'')) := by
    have cut : name.ahead = ("derive" ++ (t' ++ '(' :: (l ++ ')' :: t''))) ++ ']' :: tail := by
      rw [atName]
      simp
    refine upTo_of_ahead cut ?_
    simp only [close, name, advance_offset, size, List.length_append, List.length_cons]
    show _ = _ + (6 + _)
    omega
  -- a path could go on behind trivia, but the parenthesis ends it
  have length : Text.pathLength (name.upTo close.offset) = ("derive" : Text).length := by
    rw [path, pathLength_derive between]
  refine ⟨close, name, paren, paren.offset + 1, ?_⟩
  constructor
  case closing => exact closing_ok_iff.mpr ⟨_, encloses⟩
  case toPath => exact before.trivia inner (trivium?_of_first (by rw [atName]; rfl) rfl (by decide))
  case named =>
    rw [length]
    decide
  case toArgs =>
    rw [length]
    exact between.trivia behindName (trivium?_of_first (by rw [atList]; rfl) rfl (by decide))
  case path =>
    rw [length, atName, List.take_left]
    rfl
  case text =>
    refine (upTo_of_ahead eq ?_).symm
    simp only [close, advance_offset, List.length_append]
    show _ = _ + (2 + _ + 1)
    omega
  case start => rfl
  case stop =>
    simp only [close, advance_offset, List.length_append]
    show c.offset + (2 + _ + 1) = _
    omega
  case args =>
    have within : paren.offset < close.offset := by
      simp only [close, paren, name, advance_offset, size]
      show _ + 6 + _ < _
      omega
    have args : (paren.advance 1).upTo (paren.advance (l.length + 1)).offset = l := by
      refine upTo_of_ahead (w := ')' :: (t'' ++ ']' :: tail)) (by rw [advance_ahead, atList]; rfl) ?_
      simp only [advance_offset]
      omega
    refine .inl ⟨⟨within, sees_iff.mpr ⟨_, atList⟩⟩, _, closing_ok_iff.mpr ⟨_, listed⟩, ?_⟩
    rw [args]

/-- Over all of `w` a derive of these paths is read, where it stands at offset `i` of the source. -/
structure Attribute.IsDeriveOf (source : Text) (i : Nat) (w : Text) (ps : List TraitPath) (attr : Attribute) :
    Prop where
  read : (source.cursor i).readAttribute = .ok attr
  span : attr.span = ⟨i, i + w.length⟩
  metadata : Metadata.ofAttribute attr = .ok ⟨.derive, w, ps.map (·.text)⟩

/-- **A derive is read as its paths, in order.** -/
theorem IsDerive.read {source : Text} {i : Nat} (h : IsDerive ps w) (eq : (source.cursor i).ahead = w ++ tail) :
    ∃ attr : Attribute, attr.IsDeriveOf source i w ps := by
  obtain ⟨before, between, list, behind⟩ := h
  obtain ⟨close, head, next, start, parts⟩ := attributeParts_derive before between list behind eq
  exact ⟨_, readAttribute_ok_iff.mpr ⟨close, head, next, parts⟩, rfl,
    Metadata.ofAttribute_derive rfl list.traits rfl⟩

/-! ## §2. Printing a derive. -/

theorem IsNames.plain {qs : List Text} (h : IsNames qs n w) : IsNames qs n (joinedNames qs n) := by
  induction h with
  | last h => exact .last h
  | @more q n t t' w qs h before after rest ih =>
      rw [joinedNames_cons]
      show IsNames _ _ (q ++ ([] ++ (("::" : Text) ++ ([] ++ joinedNames qs n))))
      exact .more h .nil .nil ih

namespace TraitPath

variable {p : TraitPath}

/-- A path is written without trivia, too. -/
theorem IsWritten.plain (h : p.IsWritten w) : p.IsWritten p.text := by
  cases h with
  | bare root names =>
      rw [text_bare root]
      exact .bare root names.plain
  | rooted root after names =>
      rw [text_rooted root]
      show p.IsWritten (("::" : Text) ++ ([] ++ joinedNames p.qualifiers p.name))
      exact .rooted root .nil names.plain

theorem IsWritten.isEntry (h : p.IsWritten w) : p.IsEntry w := by
  have entry : p.IsEntry ([] ++ (w ++ [])) := ⟨.nil, h, .nil⟩
  rwa [List.nil_append, List.append_nil] at entry

end TraitPath

theorem IsTraitList.plain (h : IsTraitList ps l) : ∀ p ∈ ps, p.IsWritten p.text := by
  have path {p : TraitPath} {u : Text} (entry : p.IsEntry u) : p.IsWritten p.text := by
    obtain ⟨_, path, _⟩ := entry
    exact path.plain
  induction h with
  | nil => exact nofun
  | last entry => exact List.forall_mem_singleton.mpr (path entry)
  | more entry rest ih => exact List.forall_mem_cons.mpr ⟨path entry, ih⟩

theorem isTraitList_join (plain : ∀ p ∈ ps, p.IsWritten p.text) :
    IsTraitList ps (Text.join ", " (ps.map (·.text))) := by
  induction ps with
  | nil => exact .nil .nil
  | cons p ps ih =>
      obtain ⟨first, others⟩ := List.forall_mem_cons.mp plain
      cases ps with
      | nil =>
          rw [List.map_singleton, Text.join, List.intercalate_singleton]
          exact .last first.isEntry
      | cons p' ps =>
          have rest := (ih others).prepend .space
          rw [List.map_cons, List.map_cons, Text.join, List.intercalate_cons_cons, List.append_assoc]
          exact .more first.isEntry rest

/-- **What is printed of paths is a derive of them.** -/
theorem isDerive_derive (plain : ∀ p ∈ ps, p.IsWritten p.text) :
    IsDerive ps (Metadata.derive (ps.map (·.text))).text := by
  have derive := IsDerive.mk .nil .nil (isTraitList_join plain) .nil
  have eq : (Metadata.derive (ps.map (·.text))).text
      = "#[" ++ deriveInner [] [] (Text.join ", " (ps.map (·.text))) [] ++ "]" := by
    simp [Metadata.derive, deriveInner]
  rw [eq]
  exact derive

/-! ## §3. Taking a trait out. -/

theorem startsWith_colons_of_ne {ch : Char} (other : ':' ≠ ch) (w : Text) :
    Text.startsWith (ch :: w) "::" = false := by
  show (':' == ch && _) = false
  rw [beq_eq_false_iff_ne.mpr other, Bool.false_and]

theorem segments_append (h : ':' ∉ q) (w : Text) : Text.segments (q ++ ("::" ++ w)) = q :: Text.segments w := by
  unfold Text.segments
  induction q with
  | nil => rfl
  | cons ch q ih =>
      rw [List.mem_cons, not_or] at h
      rw [List.cons_append, Text.segments.go, if_neg (by decide), startsWith_colons_of_ne h.1, ih h.2]
      rfl

theorem segments_of_not_mem (h : ':' ∉ n) : Text.segments n = [n] := by
  unfold Text.segments
  induction n with
  | nil => rfl
  | cons ch n ih =>
      rw [List.mem_cons, not_or] at h
      rw [Text.segments.go, if_neg (by decide), startsWith_colons_of_ne h.1, ih h.2]
      rfl

theorem IsNames.segments {qs : List Text} (h : IsNames qs n w) :
    Text.segments (joinedNames qs n) = qs ++ [n] := by
  induction h with
  | last h => exact segments_of_not_mem (h.not_mem rfl)
  | more h before after rest ih =>
      rw [joinedNames_cons, segments_append (h.not_mem rfl), ih]
      rfl

/-- The last segment of a path is its name. -/
theorem TraitPath.IsWritten.lastSegment {p : TraitPath} (h : p.IsWritten w) : Text.lastSegment p.text = p.name := by
  unfold Text.lastSegment
  cases h with
  | bare root names => rw [TraitPath.text_bare root, names.segments, List.getLastD_concat]
  | rooted root after names =>
      -- nothing stands in front of the root
      have front := segments_append List.not_mem_nil (joinedNames p.qualifiers p.name)
      rw [List.nil_append] at front
      rw [TraitPath.text_rooted root, front, names.segments, List.getLastD_cons, List.getLastD_concat]

theorem IsDerive.isWritten (h : IsDerive ps w) : ∀ p ∈ ps, p.IsWritten p.text := by
  obtain ⟨_, _, list, _⟩ := h
  exact list.plain

namespace Attribute.IsDeriveOf

variable {source trait : Text} {i : Nat} {attr : Attribute}

/-- A derive names a trait where one of its paths ends in it. -/
theorem derives_iff (h : attr.IsDeriveOf source i w ps) (written : ∀ p ∈ ps, p.IsWritten p.text) :
    attr.derives trait = true ↔ ∃ p ∈ ps, p.name = trait := by
  rw [Attribute.derives, h.metadata]
  simp only [decide_true, Bool.true_and, List.any_map, List.any_eq_true, Function.comp_apply, decide_eq_true_eq]
  refine exists_congr fun p => and_congr_right fun mem => ?_
  rw [(written p mem).lastSegment]

/-- Nothing is taken out of a derive just where none of its paths ends in the trait. -/
theorem untouched_iff (h : attr.IsDeriveOf source i w ps) (written : ∀ p ∈ ps, p.IsWritten p.text) :
    attr.withoutTrait? source trait = .ok none ↔ ∀ p ∈ ps, p.name ≠ trait := by
  have named : attr.derives trait = true ↔ ∃ p ∈ ps, p.name = trait := h.derives_iff written
  obtain ⟨edit?, found⟩ := Attribute.exists_withoutTrait? source trait ⟨_, h.metadata⟩
  rcases Attribute.withoutTrait?_ok found with ⟨other, rfl⟩ | ⟨derives, edit, rfl, _⟩
  · refine ⟨fun _ p mem same => ?_, fun _ => found⟩
    rw [named.mpr ⟨p, mem, same⟩] at other
    cases other
  · refine ⟨fun same => ?_, fun none => ?_⟩
    · rw [found] at same
      cases same
    · obtain ⟨p, mem, same⟩ := named.mp derives
      exact absurd same (none p mem)

/-- What is put in the place of a derive that names the trait. -/
theorem exists_edit (h : attr.IsDeriveOf source i w ps) (written : ∀ p ∈ ps, p.IsWritten p.text)
    (named : ∃ p ∈ ps, p.name = trait) : ∃ edit, attr.withoutTrait? source trait = .ok (some edit)
      ∧ edit = if (ps.filter (·.name ≠ trait)).isEmpty then source.removal attr.span
          else ⟨i, i + w.length, (Metadata.derive ((ps.filter (·.name ≠ trait)).map (·.text))).text⟩ := by
  obtain ⟨edit?, found⟩ := Attribute.exists_withoutTrait? source trait ⟨_, h.metadata⟩
  rcases Attribute.withoutTrait?_ok found with ⟨other, _⟩ | ⟨_, edit, rfl, entry, metadata, eq⟩
  · rw [(h.derives_iff written).mpr named] at other
    cases other
  · refine ⟨edit, found, ?_⟩
    rw [h.metadata] at metadata
    cases metadata
    have rest : (ps.map (·.text)).filter (Text.lastSegment · ≠ trait)
        = (ps.filter (·.name ≠ trait)).map (·.text) := by
      rw [List.filter_map]
      congr 1
      refine List.filter_congr fun p mem => ?_
      rw [Function.comp_apply, (written p mem).lastSegment]
    have start : attr.start = i := congrArg Span.start h.span
    have stop : attr.stop = i + w.length := congrArg Span.stop h.span
    simpa only [rest, start, stop, List.isEmpty_map] using eq

end Attribute.IsDeriveOf

/-- **A trait is taken out of a derive.**  Nothing is to be done where no path ends in the trait.
Where all do, the derive goes, and besides it only blanks; otherwise all of it is replaced by a derive
of the other paths, in which the trait is not found again. -/
theorem IsDerive.trait_taken_out {source : Text} {i : Nat} (h : IsDerive ps w)
    (eq : (source.cursor i).ahead = w ++ tail) :
    ∃ attr : Attribute, attr.IsDeriveOf source i w ps ∧ ∀ trait,
      (attr.withoutTrait? source trait = .ok none ↔ ∀ p ∈ ps, p.name ≠ trait)
      ∧ ((∃ p ∈ ps, p.name = trait) → ∃ edit, attr.withoutTrait? source trait = .ok (some edit)
        ∧ ((∀ p ∈ ps, p.name = trait) → RemovalSpec source ⟨i, i + w.length⟩ edit)
        ∧ ((∃ p ∈ ps, p.name ≠ trait) → edit.start = i ∧ edit.stop = i + w.length
          ∧ ∀ source' j tail', (source'.cursor j).ahead = edit.replacement ++ tail' →
            ∃ attr' : Attribute,
              attr'.IsDeriveOf source' j edit.replacement (ps.filter (·.name ≠ trait))
              ∧ attr'.withoutTrait? source' trait = .ok none)) := by
  obtain ⟨attr, derive⟩ := h.read eq
  have written := h.isWritten
  refine ⟨attr, derive, fun trait => ⟨derive.untouched_iff written, fun named => ?_⟩⟩
  obtain ⟨edit, found, shape⟩ := derive.exists_edit written named
  refine ⟨edit, found, fun all => ?_, fun ⟨p, mem, other⟩ => ?_⟩
  · have none : (ps.filter (·.name ≠ trait)).isEmpty = true := by
      rw [List.isEmpty_iff, List.filter_eq_nil_iff]
      exact fun p mem => by simpa using all p mem
    rw [if_pos none, derive.span] at shape
    rw [shape]
    refine removal_spec ?_
    -- what is ahead of the offset is no longer than what the source has there
    have size : (source.drop i).length = w.length + tail.length := by
      rw [← List.length_append, ← eq]
      rfl
    have filled : 0 < w.length := by
      obtain ⟨_, _, _, _⟩ := h
      exact Nat.succ_pos _
    rw [List.length_drop] at size
    show i + w.length ≤ source.length
    omega
  · have some : (ps.filter (·.name ≠ trait)).isEmpty = false := by
      rw [List.isEmpty_eq_false_iff_exists_mem]
      exact ⟨p, List.mem_filter.mpr ⟨mem, decide_eq_true other⟩⟩
    rw [if_neg (by rw [some]; exact Bool.false_ne_true)] at shape
    rw [shape]
    refine ⟨rfl, rfl, fun source' j tail' eq' => ?_⟩
    -- what has been printed is a derive of the others, and it is read like any derive
    have others : ∀ p ∈ ps.filter (·.name ≠ trait), p.IsWritten p.text :=
      fun p mem => written p (List.mem_of_mem_filter mem)
    obtain ⟨attr', again⟩ := (isDerive_derive others).read eq'
    refine ⟨attr', again, (again.untouched_iff others).mpr fun p mem => ?_⟩
    exact of_decide_eq_true (List.mem_filter.mp mem).2

/-- A derive that names a trait twice, with a comma and its own end in comments. -/
def spreadDerive : Text :=
  "#[derive /* of */ (Debug, /* , */ ::core :: clone::Clone,Clone, // )]\n)]"

theorem isDerive_spreadDerive :
    IsDerive [⟨false, [], "Debug"⟩, ⟨true, ["core", "clone"], "Clone"⟩, ⟨false, [], "Clone"⟩] spreadDerive := by
  have of : IsTrivia " /* of */ " := .blank rfl (.comment (.block (u := " of */") rfl) .space)
  have comma : IsTrivia " /* , */ " := .blank rfl (.comment (.block (u := " , */") rfl) .space)
  have close : IsTrivia " // )]\n" := .blank rfl (.comment (.line (u := " )]") (by decide)) .nil)
  have segment {n : Text} (more : n ≠ []) (all : n.all isSegmentChar = true) : IsSegment n :=
    ⟨more, List.all_eq_true.mp all⟩
  have core : IsSegment "core" := segment nofun rfl
  have clone : IsSegment "clone" := segment nofun rfl
  have last : IsNames [] "Clone" "Clone" := .last (segment nofun rfl)
  have names : IsNames ["core", "clone"] "Clone" "core :: clone::Clone" :=
    .more core .space .space (.more clone .nil .nil last)
  have debug : TraitPath.IsWritten ⟨false, [], "Debug"⟩ "Debug" := .bare rfl (.last (segment nofun rfl))
  have rooted : TraitPath.IsWritten ⟨true, ["core", "clone"], "Clone"⟩ "::core :: clone::Clone" :=
    .rooted rfl .nil names
  have bare : TraitPath.IsWritten ⟨false, [], "Clone"⟩ "Clone" := .bare rfl last
  exact .mk .nil of (.more ⟨.nil, debug, .nil⟩ (.more ⟨comma, rooted, .nil⟩
    (.more ⟨.nil, bare, .nil⟩ (.nil close)))) .nil

theorem spreadDerive_trait_taken_out : ∃ attr : Attribute, (spreadDerive.cursor 0).readAttribute = .ok attr
    ∧ attr.withoutTrait? spreadDerive "Copy" = .ok none
    ∧ ∃ edit, attr.withoutTrait? spreadDerive "Clone" = .ok (some edit)
      ∧ edit.start = 0 ∧ edit.stop = spreadDerive.length
      ∧ ∃ attr' : Attribute, (edit.replacement.cursor 0).readAttribute = .ok attr'
        ∧ Metadata.ofAttribute attr' = .ok ⟨.derive, edit.replacement, ["Debug"]⟩
        ∧ attr'.withoutTrait? edit.replacement "Clone" = .ok none := by
  have whole : (spreadDerive.cursor 0).ahead = spreadDerive ++ [] := (List.append_nil _).symm
  obtain ⟨attr, derive, taken⟩ := IsDerive.trait_taken_out isDerive_spreadDerive whole
  obtain ⟨edit, found, _, shortened⟩ := (taken "Clone").2 (by decide)
  obtain ⟨start, stop, again⟩ := shortened (by decide)
  obtain ⟨attr', derive', none⟩ := again edit.replacement 0 [] (List.append_nil _).symm
  refine ⟨attr, derive.read, (taken "Copy").1.mpr (by decide), edit, found, start, ?_, attr', derive'.read,
    derive'.metadata, none⟩
  rw [stop, Nat.zero_add]

end EnumExtract
