/-
  EnumExtract.Proofs.Grammar.TypeNesting
  ────────────────────────────────
  The types of the grammar are types of a list.

  The tokens of a type close the brackets that they open, angle brackets among
  them.  `Layers o t` says of a text in front of which the brackets `o` are open
  that it closes them one after the other, with code of types up to each closing
  bracket; a token in front of the text makes a layer longer, opens one or closes one.

  A closing angle bracket without its opening one passes for a token like any
  other.  That there is none is seen from tokens that are read twice, the second
  time with one more angle bracket open: it is still open at the end.

  Main results:
    • `Layers.step`        a token in front of layers,
    • `Spaced.layers`      tokens that close what is open are layers,
    • `TypeSyntax.isType`    the text of a type of the grammar is a type of a list.
-/
import EnumExtract.Proofs.Grammar.TypeLists

namespace EnumExtract

open Cursor

/-! ## §1. Layers. -/

/-- The region of what stands where the brackets are open. -/
def Opened.region : Opened → Region
  | ⟨_ :: _, _⟩ => .brackets
  | ⟨[], _ + 1⟩ => .angles
  | ⟨[], 0⟩ => .list

/-- The text closes the open brackets one after the other. -/
inductive Layers : Opened → Text → Prop where
  | last {w : Text} (code : IsTypeCode .list w) : Layers ⟨[], 0⟩ w
  | angles {n : Nat} {u w : Text} (code : IsTypeCode .angles u)
      (operator : ∀ ch, u.getLast? = some ch → ch ≠ '-' ∧ ch ≠ '=') (outer : Layers ⟨[], n⟩ w) :
      Layers ⟨[], n + 1⟩ (u ++ '>' :: w)
  | brackets {closer : Char} {closers : List Char} {n : Nat} {u w : Text} (closes : isCloser closer = true)
      (code : IsTypeCode .brackets u) (outer : Layers ⟨closers, n⟩ w) :
      Layers ⟨closer :: closers, n⟩ (u ++ closer :: w)

namespace Layers

variable {o o' : Opened} {v w : Text}

/-- What goes in front of code of the region goes in front of the innermost layer. -/
theorem prepend (build : ∀ {u}, u <+: w → IsTypeCode o.region u → IsTypeCode o.region (v ++ u))
    (operator : w.head? = some '>' → ∀ ch, v.getLast? = some ch → ch ≠ '-' ∧ ch ≠ '=')
    (h : Layers o w) : Layers o (v ++ w) := by
  cases h with
  | last code => exact .last (build (List.prefix_refl _) code)
  | @angles n u w code operator' outer =>
      rw [← List.append_assoc]
      refine .angles (build (List.prefix_append _ _) code) (fun ch last => ?_) outer
      rw [List.getLast?_append] at last
      cases u with
      | nil => exact operator rfl ch (by simpa using last)
      | cons a u =>
          rw [List.getLast?_cons, Option.some_or] at last
          exact operator' ch (by rw [List.getLast?_cons, last])
  | brackets closes code outer =>
      rw [← List.append_assoc]
      exact .brackets closes (build (List.prefix_append _ _) code) outer

theorem group {opener closer : Char} (pair : closer? opener = some closer) (h : Layers (o.push closer) w) :
    Layers o (opener :: w) := by
  obtain ⟨closers, n⟩ := o
  cases h with
  | @brackets _ _ _ u w closes code outer =>
      have plain : closer ≠ '-' ∧ closer ≠ '=' := by constructor <;> rintro rfl <;> cases closes
      have whole := outer.prepend (v := opener :: u ++ [closer])
        (fun _ rest => by simpa using IsTypeCode.group pair code rest)
        (fun _ ch last => by
          rw [List.getLast?_concat] at last
          cases last
          exact plain)
      simpa using whole

theorem pop {closer : Char} (closes : isCloser closer = true) (open' : o.pop closer = some o')
    (h : Layers o' w) : Layers o (closer :: w) := by
  obtain ⟨closers, n⟩ := o
  cases closers with
  | nil => cases open'
  | cons innermost outer =>
      simp only [Opened.pop, Option.ite_none_right_eq_some, Option.some.injEq] at open'
      obtain ⟨rfl, rfl⟩ := open'
      exact .brackets (u := []) closes .nil h

theorem generics {n : Nat} (h : Layers ⟨[], n + 1⟩ w) : Layers ⟨[], n⟩ ('<' :: w) := by
  cases h with
  | @angles _ u w code operator outer =>
      have whole := outer.prepend (v := '<' :: u ++ ['>'])
        (fun _ rest => by simpa using IsTypeCode.generics operator code rest)
        (fun _ ch last => by
          rw [List.getLast?_concat] at last
          cases last
          decide)
      simpa using whole

end Layers

/-! ## §2. Tokens in front of layers. -/

theorem Text.Sealed.of_isPrefix {u w : Text} (h : w.Sealed) (pre : u <+: w) : u.Sealed := by
  obtain ⟨v, rfl⟩ := pre
  intro ch first
  obtain ⟨u, rfl⟩ := List.head?_eq_some_iff.mp first
  exact h ch rfl

/-- What is a token of its own outside all brackets is one everywhere. -/
theorem Region.allows_of_list {ch : Char} (h : Region.list.allows ch = true) (r : Region) : r.allows ch = true := by
  simp only [allows, Bool.and_eq_true] at h
  obtain ⟨⟨⟨mark, less⟩, greater⟩, _⟩ := h
  cases r <;> simp_all [allows]

namespace IsTypeCode

variable {r : Region} {u : Text}

/-- A word to which nothing is glued. -/
theorem sealedWord {w : Text} (word : ∀ ch ∈ w, isWord ch = true) (sealed : u.Sealed) (rest : IsTypeCode r u) :
    IsTypeCode r (w ++ u) :=
  .word word (fun ch first => (sealed ch first).1) (fun _ => sealed.noRaw) rest

theorem gap {b : Text} (blank : IsGap b) (rest : IsTypeCode r u) : IsTypeCode r (b ++ u) := by
  induction b with
  | nil => exact rest
  | cons ch b ih =>
      have isBlank := blank ch List.mem_cons_self
      have other (x : Char) (plain : EnumExtract.isBlank x = false) : (ch != x) = true :=
        bne_iff_ne.mpr (ne_of_isBlank isBlank plain)
      have allowed : Region.list.allows ch = true := by
        rw [Region.allows, isTreeMark_of_isBlank isBlank, other '<' rfl, other '>' rfl, other ',' rfl]
        rfl
      exact .mark (r.allows_of_list allowed) (ih fun ch mem => blank ch (List.mem_cons_of_mem _ mem))

theorem identifier (i : Identifier) (sealed : u.Sealed) (rest : IsTypeCode r u) : IsTypeCode r (i.text ++ u) := by
  rcases i.isIdentifier with name | ⟨n, name, raw⟩
  · exact sealedWord name.isWord sealed rest
  · -- the letter of a raw name opens no raw string, for a name stands behind its hash
    have hash : ∀ hashes v, '#' :: (n ++ u) ≠ List.replicate hashes '#' ++ '"' :: v := by
      intro hashes v eq
      obtain ⟨ch, n, rfl, start, _⟩ := name
      match hashes with
      | 0 => cases (List.cons.inj eq).1
      | 1 =>
          rw [(List.cons.inj (List.cons.inj eq).2).1] at start
          cases start
      | k + 2 =>
          rw [(List.cons.inj (List.cons.inj eq).2).1] at start
          cases start
    rw [raw]
    refine .word (u := ['r']) (by decide) (by rintro _ ⟨⟩; rfl) (fun _ => hash) ?_
    exact .mark (r.allows_of_list rfl) (sealedWord name.isWord sealed rest)

/-- Words with points between them, behind the word `w`. -/
theorem words {v : Text} (inside : ∀ ch ∈ v, isWord ch = true ∨ ch = '.') (sealed : u.Sealed) (rest : IsTypeCode r u) :
    ∀ {w : Text}, (∀ ch ∈ w, isWord ch = true) → IsTypeCode r (w ++ (v ++ u)) := by
  induction v with
  | nil => exact fun word => sealedWord word sealed rest
  | cons ch v ih =>
      intro w word
      obtain ⟨first, behind⟩ := List.forall_mem_cons.mp inside
      rcases first with isWord | rfl
      · have all := ih behind (List.forall_mem_append.mpr ⟨word, List.forall_mem_singleton.mpr isWord⟩)
        simpa using all
      · have noRaw : ∀ hashes x, '.' :: (v ++ u) ≠ List.replicate hashes '#' ++ '"' :: x := by
          intro hashes x eq
          cases hashes <;> cases (List.cons.inj eq).1
        exact .word word (by rintro _ ⟨⟩; rfl) (fun _ => noRaw)
          (.mark (r.allows_of_list rfl) (ih behind (List.forall_mem_nil _)))

/-- A literal is a lexeme behind its letters. -/
theorem literal (l : Literal) (rest : IsTypeCode r u) : IsTypeCode r (l.text ++ u) := by
  have lexeme : IsTypeCode r (l.lexeme ++ u) := by
    refine .lexeme ?_ rest
    cases l with
    | string _ _ _ h => exact .string h
    | rawString _ _ _ mem closed => exact .rawString mem closed
    | character _ _ _ h => exact .character h
  rw [Literal.text, List.append_assoc]
  by_cases none : l.letters = []
  · rwa [none]
  · obtain ⟨word, free⟩ := l.letters_plain
    exact .word word (l.not_isWord_of_lexeme none u) (fun raw => absurd raw free) lexeme

theorem lifetime (l : Lifetime) (sealed : u.Sealed) (rest : IsTypeCode r u) :
    IsTypeCode r ('\'' :: l.name ++ u) := by
  have name := sealedWord l.isName.isWord sealed rest
  obtain ⟨ch, v, eq, start, word⟩ := l.isName
  rw [eq] at name ⊢
  refine .tick ?_ ?_ name
  · rintro rfl
    cases start
  · refine head?_append_ne (fun first => ?_) fun first => (sealed '\'' first).2.2.2 rfl
    have tick := word '\'' (List.mem_of_head? first)
    cases tick

end IsTypeCode

namespace Layers

variable {o o' : Opened} {w : Text} {tok : Token}

/-- A token that is no bracket and no comma. -/
theorem token (apart : tok.Apart w)
    (build : ∀ {u}, u <+: w → IsTypeCode o.region u → IsTypeCode o.region (tok.text ++ u)) (h : Layers o w) :
    Layers o (tok.text ++ w) := by
  refine h.prepend build fun angle ch last => ?_
  -- what stands in front of an angle bracket is known where the token is read
  have clear := Token.clear (c := ⟨none, 0, tok.text ++ w⟩) rfl apart
  refine clear.angle (by rwa [ahead_advance rfl]) ch ?_
  rw [before_behind rfl tok.text_ne_nil, last]

/-- A character that no closing angle bracket belongs to. -/
theorem char {ch : Char} (allowed : o.region.allows ch = true) (plain : ch ≠ '-' ∧ ch ≠ '=')
    (h : Layers o w) : Layers o (ch :: w) := by
  refine h.prepend (v := [ch]) (fun _ => .mark allowed) fun _ _ last => ?_
  cases last
  exact plain

theorem comma (inside : ¬ o.Cuts) (h : Layers o w) : Layers o (',' :: w) := by
  refine h.char ?_ (by decide)
  match o with
  | ⟨_ :: _, _⟩ | ⟨[], _ + 1⟩ => rfl
  | ⟨[], 0⟩ => exact absurd ⟨rfl, rfl⟩ inside

end Layers

/-! ## §3. Types of the grammar. -/

/-- One more angle bracket is open. -/
def Opened.deeper (o : Opened) : Opened :=
  ⟨o.closers, o.angles + 1⟩

theorem Opened.pop_deeper {o o' : Opened} {closer : Char} (h : o.pop closer = some o') :
    o.deeper.pop closer = some o'.deeper := by
  obtain ⟨closers, n⟩ := o
  cases closers with
  | nil => cases h
  | cons innermost outer =>
      simp only [pop, Option.ite_none_right_eq_some, Option.some.injEq] at h
      obtain ⟨rfl, rfl⟩ := h
      simp [pop, deeper]

/-- One more angle bracket stays open behind a token, unless the token closes none of the others. -/
theorem Token.track_deeper {tok : Token} {o o₁ o₂ : Opened} (h : tok.track o = some o₁)
    (h' : tok.track o.deeper = some o₂) : o₂ = o₁.deeper ∨ o₂ = o₁ := by
  cases tok with
  | mark m =>
      cases m with
      | closeParen | closeBracket | closeBrace =>
          exact .inl (Option.some.inj (h'.symm.trans (Opened.pop_deeper h)))
      | less =>
          match o with
          | ⟨[], _⟩ | ⟨_ :: _, _⟩ =>
              cases h
              cases h'
              exact .inl rfl
      | greater =>
          match o with
          | ⟨[], 0⟩ =>
              cases h
              cases h'
              exact .inr rfl
          | ⟨[], _ + 1⟩ | ⟨_ :: _, _⟩ =>
              cases h
              cases h'
              exact .inl rfl
      | comma | fatArrow =>
          rw [track, Mark.track] at h h'
          split at h
          next => cases h
          next =>
            split at h'
            next => cases h'
            next =>
              cases h
              cases h'
              exact .inl rfl
      | _ =>
          cases h
          cases h'
          exact .inl rfl
  | _ =>
      cases h
      cases h'
      exact .inl rfl

/-- A token in front of layers. -/
theorem Layers.step {tok : Token} {o o' : Opened} {w : Text} (plain : tok.isNote = false) (apart : tok.Apart w)
    (track : tok.track o = some o') (deeper : tok.track o.deeper = some o'.deeper) (h : Layers o' w) :
    Layers o (tok.text ++ w) := by
  cases tok with
  | name i =>
      cases track
      exact h.token apart fun pre => .identifier i (apart.of_isPrefix pre)
  | number n =>
      cases track
      exact h.token apart fun pre code => .words n.word (apart.1.of_isPrefix pre) code (List.forall_mem_nil _)
  | lifetime l =>
      cases track
      exact h.token apart fun pre => .lifetime l (apart.of_isPrefix pre)
  | literal l =>
      cases track
      exact h.token apart fun _ => .literal l
  | note a => cases plain
  | mark m =>
      cases m with
      | openParen | openBracket | openBrace =>
          cases track
          exact h.group rfl
      | closeParen | closeBracket | closeBrace => exact h.pop rfl track
      | less =>
          match o with
          | ⟨[], _⟩ =>
              cases track
              exact h.generics
          | ⟨_ :: _, _⟩ =>
              cases track
              exact h.char rfl (by decide)
      | greater =>
          match o with
          | ⟨[], 0⟩ =>
              -- it closes nothing, so that one more open bracket would be closed by it
              cases track
              cases deeper
          | ⟨[], _ + 1⟩ =>
              cases track
              exact .angles (u := []) .nil nofun h
          | ⟨_ :: _, _⟩ =>
              cases track
              exact h.char rfl (by decide)
      | comma =>
          rw [Token.track, Mark.track] at track
          split at track
          next => cases track
          next inside =>
            cases track
            exact h.comma inside
      | arrow =>
          cases track
          exact h.token apart fun _ => .arrow
      | fatArrow =>
          rw [Token.track, Mark.track] at track
          split at track
          next => cases track
          next inside =>
            cases track
            refine h.token apart fun _ code => ?_
            obtain ⟨_ | ⟨closer, closers⟩, angles⟩ := o
            · exact absurd rfl inside
            · exact .mark rfl (.mark rfl code)
      | slash =>
          cases track
          have stays {u : Text} {ch : Char} (pre : u <+: w) (other : w.head? ≠ some ch) : u.head? ≠ some ch := by
            obtain ⟨v, rfl⟩ := pre
            intro first
            obtain ⟨u, rfl⟩ := List.head?_eq_some_iff.mp first
            exact other rfl
          exact h.token apart fun pre => .slash (stays pre apart.1) (stays pre apart.2)
      | colons =>
          cases track
          exact h.token apart fun _ code =>
            .mark (Region.allows_of_list rfl _) (.mark (Region.allows_of_list rfl _) code)
      | _ =>
          cases track
          exact h.token apart fun _ => .mark (Region.allows_of_list rfl _)

/-- **Tokens that close what is open are layers.** -/
theorem Spaced.layers {ts : List Token} {t : Text} (h : Spaced [] ts t) (plain : ∀ tok ∈ ts, tok.isNote = false) :
    ∀ {o : Opened}, o.track ts = some .start → o.deeper.track ts = some Opened.start.deeper → Layers o t := by
  induction h with
  | nil blank =>
      rintro _ ⟨⟩ _
      exact .last (.gap blank .nil)
  | @cons gap w tok ts blank apart rest ih =>
      intro o track track'
      obtain ⟨o₁, first, later⟩ := Option.bind_eq_some_iff.mp track
      obtain ⟨o₂, first', later'⟩ := Option.bind_eq_some_iff.mp track'
      have here : Layers o (tok.text ++ w) := by
        rcases Token.track_deeper first first' with rfl | rfl
        · have layers := ih (fun tok mem => plain tok (List.mem_cons_of_mem _ mem)) later later'
          exact layers.step (plain tok List.mem_cons_self) apart first first'
        · -- from the same brackets the tokens behind cannot come to different ends
          have same := Option.some.inj (later.symm.trans later')
          cases congrArg Opened.angles same
      refine here.prepend (fun _ => .gap blank) fun _ ch last => ?_
      have isBlank := blank ch (List.mem_of_getLast? last)
      exact ⟨ne_of_isBlank isBlank rfl, ne_of_isBlank isBlank rfl⟩

/-- **The text of a type of the grammar is a type of a list.** -/
theorem TypeSyntax.isType (t : TypeSyntax) {w : Text} (h : Spaced [] t.tokens w)
    (first : ∀ ch ∈ w.head?, isBlank ch = false) (last : w.trimEnd = w) : IsType w := by
  have layers := h.layers t.noNote (t.track .start) (t.track _)
  refine ⟨?_, ?_, last⟩
  · cases layers with
    | last code => exact code
  · obtain ⟨b, _, rfl, blank, ⟨none, _⟩ | ⟨tok, us, v, cons, rfl, _, _⟩⟩ := h.exists_gap
    · exact absurd none t.beginType.ne_nil
    · have opens := t.beginType.opens tok (by rw [cons]; rfl)
      have plain := t.noNote tok (by rw [cons]; exact List.mem_cons_self)
      cases b with
      | cons ch b =>
          have isBlank := blank ch List.mem_cons_self
          rw [first ch rfl] at isBlank
          cases isBlank
      | nil =>
          obtain ⟨ch, u, eq⟩ := List.exists_cons_of_ne_nil tok.text_ne_nil
          exact ⟨ch, u ++ v, by rw [eq]; rfl, first ch (by rw [eq]; rfl), Token.ne_slash_of_opensType plain opens eq⟩

end EnumExtract
