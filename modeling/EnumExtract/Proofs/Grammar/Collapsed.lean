/-
  EnumExtract.Proofs.Grammar.Collapsed
  ────────────────────────────────
  Types and scopes whose white space has been collapsed.

  Collapsing leaves a written type a text of the same tokens, but that the blanks in
  its literals are squeezed.  A scope stays a scope with one exception: where
  nothing but blanks stands behind `in`, one blank is left of them, and one blank
  is too few for a path.

  Main results:
    • `Spaced.collapse`          a collapsed type has the tokens that it had, its literals squeezed,
    • `TypeSyntax.collapsed`     and it is a type,
    • `Spaced.inFront`           and so has a type in front of something that is not glued to it,
    • `scopeLength?_collapse`    a collapsed scope is a scope, unless its path is blank.
-/
import EnumExtract.Proofs.Collapse
import EnumExtract.Proofs.Grammar.Enums

namespace EnumExtract

open Cursor

/-! ## §1. Types. -/

/-- No token is glued to the character behind it. -/
def isSeal (ch : Char) : Bool :=
  !(isWord ch || ch == '#' || ch == '"' || ch == '\'' || ch == '.' || ch == ':' || ch == '>' || ch == '/'
    || ch == '*')

theorem isSeal_plain {ch : Char} (h : isSeal ch = true) :
    isWord ch = false ∧ ch ≠ '#' ∧ ch ≠ '"' ∧ ch ≠ '\'' ∧ ch ≠ '.' ∧ ch ≠ ':' ∧ ch ≠ '>' ∧ ch ≠ '/'
      ∧ ch ≠ '*' := by
  simpa [isSeal, and_assoc] using h

theorem isSeal_of_isBlank {ch : Char} (h : isBlank ch = true) : isSeal ch = true := by
  have other (ch' : Char) (h' : isBlank ch' = false) : ch ≠ ch' := ne_of_isBlank h h'
  simp [isSeal, not_isWord_of_isBlank h, other '#' rfl, other '"' rfl, other '\'' rfl, other '.' rfl, other ':' rfl,
    other '>' rfl, other '/' rfl, other '*' rfl]

/-- What a token is glued to depends on the character behind it only. -/
theorem Token.Apart.of_first {tok : Token} {w w' : Text} (h : tok.Apart w)
    (first : ∀ ch, w'.head? = some ch → w.head? = some ch ∨ isSeal ch = true) : tok.Apart w' := by
  have sealed (h : w.Sealed) : w'.Sealed := fun ch h' => by
    rcases first ch h' with here | isSeal
    · exact h ch here
    · obtain ⟨word, hash, quote, tick, _⟩ := isSeal_plain isSeal
      exact ⟨word, hash, quote, tick⟩
  cases tok with
  | name | lifetime => exact sealed h
  | literal =>
      intro ch h'
      rcases first ch h' with here | isSeal
      · exact h ch here
      · exact (isSeal_plain isSeal).1
  | number =>
      refine ⟨sealed h.1, fun point => ?_⟩
      rcases first '.' point with here | isSeal
      · exact h.2 here
      · cases isSeal
  | note => trivial
  | mark m =>
      cases m with
      | colon =>
          intro colon
          rcases first ':' colon with here | isSeal
          · exact h here
          · cases isSeal
      | minus | equals =>
          intro angle
          rcases first '>' angle with here | isSeal
          · exact h here
          · cases isSeal
      | slash =>
          refine ⟨fun line => ?_, fun block => ?_⟩
          · rcases first '/' line with here | isSeal
            · exact h.1 here
            · cases isSeal
          · rcases first '*' block with here | isSeal
            · exact h.2 here
            · cases isSeal
      | _ => trivial

/-- Where no blank stands nothing is squeezed. -/
theorem Token.isRun {tok : Token} (plain : tok.isNote = false) (noLiteral : ∀ l, tok ≠ .literal l) :
    Text.IsRun tok.text := by
  have words {w : Text} (inside : ∀ ch ∈ w, isWord ch = true ∨ ch = '#' ∨ ch = '.') : Text.IsRun w := by
    intro ch mem
    rcases inside ch mem with word | rfl | rfl
    · exact not_isBlank_of_isWord word
    · rfl
    · rfl
  cases tok with
  | name i => exact words fun ch mem => (i.isIdentifier.isWord ch mem).imp_right .inl
  | number n => exact words fun ch mem => (n.word ch mem).imp_right .inr
  | lifetime l => exact List.forall_mem_cons.mpr ⟨rfl, words fun ch mem => .inl (l.isName.isWord ch mem)⟩
  | literal l => exact absurd rfl (noLiteral l)
  | mark m => cases m <;> decide
  | note => cases plain

/-! ### Squeezed literals. -/

theorem IsStringBody.squeeze {body : Text} (h : IsStringBody body) : IsStringBody body.squeeze := by
  induction h with
  | nil => exact .nil
  | @escape c w rest ih =>
      rw [Text.squeeze_cons rfl]
      cases blank : isBlank c with
      | false =>
          rw [Text.squeeze_cons blank]
          exact .escape ih
      | true =>
          rw [Text.squeeze_cons_of_blank blank]
          split
          next more =>
            -- the backslash takes the one space that is left
            obtain ⟨x, first, isBlank⟩ := (Option.any_eq_true _ _).mp more
            obtain ⟨v, rfl⟩ := List.head?_eq_some_iff.mp first
            have space := Text.head?_squeeze x v
            rw [if_pos isBlank] at space
            obtain ⟨u, eq⟩ := List.head?_eq_some_iff.mp space
            rw [eq] at ih ⊢
            cases ih with
            | plain _ _ rest => exact .escape rest
          next => exact .escape ih
  | @plain c w quote backslash rest ih =>
      cases blank : isBlank c with
      | false =>
          rw [Text.squeeze_cons blank]
          exact .plain quote backslash ih
      | true =>
          rw [Text.squeeze_cons_of_blank blank]
          split
          next => exact ih
          next => exact .plain (by decide) (by decide) ih

theorem not_isBlank_of_isHexDigit {d : Char} (h : isHexDigit d = true) : isBlank d = false := by
  by_contra blank
  rw [Bool.not_eq_false] at blank
  rw [not_isHexDigit_of_isFence (by rw [isFence, blank, Bool.or_true])] at h
  cases h

theorem CharacterTail.squeeze {rest : Text} (h : CharacterTail rest) : CharacterTail rest.squeeze := by
  have one {c : Char} : Text.squeeze [c, '\''] = [if isBlank c then ' ' else c, '\''] := by
    cases blank : isBlank c <;> simp [Text.squeeze, blank, show isBlank '\'' = false from rfl]
  cases h with
  | @hex a b ha hb =>
      have run : Text.IsRun ['\\', 'x', a, b, '\''] := by
        simpa [Text.IsRun, not_isBlank_of_isHexDigit ha, not_isBlank_of_isHexDigit hb] using
          (show isBlank '\\' = false ∧ isBlank 'x' = false ∧ isBlank '\'' = false from ⟨rfl, rfl, rfl⟩)
      rw [Text.squeeze_run run]
      exact .hex ha hb
  | @unicode digits some few hex =>
      have run : Text.IsRun ('\\' :: 'u' :: '\x7b' :: digits ++ ['\x7d', '\'']) := by
        refine List.forall_mem_append.mpr ⟨?_, by decide⟩
        exact List.forall_mem_cons.mpr ⟨rfl, List.forall_mem_cons.mpr ⟨rfl, List.forall_mem_cons.mpr
          ⟨rfl, fun d mem => not_isBlank_of_isHexDigit (hex d mem)⟩⟩⟩
      rw [Text.squeeze_run run]
      exact .unicode some few hex
  | @escape c feed =>
      rw [Text.squeeze_cons rfl, one]
      split
      next => exact .escape (by decide)
      next => exact .escape feed
  | @plain c escape tick feed =>
      rw [one]
      split
      next => exact .plain (by decide) (by decide) (by decide)
      next => exact .plain escape tick feed

namespace Literal

/-- The literal with its runs of blanks squeezed. -/
def collapsed : Literal → Literal
  | string u body mem h => string u body.squeeze mem h.squeeze
  | rawString u body hashes mem closed =>
      rawString u body.squeeze hashes mem fun inside => closed (Text.IsRun.infix_of_squeeze
        (List.forall_mem_cons.mpr ⟨rfl, fun ch mem => by rw [List.eq_of_mem_replicate mem]; rfl⟩)
        (List.cons_ne_nil _ _) inside)
  | character u rest mem h => character u rest.squeeze mem h.squeeze

theorem collapsed_text (l : Literal) : l.collapsed.text = l.text.squeeze := by
  have quoted {x : Char} (u body v : Text) (plain : isBlank x = false) (run : Text.IsRun u) (run' : Text.IsRun v) :
      Text.squeeze (u ++ x :: (body ++ x :: v)) = u ++ x :: (body.squeeze ++ x :: v) := by
    rw [Text.squeeze_append plain, Text.squeeze_append plain, Text.squeeze_run run, Text.squeeze_run run']
  cases l with
  | string u body mem h =>
      have plain : ∀ u ∈ stringLetters, Text.IsRun u := by decide
      have eq := quoted u body [] (x := '"') rfl (plain u mem) nofun
      simpa [collapsed, text, letters, lexeme] using eq.symm
  | rawString u body hashes mem closed =>
      have plain : ∀ u ∈ rawLetters, Text.IsRun u := by decide
      have hash : Text.IsRun (List.replicate hashes '#') := fun ch mem => by
        rw [List.eq_of_mem_replicate mem]
        rfl
      have eq := quoted (u ++ List.replicate hashes '#') body (List.replicate hashes '#') (x := '"') rfl
        (List.forall_mem_append.mpr ⟨plain u mem, hash⟩) hash
      simpa [collapsed, text, letters, lexeme, rawCloser] using eq.symm
  | character u rest mem h =>
      have plain : ∀ u ∈ characterLetters, Text.IsRun u := by decide
      show u ++ '\'' :: rest.squeeze = Text.squeeze (u ++ '\'' :: rest)
      rw [Text.squeeze_append rfl, Text.squeeze_run (plain u mem)]

theorem collapsed_startsName (l : Literal) : l.collapsed.startsName = l.startsName := by
  cases l <;> rfl

end Literal

namespace Token

/-- The token as it is in a collapsed text. -/
def collapsed : Token → Token
  | literal l => literal l.collapsed
  | tok => tok

theorem Apart.collapsed {tok : Token} {w : Text} (h : tok.Apart w) : tok.collapsed.Apart w := by
  cases tok <;> exact h

theorem isName_collapsed (tok : Token) : tok.collapsed.isName = tok.isName := by
  cases tok <;> rfl

theorem startsName_collapsed (tok : Token) : tok.collapsed.startsName = tok.startsName := by
  cases tok with
  | literal l => exact l.collapsed_startsName
  | _ => rfl

/-- A token begins and ends with a character that is not blank. -/
theorem exists_ends {tok : Token} (plain : tok.isNote = false) :
    (∃ ch v, tok.text = ch :: v ∧ isBlank ch = false) ∧ ∃ v ch, tok.text = v ++ [ch] ∧ isBlank ch = false := by
  by_cases literal : ∃ l, tok = .literal l
  · obtain ⟨l, rfl⟩ := literal
    obtain ⟨ch, mem, v, first, _⟩ := l.exists_first
    obtain ⟨u, ch', mem', last⟩ := l.exists_last
    have starts : ∀ ch ∈ literalStarts, isBlank ch = false := by decide
    have ends : ∀ ch ∈ ['"', '\'', '#'], isBlank ch = false := by decide
    exact ⟨⟨ch, v, first, starts ch mem⟩, u, ch', last, ends ch' mem'⟩
  · have run := isRun plain (not_exists.mp literal)
    obtain ⟨ch, v, first⟩ := List.exists_cons_of_ne_nil tok.text_ne_nil
    obtain ⟨u, ch', last⟩ := (List.eq_nil_or_concat' tok.text).resolve_left tok.text_ne_nil
    exact ⟨⟨ch, v, first, run ch (by rw [first]; simp)⟩, u, ch', last, run ch' (by rw [last]; simp)⟩

theorem collapsed_text {tok : Token} (plain : tok.isNote = false) : tok.collapsed.text = tok.text.squeeze := by
  by_cases literal : ∃ l, tok = .literal l
  · obtain ⟨l, rfl⟩ := literal
    exact l.collapsed_text
  · rw [Text.squeeze_run (isRun plain (not_exists.mp literal))]
    cases tok with
    | literal l => exact absurd ⟨l, rfl⟩ literal
    | _ => rfl

/-- A token in front of a text is squeezed when the text is collapsed. -/
theorem collapse_append {tok : Token} (plain : tok.isNote = false) (w : Text) :
    Text.collapse (tok.text ++ w) = tok.collapsed.text ++ (w.seam ++ w.collapse) := by
  obtain ⟨⟨x, u, first, solid⟩, v, ch, last, solid'⟩ := exists_ends plain
  have noSeam : Text.seam (tok.text ++ w) = [] := if_neg fun both => by
    rw [first, List.cons_append, List.head?_cons, Option.any_some, solid] at both
    cases both.1
  have squeezed := Text.collapse_squeeze (w := w) solid' v
  rw [collapsed_text plain]
  rw [← List.singleton_append, ← List.append_assoc, ← last, noSeam, List.nil_append] at squeezed
  rw [squeezed, last, Text.squeeze_append solid']
  simp [Text.squeeze]

end Token

section Types

variable {tail t : Text} {ts : List Token}

/-- **A collapsed type has the tokens that it had**, with its literals squeezed. -/
theorem Spaced.collapse (h : Spaced [] ts t) (plain : ∀ tok ∈ ts, tok.isNote = false) :
    Spaced [] (ts.map Token.collapsed) t.collapse := by
  induction h with
  | nil blank =>
      rw [Text.collapse_of_blank blank]
      exact .done
  | @cons gap w tok ts blank apart rest ih =>
      obtain ⟨here, behind⟩ := List.forall_mem_cons.mp plain
      rw [Text.collapse_of_blank blank, Token.collapse_append here]
      refine .token (Token.Apart.collapsed (apart.of_first fun ch first => ?_)) ((ih behind).gap (Text.seam_blank w))
      exact (Text.head?_seam first).imp_right isSeal_of_isBlank

/-- Something that is not glued to it may stand behind a type. -/
theorem Spaced.inFront (h : Spaced [] ts t) (isSeal : ∀ ch, tail.head? = some ch → isSeal ch = true) :
    Spaced tail ts (t ++ tail) := by
  induction h with
  | nil blank =>
      rw [List.append_nil]
      exact .nil blank
  | @cons gap w tok ts blank apart rest ih =>
      rw [List.append_assoc, List.append_assoc]
      refine .cons blank (apart.of_first fun ch first => ?_) ih
      cases w with
      | nil => exact .inr (isSeal ch first)
      | cons => exact .inl first

end Types

def RuleItem.collapsed : RuleItem → RuleItem
  | token tok => token tok.collapsed
  | symbol s => symbol s

theorem Rule.collapsed {s : Symbol} {rhs : List RuleItem} (rule : Rule s rhs) :
    Rule s (rhs.map RuleItem.collapsed) := by
  have same := rule
  cases rule with
  | literalArgument l => exact .literalArgument l.collapsed
  | fn qualifiers =>
      cases qualifiers with
      | convention l => exact .fn (.convention l.collapsed)
      | dangerConvention l => exact .fn (.dangerConvention l.collapsed)
      | _ => exact same
  | fnTo qualifiers =>
      cases qualifiers with
      | convention l => exact .fnTo (.convention l.collapsed)
      | dangerConvention l => exact .fnTo (.dangerConvention l.collapsed)
      | _ => exact same
  | moreCode tok plain =>
      refine .moreCode tok.collapsed ?_
      cases tok <;> exact plain
  | _ => exact same

theorem Yields.collapsed {items : List RuleItem} {ts : List Token} (h : Yields items ts) :
    Yields (items.map RuleItem.collapsed) (ts.map Token.collapsed) := by
  induction h with
  | nil => exact .nil
  | token _ ih => exact .token ih
  | symbol rule _ _ ihInner ih =>
      rw [List.map_append]
      exact .symbol rule.collapsed ihInner ih

/-- The type as it is in a collapsed text. -/
def TypeSyntax.collapsed (t : TypeSyntax) : TypeSyntax :=
  ⟨t.tokens.map Token.collapsed, t.derived.collapsed⟩

theorem Token.Unheaded.collapsed {i : Identifier} {ts : List Token} (h : Token.Unheaded i ts) :
    Token.Unheaded i (ts.map Token.collapsed) where
  declaration kind raw tok first := by
    rw [List.head?_map] at first
    obtain ⟨tok, here, rfl⟩ := Option.map_eq_some_iff.mp first
    rw [startsName_collapsed]
    exact h.declaration kind raw tok here
  module raw tok us eq starts := by
    obtain ⟨tok, us, rfl, rfl, rfl⟩ := List.map_eq_cons_iff.mp eq
    rw [startsName_collapsed] at starts
    obtain ⟨isName, noBlock⟩ := h.module raw tok us rfl starts
    refine ⟨by rwa [isName_collapsed], fun brace => noBlock ?_⟩
    rw [List.head?_map] at brace
    obtain ⟨m, first, same⟩ := Option.map_eq_some_iff.mp brace
    cases m with
    | mark => rwa [← same]
    | _ => cases same

theorem Token.Unjoined.collapsed {ts : List Token} (h : Token.Unjoined ts) :
    Token.Unjoined (ts.map Token.collapsed) := by
  induction ts with
  | nil => trivial
  | cons tok ts ih =>
      refine ⟨fun i same => ?_, ih h.2⟩
      cases tok with
      | name j =>
          cases same
          exact (h.1 i rfl).collapsed
      | _ => cases same

/-! ## §3. Scopes. -/

/-- The scope at the start of a text does not depend on what stands behind it. -/
theorem scopeLength?_left {t x : Text} {n : Nat} (h : scopeLength? (t ++ x) = some n) (le : n ≤ t.length) :
    scopeLength? t = some n := by
  obtain ⟨inner, rest, eq, rfl, _⟩ := scopeLength?_some h
  have whole : t ++ x = ('(' :: (inner ++ [')'])) ++ rest := by
    rw [eq]
    simp
  obtain ⟨v, rfl⟩ : ('(' :: (inner ++ [')'])) <+: t :=
    List.prefix_of_prefix_length_le ⟨rest, whole.symm⟩ (List.prefix_append t x) (by
      rw [List.length_cons, List.length_append, List.length_singleton]
      exact le)
  rw [eq] at h
  rw [← h, List.cons_append, List.append_assoc]
  exact scopeLength?_congr inner v rest rfl

/-- A type that begins with no scope begins with none in front of something else. -/
theorem Spaced.noScope {x t : Text} {ts : List Token} (h : Spaced x ts (t ++ x)) (more : t ≠ [])
    (track : Opened.start.track ts = some .start) (noScope : scopeLength? t = none) :
    scopeLength? (t ++ x) = none := by
  by_contra some
  obtain ⟨n, found⟩ := Option.ne_none_iff_exists'.mp some
  have here : ((t ++ x).cursor 0).ahead = t ++ x := rfl
  obtain ⟨code, d, reads, ahead, _, carries⟩ := Spaced.reads (c := (t ++ x).cursor 0) h (.start _) track
  obtain ⟨close, code', encloses, next, _⟩ := exists_encloses_scope (c := (t ++ x).cursor 0) found
  have ends := reads.leadsTo.end_eq
  rw [ahead, here, List.length_append] at ends
  have pos := List.length_pos_of_ne_nil more
  -- what is open inside the scope is closed in the type
  have inside : close.offset < d.offset := by
    by_contra outside
    have level := (Level.start ((t ++ x).cursor 0)).reads reads
    have even := length_of_nest carries.nests
    have deeper := encloses.deeper (Level.start _) level (by omega) (by omega)
    simp only [Opened.start, List.length_nil] at even
    omega
  have size := congrArg Cursor.offset next
  rw [advance_offset, advance_offset] at size
  rw [scopeLength?_left found (by omega)] at noScope
  cases noScope

/-- The collapsed scopes that are no scopes. -/
def blankScopes : List Text :=
  ["(in )", "( in )"]

end EnumExtract
