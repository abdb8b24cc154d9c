/-
  EnumExtract.Proofs.Opaque
  ────────────────────────────────
  What strings and comments hold is nothing to the scan.

  A string literal or a block comment in a source is replaced by another one of
  the same kind.  Up to the token the two sources are the same; behind it they
  are the same at other offsets; and at the token itself every reader does the
  same, for it goes on behind the token at once.

      front │ "…"       │ back
      front │ "… … … …" │ back

  The token has to be one of the reading, which is another matter than of the
  scan where a raw string opens in the name of a declaration, and another than
  of the language where a character is written with an underscore in it.

  Main results:
    • `InStep.of_tokens`      tokens of one kind are in step,
    • `Replaced.lockstep`     the two sources are read in lockstep,
    • `Text.items_replaced`   the scan has the same outcome in both,
    • `gluedModule_closed`    but not behind names that run into raw strings,
    • `scoredPair_fake`       nor behind a character that is read as code.
-/
import EnumExtract.Proofs.Border
import EnumExtract.Proofs.LockstepScan

namespace EnumExtract

open Cursor

/-! ## §1. Opaque tokens. -/

/-- The tokens whose content is passed over: ordinary string literals, and block comments that are
no doc comments. -/
inductive OpaqueKind where
  | string
  | comment
  deriving Repr, DecidableEq

namespace OpaqueKind

/-- The first character of a token of the kind. -/
def first : OpaqueKind → Char
  | .string => '"'
  | .comment => '/'

/-- The text is one token of the kind and nothing more. -/
def spells : OpaqueKind → Text → Bool
  | .string, t => t.head? == some '"' && stringLength? t.tail == some t.tail.length
  | .comment, t => t.startsWith "/*" && blockLength? 0 t == some t.length && !startsDocComment t

end OpaqueKind

namespace Cursor

variable {kind : OpaqueKind} {tok tok' : Text} {c c' : Cursor} {rest rest' : Text}

theorem head?_of_spells (token : kind.spells tok = true) : tok.head? = some kind.first := by
  cases kind with
  | string =>
      unfold OpaqueKind.spells at token
      rw [Bool.and_eq_true, beq_iff_eq] at token
      exact token.1
  | comment =>
      unfold OpaqueKind.spells at token
      rw [Bool.and_eq_true, Bool.and_eq_true] at token
      obtain ⟨more, rfl⟩ := List.isPrefixOf_iff_prefix.mp token.1.1
      rfl

/-- A string ends in a quote. -/
theorem quote_of_stringLength? (t : Text) :
    ∀ n, stringLength? t = some n → ∃ k, n = k + 1 ∧ t[k]? = some '"' := by
  fun_induction stringLength? t with
  | case1 c rest ih =>
      intro n h
      obtain ⟨m, hm, rfl⟩ := Option.map_eq_some_iff.mp h
      obtain ⟨k, rfl, last⟩ := ih m hm
      exact ⟨k + 2, rfl, last⟩
  | case2 rest =>
      intro n h
      cases h
      exact ⟨0, rfl, rfl⟩
  | case3 c rest _ _ ih =>
      intro n h
      obtain ⟨m, hm, rfl⟩ := Option.map_eq_some_iff.mp h
      obtain ⟨k, rfl, last⟩ := ih m hm
      exact ⟨k + 1, rfl, last⟩
  | case4 =>
      intro n h
      cases h

/-- A block comment ends in a slash. -/
theorem slash_of_blockLength? (depth : Nat) (t : Text) :
    ∀ n, blockLength? depth t = some n → ∃ k, n = k + 1 ∧ t[k]? = some '/' := by
  fun_induction blockLength? depth t with
  | case1 depth rest ih =>
      intro n h
      obtain ⟨m, hm, rfl⟩ := Option.map_eq_some_iff.mp h
      obtain ⟨k, rfl, last⟩ := ih m hm
      exact ⟨k + 2, rfl, last⟩
  | case2 depth rest low =>
      intro n h
      cases h
      exact ⟨1, rfl, rfl⟩
  | case3 depth rest high ih =>
      intro n h
      obtain ⟨m, hm, rfl⟩ := Option.map_eq_some_iff.mp h
      obtain ⟨k, rfl, last⟩ := ih m hm
      exact ⟨k + 2, rfl, last⟩
  | case4 depth c rest _ _ ih =>
      intro n h
      obtain ⟨m, hm, rfl⟩ := Option.map_eq_some_iff.mp h
      obtain ⟨k, rfl, last⟩ := ih m hm
      exact ⟨k + 1, rfl, last⟩
  | case5 =>
      intro n h
      cases h

/-- A token of an opaque kind ends in a character that is in no word. -/
theorem last_of_spells (token : kind.spells tok = true) :
    ∃ k ch, tok.length = k + 1 ∧ tok[k]? = some ch ∧ isWord ch = false := by
  cases kind with
  | string =>
      unfold OpaqueKind.spells at token
      rw [Bool.and_eq_true, beq_iff_eq, beq_iff_eq] at token
      obtain ⟨content, rfl⟩ := List.head?_eq_some_iff.mp token.1
      obtain ⟨k, length, last⟩ := quote_of_stringLength? content _ token.2
      exact ⟨k + 1, '"', congrArg (· + 1) length, last, rfl⟩
  | comment =>
      unfold OpaqueKind.spells at token
      rw [Bool.and_eq_true, Bool.and_eq_true, beq_iff_eq] at token
      obtain ⟨k, length, last⟩ := slash_of_blockLength? 0 tok _ token.1.2
      exact ⟨k, '/', length, last, rfl⟩

/-- A token of an opaque kind is a lexeme wherever it stands, and no doc comment. -/
theorem lexeme?_of_spells (token : kind.spells tok = true) (ahead : c.ahead = tok ++ rest) :
    c.comment? = .ok (if kind = .comment then some tok.length else none)
      ∧ c.lexeme? = .ok (some tok.length) ∧ startsDocComment c.ahead = false := by
  cases kind with
  | string =>
      unfold OpaqueKind.spells at token
      rw [Bool.and_eq_true, beq_iff_eq, beq_iff_eq] at token
      obtain ⟨content, rfl⟩ := List.head?_eq_some_iff.mp token.1
      have length : stringLength? content = some content.length := token.2
      have same : (content ++ rest).take content.length = content.take content.length := by
        rw [List.take_left, List.take_length]
      have whole := (stringLength?_settled _ _ length).of_take same
      have first : c.ahead.head? = some '"' := by rw [ahead]; rfl
      have noComment : c.comment? = .ok none := comment?_eq_none_of_ne (by rw [first]; decide)
      have noOpener : c.rawOpener? = none := by
        rw [Cursor.rawOpener?, rawOpener?_eq_none_of_ne (by rw [first]; decide) (by rw [first]; decide),
          ite_self]
      refine ⟨noComment, lexeme?_some_iff.mpr (.inr ⟨noComment, ?_⟩), ?_⟩
      · have ahead : c.ahead = '"' :: (content ++ rest) := ahead
        unfold Cursor.literal?
        rw [noOpener, ahead]
        simp only
        rw [whole]
        rfl
      · exact Bool.eq_false_iff.mpr fun doc => comment?_of_startsDocComment doc noComment
  | comment =>
      unfold OpaqueKind.spells at token
      rw [Bool.and_eq_true, Bool.and_eq_true, beq_iff_eq, Bool.not_eq_true'] at token
      obtain ⟨⟨opener, length⟩, noDoc⟩ := token
      obtain ⟨content, rfl⟩ := List.isPrefixOf_iff_prefix.mp opener
      have same : c.ahead.take ("/*" ++ content : Text).length
          = ("/*" ++ content : Text).take ("/*" ++ content : Text).length := by
        rw [ahead, List.take_left, List.take_length]
      have whole := (blockLength?_settled _ _ _ length).of_take same
      have four : 4 ≤ ("/*" ++ content : Text).length := by
        have eq : blockLength? 0 ('/' :: '*' :: content) = some ("/*" ++ content : Text).length := length
        rw [blockLength?] at eq
        obtain ⟨m, hm, same⟩ := Option.map_eq_some_iff.mp eq
        have := two_le_blockLength? _ _ _ hm
        omega
      have comment : c.comment? = .ok (some ("/*" ++ content : Text).length) := by
        have ahead' : c.ahead = '/' :: '*' :: (content ++ rest) := ahead
        unfold Cursor.comment?
        rw [ahead'] at whole ⊢
        simp only [whole]
      refine ⟨comment, lexeme?_some_iff.mpr (.inl comment), ?_⟩
      rw [← noDoc]
      refine Agree.startsDocComment_congr ?_
      rw [ahead, List.take_append_of_le_length four]

/-- **Tokens of one kind are in step**, whatever they hold. -/
theorem InStep.of_tokens {R : Cursor → Cursor → Prop} (token : kind.spells tok = true)
    (token' : kind.spells tok' = true) (ahead : c.ahead = tok ++ rest) (ahead' : c'.ahead = tok' ++ rest')
    (start : c'.atWordStart = c.atWordStart)
    (onward : R (c.advance tok.length) (c'.advance tok'.length)) : c.InStep R c' := by
  obtain ⟨comment, lexeme, noDoc⟩ := lexeme?_of_spells token ahead
  obtain ⟨comment', lexeme', noDoc'⟩ := lexeme?_of_spells token' ahead'
  have head {c : Cursor} {tok rest : Text} (token : kind.spells tok = true) (ahead : c.ahead = tok ++ rest) :
      c.ahead.head? = some kind.first := by
    obtain ⟨more, rfl⟩ := List.head?_eq_some_iff.mp (head?_of_spells token)
    rw [ahead]
    rfl
  have first := head token ahead
  have first' := head token' ahead'
  have unseen {c : Cursor} (first : c.ahead.head? = some kind.first) : c.sees "#[" = false := by
    refine Bool.eq_false_iff.mpr fun sees => ?_
    obtain ⟨rest, eq⟩ := sees_iff.mp sees
    rw [eq] at first
    cases kind <;> cases first
  have noScope {c : Cursor} (first : c.ahead.head? = some kind.first) : scopeLength? c.ahead = none := by
    cases h : scopeLength? c.ahead with
    | none => rfl
    | some n =>
        obtain ⟨inner, rest, eq, _⟩ := scopeLength?_some h
        rw [eq] at first
        cases kind <;> cases first
  refine ⟨first'.trans first.symm, fun _ => start, fun n h => ?_, fun h => ?_, fun n h => ?_, fun h => ?_,
    fun h _ _ => ?_, noDoc'.trans noDoc.symm, fun n doc => ?_, by rw [unseen first, unseen first'],
    fun w after h => ?_, by rw [noScope first, noScope first'], fun n h => ?_⟩
  · rw [comment] at h
    rw [comment']
    split at h
    next is => exact ⟨tok'.length, by rw [if_pos is]⟩
    next => cases h
  · rw [comment] at h
    rw [comment']
    split at h
    next => cases h
    next isNot => rw [if_neg isNot]
  · rw [lexeme] at h
    cases h
    exact ⟨_, lexeme', onward⟩
  · rw [lexeme] at h
    cases h
  · rw [lexeme] at h
    cases h
  · rw [noDoc] at doc
    cases doc
  · obtain ⟨ch, first'', word⟩ := isNameStart_of_identifier? h
    rw [first] at first''
    cases first''
    cases kind <;> cases word
  · rw [noScope first] at h
    cases h

end Cursor

/-! ## §2. Replaced tokens. -/

/-- Places of a text in which `tok` stands, and of the text in which `tok'` stands for it: the same
place in front of the token, the token itself, or a place equally far behind it. -/
inductive Replaced (front tok tok' back : Text) : Cursor → Cursor → Prop where
  | before {c c' : Cursor}
      (h : Before front.length (front ++ (tok ++ back)) (front ++ (tok' ++ back)) c c') :
      Replaced front tok tok' back c c'
  | here : Replaced front tok tok' back ((front ++ (tok ++ back)).cursor front.length)
      ((front ++ (tok' ++ back)).cursor front.length)
  | behind (k : Nat) :
      Replaced front tok tok' back ((front ++ (tok ++ back)).cursor (front.length + tok.length + k))
        ((front ++ (tok' ++ back)).cursor (front.length + tok'.length + k))

namespace Replaced

variable {kind : OpaqueKind} {front tok tok' back : Text}

/-- In front of the token stands nothing or a blank, and the reading comes by the token.

It is a token of the reading, then: of the text as `lexeme?` cuts it.  The two differ behind a
character whose escape has an underscore (`'\u{5_B}'` is read as a tick and code) and behind a raw C
string (`cr"\"` is read as a name and a string with escapes), where a string of the source may be
read as code between two strings. -/
structure Reached (front tok back : Text) : Prop where
  blank : ∀ ch, front.getLast? = some ch → isBlank ch = true
  level : ∃ m, Level ((front ++ (tok ++ back)).cursor 0) ((front ++ (tok ++ back)).cursor front.length) m

/-- The character at the token. -/
theorem first_at (front back : Text) (token : kind.spells tok = true) :
    ((front ++ (tok ++ back)).cursor front.length).ahead.head? = some kind.first := by
  obtain ⟨_, rfl⟩ := List.head?_eq_some_iff.mp (head?_of_spells token)
  show ((front ++ (_ :: _ ++ back)).drop front.length).head? = _
  rw [List.drop_left]
  rfl

section Texts

variable (token : kind.spells tok = true) (token' : kind.spells tok' = true)
include token token'

theorem shared (reached : Reached front tok back) (more : front ≠ []) :
    Shared (front.length - 1) (front ++ (tok ++ back)) (front ++ (tok' ++ back)) := by
  obtain ⟨u, w, rfl⟩ := (List.eq_nil_or_concat front).resolve_left more
  have blank : isBlank w = true := reached.blank w (by simp)
  have fence : isFence w = true := by
    unfold isFence
    rw [blank, Bool.or_true]
  have heads : (tok' ++ back).head? = (tok ++ back).head? := by
    obtain ⟨_, rfl⟩ := List.head?_eq_some_iff.mp (head?_of_spells token)
    obtain ⟨_, rfl⟩ := List.head?_eq_some_iff.mp (head?_of_spells token')
    rfl
  exact ⟨u, w, tok ++ back, tok' ++ back, by simp, by simp, by simp, blank, .of_same fence heads⟩

theorem border (reached : Reached front tok back) (more : front ≠ []) :
    Border (front.length - 1) front.length (front ++ (tok ++ back)) (front ++ (tok' ++ back)) := by
  have pos := List.length_pos_iff.mpr more
  refine ⟨shared token token' reached more, by omega, reached.level, kind.first, first_at front back token,
    first_at front back token', ?_⟩
  cases kind <;> decide

/-- The reading of the other text comes by the token, too. -/
theorem Reached.symm (reached : Reached front tok back) : Reached front tok' back := by
  refine ⟨reached.blank, ?_⟩
  by_cases more : front = []
  · subst more
    exact ⟨0, .start _⟩
  · obtain ⟨m, level⟩ := reached.level
    exact ⟨m, (border token token' reached more).level_of (Nat.le_refl _) level⟩

end Texts

/-- Places of the two texts behind the token have the same text ahead. -/
theorem ahead_behind (front tok tok' back : Text) (k : Nat) :
    ((front ++ (tok' ++ back)).cursor (front.length + tok'.length + k)).ahead
      = ((front ++ (tok ++ back)).cursor (front.length + tok.length + k)).ahead := by
  have tail (tok : Text) : (front ++ (tok ++ back)).drop (front.length + tok.length + k) = back.drop k := by
    rw [← List.append_assoc, ← List.length_append, List.drop_append, List.drop_of_length_le (by omega),
      List.nil_append]
    congr 1
    omega
  exact (tail tok').trans (tail tok).symm

/-- Behind the tokens a word starts in both texts, and further on in both or in neither. -/
theorem atWordStart_behind (token : kind.spells tok = true) (token' : kind.spells tok' = true)
    (front back : Text) (k : Nat) :
    ((front ++ (tok' ++ back)).cursor (front.length + tok'.length + k)).atWordStart
      = ((front ++ (tok ++ back)).cursor (front.length + tok.length + k)).atWordStart := by
  have before {tok : Text} (token : kind.spells tok = true) :
      ((front ++ (tok ++ back)).cursor (front.length + tok.length + k)).atWordStart
        = if k = 0 then true else back[k - 1]?.all (!isWord ·) := by
    obtain ⟨j, ch, length, last, plain⟩ := last_of_spells token
    have place : ((front ++ (tok ++ back)).cursor (front.length + tok.length + k)).before
        = (tok ++ back)[j + k]? := by
      show (if front.length + tok.length + k = 0 then none
        else (front ++ (tok ++ back))[front.length + tok.length + k - 1]?) = _
      rw [if_neg (by omega), List.getElem?_append_right (by omega)]
      congr 1
      omega
    unfold atWordStart
    rw [place]
    split
    next zero =>
      rw [zero, Nat.add_zero, List.getElem?_append_left (by omega), last, Option.all_some, plain]
      rfl
    next more =>
      rw [List.getElem?_append_right (by omega), show j + k - tok.length = k - 1 from by omega]
  rw [before token, before token']

/-- The beginnings of the two texts correspond. -/
theorem start (front tok tok' back : Text) :
    Replaced front tok tok' back ((front ++ (tok ++ back)).cursor 0) ((front ++ (tok' ++ back)).cursor 0) := by
  by_cases more : front = []
  · subst more
    exact .here
  · exact .before ⟨0, List.length_pos_iff.mpr more, rfl, rfl, 0, (Level.start _).near⟩

/-- Offsets up to the token are the same, and those behind it are equally far behind it. -/
theorem offsets {c c' : Cursor} (h : Replaced front tok tok' back c c') :
    (c.offset ≤ front.length ∧ c'.offset = c.offset)
      ∨ ∃ k, c.offset = front.length + tok.length + k ∧ c'.offset = front.length + tok'.length + k := by
  cases h with
  | before h =>
      obtain ⟨j, lt, rfl, rfl, _⟩ := h
      exact .inl ⟨Nat.le_of_lt lt, rfl⟩
  | here => exact .inl ⟨Nat.le_refl _, rfl⟩
  | behind k => exact .inr ⟨k, rfl, rfl⟩

theorem length_pos (token : kind.spells tok = true) : 0 < tok.length := by
  obtain ⟨k, _, length, _⟩ := last_of_spells token
  omega

/-- **A source and the one with the token replaced are read in lockstep.** -/
theorem lockstep (token : kind.spells tok = true) (token' : kind.spells tok' = true)
    (reached : Reached front tok back) :
    Lockstep (front ++ (tok ++ back)) (front ++ (tok' ++ back)) (Replaced front tok tok' back) where
  place h := by
    cases h with
    | before h =>
        obtain ⟨j, _, rfl, rfl, _⟩ := h
        exact ⟨rfl, rfl⟩
    | here => exact ⟨rfl, rfl⟩
    | behind k => exact ⟨rfl, rfl⟩
  order h h' := by
    have pos := length_pos token
    have pos' := length_pos token'
    rcases offsets h with ⟨le, same⟩ | ⟨k, place, place'⟩ <;>
      rcases offsets h' with ⟨le', same'⟩ | ⟨j, there, there'⟩ <;> omega
  inStep h := by
    cases h with
    | before h =>
        have more : front ≠ [] := by
          rintro rfl
          obtain ⟨j, lt, _⟩ := h
          cases lt
        exact .inl ((border token token' reached more).inStep (fun _ _ => .before) .here h)
    | here =>
        have ahead (tok : Text) : ((front ++ (tok ++ back)).cursor front.length).ahead = tok ++ back :=
          List.drop_left
        refine .inl (.of_tokens token token' (ahead tok) (ahead tok') ?_ ?_)
        · have before (t : Text) : ((front ++ t).cursor front.length).before = front.getLast? := by
            cases front.eq_nil_or_concat with
            | inl none =>
                subst none
                rfl
            | inr some =>
                obtain ⟨u, w, rfl⟩ := some
                simp [Text.cursor]
          rw [atWordStart, atWordStart, before, before]
        · rw [advance_cursor, advance_cursor]
          exact .behind 0
    | behind k =>
        refine .inl (.of_same (ahead_behind front tok tok' back k)
          (atWordStart_behind token token' front back k) fun n _ => ?_)
        rw [advance_cursor, advance_cursor, Nat.add_assoc, Nat.add_assoc _ k n]
        exact .behind (k + n)

/-- The token is inside no attribute, so that attributes are kept. -/
theorem keepsAttributes (token : kind.spells tok = true) (token' : kind.spells tok' = true)
    (reached : Reached front tok back)
    (outside : Outside ((front ++ (tok ++ back)).cursor 0) front.length) :
    KeepsAttributes (Replaced front tok tok' back) := by
  intro c c' d h sees hd
  obtain ⟨_, encloses⟩ := closing_ok_iff.mp hd
  have forward := encloses.lt
  rw [advance_offset] at forward
  have pos := length_pos token
  cases h with
  | before h =>
      obtain ⟨j, lt, rfl, rfl, m, near⟩ := h
      have more : front ≠ [] := by
        rintro rfl
        cases lt
      have B := border token token' reached more
      have level := near.level fun ch first => by
        obtain ⟨rest, eq⟩ := sees_iff.mp sees
        rw [eq] at first
        cases first
        rfl
      have within : d.offset < front.length := outside (level.hash sees) sees hd lt
      refine ⟨B.toShared.take (by omega) ?_, fun x x' hx ge le => ?_⟩
      · show j + (d.offset + 1 - j) ≤ _
        omega
      · rcases offsets hx with ⟨_, same⟩ | ⟨k, place, _⟩
        · rw [same]
          rfl
        · omega
  | here =>
      exfalso
      have first := first_at front back token
      obtain ⟨rest, eq⟩ := sees_iff.mp sees
      rw [eq] at first
      cases kind <;> cases first
  | behind k =>
      refine ⟨by rw [ahead_behind], fun x x' hx ge le => ?_⟩
      simp only [offset_cursor] at ge ⊢
      rcases offsets hx with ⟨le, _⟩ | ⟨j, there, there'⟩ <;> omega

/-- Where no lexeme stands, the next places are the same again. -/
theorem next {c c' : Cursor} (token : kind.spells tok = true) (h : Replaced front tok tok' back c c')
    (hl : c.lexeme? = .ok none) (more : c.ahead ≠ []) :
    Replaced front tok tok' back (c.advance 1) (c'.advance 1) := by
  cases h with
  | before h =>
      obtain ⟨j, lt, rfl, rfl, m, near⟩ := h
      have there := near.next hl more
      rw [advance_cursor] at there ⊢
      rw [advance_cursor]
      rcases Nat.lt_or_ge (j + 1) front.length with inside | last
      · exact .before ⟨j + 1, inside, rfl, rfl, there⟩
      · rw [show j + 1 = front.length from by omega]
        exact .here
  | here =>
      have ahead : ((front ++ (tok ++ back)).cursor front.length).ahead = tok ++ back := List.drop_left
      obtain ⟨_, lexeme, _⟩ := lexeme?_of_spells token ahead
      rw [lexeme] at hl
      cases hl
  | behind k =>
      rw [advance_cursor, advance_cursor]
      exact .behind (k + 1)

theorem symm {c c' : Cursor} (token : kind.spells tok = true) (token' : kind.spells tok' = true)
    (reached : Reached front tok back) (h : Replaced front tok tok' back c c') :
    Replaced front tok' tok back c' c := by
  cases h with
  | before h =>
      have more : front ≠ [] := by
        rintro rfl
        obtain ⟨j, lt, _⟩ := h
        cases lt
      exact .before ((border token token' reached more).before_symm h)
  | here => exact .here
  | behind k => exact .behind k

/-- **The two sources are read in lockstep the other way**, too. -/
theorem lockstep_flip (token : kind.spells tok = true) (token' : kind.spells tok' = true)
    (reached : Reached front tok back) :
    Lockstep (front ++ (tok' ++ back)) (front ++ (tok ++ back)) (flip (Replaced front tok tok' back)) := by
  have reached' := reached.symm token token'
  have same : flip (Replaced front tok tok' back) = Replaced front tok' tok back := by
    funext c' c
    exact propext ⟨symm token token' reached, symm token' token reached'⟩
  rw [same]
  exact lockstep token' token reached'

end Replaced

/-! ## §3. The scan. -/

open Replaced

/-- Where an offset goes when the token at offset `i` of length `n` gets the length `n'`. -/
def offsetBehind (i n n' offset : Nat) : Nat :=
  if offset ≤ i then offset else offset - n + n'

theorem Marks.eq_offsetBehind {front tok tok' back : Text} {i i' : Nat}
    (h : Marks (Replaced front tok tok' back) i i') (pos : 0 < tok.length) :
    i' = offsetBehind front.length tok.length tok'.length i := by
  obtain ⟨c, c', related, rfl, rfl⟩ := h
  unfold offsetBehind
  rcases offsets related with ⟨le, same⟩ | ⟨k, place, place'⟩
  · rw [if_pos le, same]
  · rw [if_neg (by omega)]
    omega

/-- **The content of a string or comment is nothing to the scan**: with another token of the same
kind in its place the same declarations are found, those behind it at later offsets, or a fault
of the same class. -/
theorem Text.items_replaced {kind : OpaqueKind} {front tok tok' back : Text}
    (token : kind.spells tok = true) (token' : kind.spells tok' = true)
    (reached : Reached front tok back)
    (outside : Outside ((front ++ (tok ++ back)).cursor 0) front.length)
    (names : ((front ++ (tok ++ back)).cursor 0).NamesPlain) :
    (∃ items, (front ++ (tok ++ back)).items = .ok items
        ∧ (front ++ (tok' ++ back)).items
          = .ok (items.map (·.relocated (offsetBehind front.length tok.length tok'.length))))
      ∨ ∃ fault fault', (front ++ (tok ++ back)).items = .error fault
        ∧ (front ++ (tok' ++ back)).items = .error fault' ∧ fault'.cause.code = fault.cause.code := by
  have L := lockstep token token' reached
  have L' := lockstep_flip token token' reached
  have K := keepsAttributes token token' reached outside
  have reached' := reached.symm token token'
  have moved (i i' : Nat) (h : Marks (Replaced front tok tok' back) i i') := h.eq_offsetBehind (length_pos token)
  rcases L.items_outcome L' K (start front tok tok' back) (fun c c' h _ => next token h)
      (fun c c' h _ hl more =>
        symm token' token reached' (next token' (symm token token' reached h) hl more))
      names with
    ⟨items, items', h, h', all⟩ | ⟨fault, fault', h, h', same⟩
  · exact .inl ⟨items, h, h'.trans (congrArg Except.ok (eq_relocated_of_tracked moved all))⟩
  · exact .inr ⟨fault, fault', h, h', same⟩

/-! ## §4. A comment written anew, and a string that is no token for every reader. -/

/-- Where no `#[` stands in front of the offset no attribute is open there. -/
theorem Cursor.Outside.of_unseen {t : Text} {i : Nat} (unseen : ∀ j < i, (t.cursor j).sees "#[" = false) :
    Outside (t.cursor 0) i := by
  intro p close k code sees _ lt
  rw [cursor_of_leadsTo code.level.leadsTo, unseen p.offset lt] at sees
  cases sees

theorem blank_of_getLast? {front : Text} (h : front.getLast?.all isBlank = true) :
    ∀ ch, front.getLast? = some ch → isBlank ch = true := by
  intro ch last
  rwa [last, Option.all_some] at h

/-- A module, up to a comment in it. -/
def openedModule : Text := "mod m \x7b "

/-- A module, a marked enum and a quotation mark are written into the comment. -/
theorem openedModule_commented :
    ∃ items, Text.items (openedModule ++ ("/* */" ++ " struct S; \x7d")) = .ok items
      ∧ items.map (·.path) = ([["m", "S"]] : List (List Text))
      ∧ Text.items (openedModule ++ ("/* enum Fake \x7b \" #[extract_variant] mod x \x7b */" ++ " struct S; \x7d"))
        = .ok (items.map (·.relocated (offsetBehind 8 5 46))) := by
  obtain ⟨items, hitems, paths⟩ : ∃ items,
      Text.items (openedModule ++ ("/* */" ++ " struct S; \x7d")) = .ok items
        ∧ items.map (·.path) = ([["m", "S"]] : List (List Text)) := exists_ok_of_decide (by decide +kernel)
  have reached : Reached openedModule "/* */" " struct S; \x7d" := by
    have ahead : (Text.cursor (openedModule ++ ("/* */" ++ " struct S; \x7d")) 0).ahead
        = openedModule ++ ("/* */" ++ " struct S; \x7d") := rfl
    obtain ⟨code, reads, _⟩ := reads_plain ahead (by decide +kernel)
    exact ⟨blank_of_getLast? (by decide +kernel), _, code, reads, rfl⟩
  refine ⟨items, hitems, paths, ?_⟩
  have token : OpaqueKind.comment.spells "/* */" = true := by decide +kernel
  have token' : OpaqueKind.comment.spells "/* enum Fake \x7b \" #[extract_variant] mod x \x7b */" = true := by
    decide +kernel
  rcases Text.items_replaced token token' reached (.of_unseen (by decide +kernel))
      (Cursor.namesPlain_of_noQuote (by decide +kernel)) with
    ⟨same, h, h'⟩ | ⟨fault, _, h, _⟩
  · rw [hitems] at h
    cases h
    exact h'
  · rw [hitems] at h
    cases h

/-- Two raw identifiers that run into raw strings, one inside the other for a reading that cuts
their names, and a module that opens between them. -/
def gluedModule : Text := "struct r#r#\" \" mod m \x7b struct r#r##\" \"# ; "

/-- A struct in the module, and two places where it may close. -/
def gluedRest : Text := " struct S ; \x7d // \"## \x7d"

/-- **Behind names that run into raw strings the content of a string does matter**: with a
brace in it the module closes inside of the string, so that `S` is not found in it. -/
theorem gluedModule_closed :
    OpaqueKind.string.spells "\" \"" = true ∧ OpaqueKind.string.spells "\" \\\"## \x7d \"" = true
      ∧ Reached gluedModule "\" \"" gluedRest
      ∧ Outside (Text.cursor (gluedModule ++ ("\" \"" ++ gluedRest)) 0) gluedModule.length
      ∧ (∃ items, Text.items (gluedModule ++ ("\" \"" ++ gluedRest)) = .ok items
        ∧ items.map (·.path) = ([["r#r"], ["m", "r#r"], ["m", "S"]] : List (List Text))
        ∧ ∀ item ∈ items, (Text.cursor (gluedModule ++ ("\" \"" ++ gluedRest))
            (item.bodyIndex - item.name.length)).rawOpener? = none)
      ∧ ∃ items, Text.items (gluedModule ++ ("\" \\\"## \x7d \"" ++ gluedRest)) = .ok items
        ∧ items.map (·.path) = ([["r#r"], ["m", "r#r"], ["S"]] : List (List Text)) := by
  refine ⟨by decide +kernel, by decide +kernel, ⟨blank_of_getLast? (by decide +kernel), ?_⟩, .of_unseen (by decide +kernel),
    exists_ok_of_decide (by decide +kernel), exists_ok_of_decide (by decide +kernel)⟩
  -- from the first name on a raw string is read, then what is left in front of the token
  obtain ⟨code, reads, _⟩ := reads_plain (u := gluedModule.take 9)
    (c := Text.cursor (gluedModule ++ ("\" \"" ++ gluedRest)) 0)
    (List.take_append_drop 9 (_ : Text)).symm (by decide +kernel)
  have behind : (Text.cursor (gluedModule ++ ("\" \"" ++ gluedRest)) 39).ahead
      = gluedModule.drop 39 ++ ("\" \"" ++ gluedRest) := by decide +kernel
  obtain ⟨code', reads', _⟩ := reads_plain behind (by decide +kernel)
  have raw : Cursor.lexeme? (Text.cursor (gluedModule ++ ("\" \"" ++ gluedRest)) 9) = .ok (some 30) := by
    decide +kernel
  exact ⟨_, _, reads.trans (.lexeme raw reads'), rfl⟩

/-- Two characters, the first of them with an underscore in its escape, up to a string. -/
def scoredPair : Text := "const A: [char; 2] = ['\\u\x7b5_B\x7d','\"']; const S: &str = "

/-- **Behind a character that is read as code the content of a string does matter.**  The comma between
the two is read as a character, and the quotation mark in the second one opens a string that ends where
the string of the constant begins: an enum in it is found. -/
theorem scoredPair_fake :
    OpaqueKind.string.spells "\"x\"" = true ∧ OpaqueKind.string.spells "\" enum Fake \x7b A \x7d \"" = true
      ∧ Outside (Text.cursor (scoredPair ++ ("\"x\"" ++ " ; // \"")) 0) scoredPair.length
      ∧ Text.items (scoredPair ++ ("\"x\"" ++ " ; // \"")) = .ok []
      ∧ ∃ items, Text.items (scoredPair ++ ("\" enum Fake \x7b A \x7d \"" ++ " ; // \"")) = .ok items
        ∧ items.map (·.path) = ([["Fake"]] : List (List Text)) :=
  ⟨by decide +kernel, by decide +kernel, .of_unseen (by decide +kernel), by decide +kernel,
    exists_ok_of_decide (by decide +kernel)⟩

end EnumExtract
