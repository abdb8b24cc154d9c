/-
  EnumExtract.Proofs.Grammar.Scopes
  ────────────────────────────────
  Visibilities as they are written in front of a keyword, and what their reader
  makes of them.

      visibility   none, `pub`, or `pub` and a scope
      scope        `(crate)`, `(self)`, `(super)` or `(in path)`

  A path in a scope is one of names that are not raw: the reader measures no scope
  in which a raw name stands, and finds no visibility there.

  Main results:
    • `scopeLength?_written`    a written scope is measured,
    • `VisibilitySyntax.read`   a written visibility is read as it is written.
-/
import EnumExtract.Proofs.Declarations
import EnumExtract.Proofs.Grammar.Spelling

namespace EnumExtract

open Cursor

/-! ## §1. Scopes. -/

def scopeWords : List Text :=
  ["crate", "self", "super"]

/-- A path as it is written in a scope, where it may start at the root. -/
inductive IsScopePath : Text → Prop where
  | local {p : Text} (h : IsWrittenPath p) : IsScopePath p
  | rooted {b p : Text} (blank : IsGap b) (h : IsWrittenPath p) : IsScopePath ("::" ++ b ++ p)

/-- A scope as it is written, in its parentheses. -/
inductive IsScope : Text → Prop where
  | word {b word b' : Text} (before : IsGap b) (mem : word ∈ scopeWords) (after : IsGap b') :
      IsScope ('(' :: (b ++ word ++ b' ++ ")"))
  | path {b gap p b' : Text} (before : IsGap b) (blank : IsGap gap) (apart : gap ≠ []) (h : IsScopePath p)
      (after : IsGap b') : IsScope ('(' :: (b ++ ("in" ++ (gap ++ p ++ b')) ++ ")"))

theorem inScope_of_isGap {b : Text} (h : IsGap b) : ∀ ch ∈ b, inScope ch = true := fun ch mem => by
  rw [inScope, h ch mem, Bool.or_true]

theorem inScope_of_isName {n : Text} (h : IsName n) : ∀ ch ∈ n, inScope ch = true := fun ch mem => by
  rw [inScope, h.isWord ch mem, Bool.true_or, Bool.true_or]

theorem IsPathTail.inScope {p : Text} (h : IsPathTail p) : ∀ ch ∈ p, Cursor.inScope ch = true := by
  induction h with
  | nil => exact nofun
  | segment before after name _ ih =>
      intro ch mem
      simp only [List.mem_append] at mem
      rcases mem with (((mem | mem) | mem) | mem) | mem
      · exact inScope_of_isGap before ch mem
      · rcases List.mem_cons.mp mem with rfl | mem
        · rfl
        · cases List.mem_singleton.mp mem
          rfl
      · exact inScope_of_isGap after ch mem
      · exact inScope_of_isName name ch mem
      · exact ih ch mem

theorem IsWrittenPath.inScope {p : Text} (h : IsWrittenPath p) : ∀ ch ∈ p, Cursor.inScope ch = true := by
  obtain ⟨name, rest⟩ := h
  intro ch mem
  rcases List.mem_append.mp mem with mem | mem
  · exact inScope_of_isName name ch mem
  · exact rest.inScope ch mem

theorem IsScopePath.inScope {p : Text} (h : IsScopePath p) : ∀ ch ∈ p, Cursor.inScope ch = true := by
  cases h with
  | «local» h => exact h.inScope
  | rooted blank h =>
      intro ch mem
      simp only [List.mem_append] at mem
      rcases mem with (mem | mem) | mem
      · rcases List.mem_cons.mp mem with rfl | mem
        · rfl
        · cases List.mem_singleton.mp mem
          rfl
      · exact inScope_of_isGap blank ch mem
      · exact h.inScope ch mem

theorem IsScopePath.ne_nil {p : Text} (h : IsScopePath p) : p ≠ [] := by
  cases h with
  | «local» h =>
      obtain ⟨ch, v, rfl, _⟩ := h.exists_first
      exact List.cons_ne_nil ch v
  | rooted => exact List.cons_ne_nil _ _

/-- What the parentheses of a scope hold, and how much of it is measured before blanks are skipped. -/
theorem scopeLength?_of_body {b body b' w : Text} (before : IsGap b) (after : IsGap b')
    (firm : ∀ ch, body.head? = some ch → isBlank ch = false) (more : body ≠ [])
    (found : scopeLength?.scopeBody? (body ++ (b' ++ ')' :: w)) = some body.length) :
    scopeLength? ('(' :: (b ++ body ++ b' ++ ")") ++ w) = some ('(' :: (b ++ body ++ b' ++ ")") : Text).length := by
  have eq : ('(' :: (b ++ body ++ b' ++ ")") ++ w : Text) = '(' :: (b ++ (body ++ (b' ++ ')' :: w))) := by simp
  have skip : Text.blanks (b ++ (body ++ (b' ++ ')' :: w))) = b.length :=
    blanks_append before fun ch first => firm ch (by rwa [List.head?_append_of_ne_nil _ more] at first)
  have skip' : Text.blanks (b' ++ ')' :: w) = b'.length := blanks_append after fun ch first => by
    cases first
    rfl
  have drop : (b ++ (body ++ (b' ++ ')' :: w))).drop (b.length + body.length) = b' ++ ')' :: w := by
    rw [← List.drop_drop, List.drop_left, List.drop_left]
  have drop' : (b ++ (body ++ (b' ++ ')' :: w))).drop (b.length + body.length + b'.length) = ')' :: w := by
    rw [← List.drop_drop, drop, List.drop_left]
  rw [eq, scopeLength?]
  simp only [skip, List.drop_left, found, Option.bind_eq_bind, Option.bind_some, drop, skip', drop']
  simp
  omega

/-- A path behind `in` is measured with the blanks around it. -/
theorem scopeBody?_path {u w : Text} (inside : ∀ ch ∈ u, inScope ch = true) (first : u.head?.any isBlank = true)
    (size : 2 ≤ u.length) : scopeLength?.scopeBody? ("in" ++ u ++ ')' :: w) = some ("in" ++ u : Text).length := by
  have taken : (u ++ ')' :: w).takeWhile inScope = u := takeWhile_append_stop inside fun ch first => by
    cases first
    rfl
  have body (t : Text) : scopeLength?.scopeBody? ('i' :: 'n' :: t)
      = if (t.takeWhile inScope).head?.any isBlank && decide (2 ≤ (t.takeWhile inScope).length) then
          some ((t.takeWhile inScope).length + 2)
        else none := rfl
  show scopeLength?.scopeBody? ('i' :: 'n' :: (u ++ ')' :: w)) = some (u.length + 2)
  rw [body, taken, first, decide_eq_true size]
  rfl

/-- **A written scope is measured.** -/
theorem scopeLength?_written {scope : Text} (h : IsScope scope) (w : Text) :
    scopeLength? (scope ++ w) = some scope.length := by
  cases h with
  | @word b word b' before mem after =>
      simp only [scopeWords, List.mem_cons, List.not_mem_nil, or_false] at mem
      rcases mem with rfl | rfl | rfl
      all_goals exact scopeLength?_of_body before after (by rintro _ ⟨⟩; decide) (by decide) rfl
  | @path b gap p b' before blank apart h after =>
      have inside : ∀ ch ∈ gap ++ p ++ b', inScope ch = true := fun ch mem => by
        simp only [List.mem_append] at mem
        rcases mem with (mem | mem) | mem
        · exact inScope_of_isGap blank ch mem
        · exact h.inScope ch mem
        · exact inScope_of_isGap after ch mem
      have first : (gap ++ p ++ b').head?.any isBlank = true := by
        obtain ⟨x, gap, rfl⟩ := List.exists_cons_of_ne_nil apart
        exact blank x List.mem_cons_self
      have size : 2 ≤ (gap ++ p ++ b').length := by
        have pos := List.length_pos_of_ne_nil apart
        have pos' := List.length_pos_of_ne_nil h.ne_nil
        rw [List.length_append, List.length_append]
        omega
      have plain : ∀ ch, ("in" ++ (gap ++ p ++ b') : Text).head? = some ch → isBlank ch = false := by
        rintro _ ⟨⟩
        decide
      have found := scopeLength?_of_body (w := w) before IsGap.nil plain (List.cons_ne_nil _ _)
        (scopeBody?_path inside first size)
      rwa [List.append_nil] at found

theorem IsScope.whole {scope : Text} (h : IsScope scope) : scopeLength? scope = some scope.length := by
  simpa using scopeLength?_written h []

/-! ## §2. Visibilities. -/

/-- The visibility of an enum, with the white space up to the keyword; no name in it is raw. -/
inductive VisibilitySyntax where
  | inherited
  | bare (gap : Text) (blank : IsGap gap) (apart : gap ≠ [])
  | within (before scope after : Text) (blankBefore : IsGap before) (isScope : IsScope scope)
      (blankAfter : IsGap after)

namespace VisibilitySyntax

def text : VisibilitySyntax → Text
  | inherited => []
  | bare gap _ _ => "pub" ++ gap
  | within before scope after _ _ _ => "pub" ++ (before ++ (scope ++ after))

/-- The visibility as it is recorded, with the white space of its scope collapsed. -/
def shown : VisibilitySyntax → Text
  | inherited => []
  | bare _ _ _ => "pub"
  | within _ scope _ _ _ _ => "pub" ++ Text.collapse scope

end VisibilitySyntax

section Visibilities

variable {c : Cursor} {w : Text}

theorem isIdentifier_enum : IsIdentifier "enum" :=
  .inl ⟨'e', ['n', 'u', 'm'], rfl, rfl, by decide⟩

theorem isIdentifier_pub : IsIdentifier "pub" :=
  .inl ⟨'p', ['u', 'b'], rfl, rfl, by decide⟩

theorem firm_enum (eq : c.ahead = "enum" ++ w) : c.ahead.Firm := by
  rw [eq]
  exact @Text.Firm.of_isWord 'e' _ rfl

/-- White space that is not empty seals a word off. -/
theorem IsGap.sealed_of_ne_nil {gap : Text} (blank : IsGap gap) (apart : gap ≠ []) (w : Text) :
    Text.Sealed (gap ++ w) := by
  obtain ⟨ch, gap, rfl⟩ := List.exists_cons_of_ne_nil apart
  have here : IsGap [ch] := fun x mem => blank x (by simp_all)
  exact here.sealed (w := []) nofun

/-- **A written visibility is read as it is written**, and a keyword comes first. -/
theorem VisibilitySyntax.read (v : VisibilitySyntax) (eq : c.ahead = v.text ++ ("enum" ++ w))
    (sealed : w.Sealed) :
    ∃ word after behind, c.identifier? = some (word, after) ∧ (word = "pub" ∨ word = "enum")
      ∧ Visibility c v.shown behind ∧ Trivia false behind (c.advance v.text.length) := by
  have keyword := ahead_advance eq
  have stop : Trivia false (c.advance v.text.length) (c.advance v.text.length) :=
    .stop (firm_enum keyword).still.trivium?
  cases v with
  | inherited =>
      have found := isIdentifier_enum.identifier? eq sealed
      refine ⟨_, _, c, found, .inr rfl, .none fun after other => ?_, stop⟩
      rw [found] at other
      cases other
  | bare gap blank apart =>
      rw [text, List.append_assoc] at eq
      rw [text, List.length_append, ← advance_advance] at stop keyword ⊢
      have found := isIdentifier_pub.identifier? eq (blank.sealed_of_ne_nil apart _)
      have behind := ahead_advance eq
      have trivia := Trivia.blanks behind blank stop
      refine ⟨_, _, _, found, .inl rfl, .bare found trivia ?_, trivia⟩
      rw [keyword]
      rfl
  | within before scope after blankBefore isScope blankAfter =>
      simp only [text, List.append_assoc] at eq
      simp only [text, List.length_append, ← advance_advance] at stop ⊢
      have toScope := ahead_advance eq
      have here := ahead_advance toScope
      have behind := ahead_advance here
      have opens : scope.head? = some '(' := by cases isScope <;> rfl
      have first (ch : Char) (h : (scope ++ (after ++ ("enum" ++ w))).head? = some ch) : ch = '(' := by
        rw [List.head?_append, opens] at h
        exact (Option.some.inj h).symm
      have sealed' : Text.Sealed (before ++ (scope ++ (after ++ ("enum" ++ w)))) :=
        blankBefore.sealed fun ch h => by
          rw [first ch h]
          decide
      have found := isIdentifier_pub.identifier? eq sealed'
      have measured := scopeLength?_written isScope (after ++ ("enum" ++ w))
      rw [← here] at measured
      have firm : Text.Firm (scope ++ (after ++ ("enum" ++ w))) := fun ch h => by
        rw [first ch h]
        decide
      rw [← here] at firm
      have visible := Visibility.within found (.blanks toScope blankBefore (.stop firm.still.trivium?)) measured
      rw [here, List.take_left] at visible
      exact ⟨_, _, _, found, .inl rfl, visible, .blanks behind blankAfter stop⟩

end Visibilities

end EnumExtract
