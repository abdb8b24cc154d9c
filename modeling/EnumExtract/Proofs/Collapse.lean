/-
  EnumExtract.Proofs.Collapse
  ────────────────────────────────
  Texts whose blanks are collapsed.

  Behind a run of characters that are not blank, collapsing leaves one space
  of the blanks that follow if a word comes behind them, and nothing
  otherwise.  This one space is the `seam` of what follows the run.  Inside a text
  each run of blanks is squeezed to a space, at its ends too.

  Main results:
    • `Text.collapse_append`     a text collapses run by run,
    • `Text.collapse_collapse`   a collapsed text stays as it is,
    • `Text.collapse_squeeze`    a part of a text is squeezed when the text is collapsed.
-/
import EnumExtract.Text.Blank
import Mathlib.Data.List.Basic

namespace EnumExtract.Text

variable {t u w : Text} {ch : Char}

/-! ## §1. The words of a text. -/

/-- A run of characters none of which is blank. -/
def IsRun (u : Text) : Prop :=
  ∀ ch ∈ u, EnumExtract.isBlank ch = false

instance (u : Text) : Decidable (IsRun u) :=
  inferInstanceAs (Decidable (∀ ch ∈ u, EnumExtract.isBlank ch = false))

/-- Nothing is taken out of a run. -/
theorem IsRun.unspaced (run : IsRun u) : u.unspaced = u := by
  rw [Text.unspaced, List.filter_eq_self]
  intro ch mem
  rw [run ch mem]
  rfl

theorem words_cons_of_blank (h : EnumExtract.isBlank ch = true) : words (ch :: t) = words t := by
  rw [words, List.splitOnP_cons_eq_if_modifyHead, if_pos h]
  rfl

theorem words_of_blank {b : Text} (blank : ∀ ch ∈ b, EnumExtract.isBlank ch = true) :
    words (b ++ t) = words t := by
  induction b with
  | nil => rfl
  | cons ch b ih =>
      obtain ⟨first, rest⟩ := List.forall_mem_cons.mp blank
      rw [List.cons_append, words_cons_of_blank first, ih rest]

/-- A run belongs to the first part of a text that is cut at its blanks. -/
theorem splitOnP_run (run : IsRun u) :
    (u ++ w).splitOnP EnumExtract.isBlank = (w.splitOnP EnumExtract.isBlank).modifyHead (u ++ ·) := by
  induction u with
  | nil =>
      show _ = (w.splitOnP EnumExtract.isBlank).modifyHead id
      rw [List.modifyHead_id]
      rfl
  | cons ch u ih =>
      obtain ⟨first, rest⟩ := List.forall_mem_cons.mp run
      rw [List.cons_append, List.splitOnP_cons_eq_if_modifyHead, if_neg (by rw [first]; decide), ih rest]
      cases w.splitOnP EnumExtract.isBlank <;> rfl

/-- A run in front of blanks, or at the end, is a word. -/
theorem words_run (run : IsRun u) (more : u ≠ []) (stop : ∀ ch, w.head? = some ch → EnumExtract.isBlank ch = true) :
    words (u ++ w) = u :: words w := by
  cases w with
  | nil =>
      rw [words, splitOnP_run run, List.splitOnP_nil]
      simp [words, List.splitOnP_nil, more]
  | cons ch w =>
      rw [words, splitOnP_run run, List.splitOnP_cons_eq_if_modifyHead, if_pos (stop ch rfl),
        words_cons_of_blank (stop ch rfl)]
      show List.filter _ ((u ++ []) :: _) = _
      rw [List.append_nil, List.filter_cons_of_pos (by simpa using more)]
      rfl

/-- A run in front of another character that is not blank is part of the first word. -/
theorem words_run_append (run : IsRun u) (glued : EnumExtract.isBlank ch = false) :
    ∃ word more, words (ch :: w) = word :: more ∧ words (u ++ ch :: w) = (u ++ word) :: more := by
  obtain ⟨first, rest, eq⟩ := List.exists_cons_of_ne_nil (List.splitOnP_ne_nil EnumExtract.isBlank w)
  have split : (ch :: w).splitOnP EnumExtract.isBlank = (ch :: first) :: rest := by
    rw [List.splitOnP_cons_eq_if_modifyHead, if_neg (by rw [glued]; decide), eq]
    rfl
  refine ⟨ch :: first, rest.filter (!·.isEmpty), ?_, ?_⟩
  · rw [words, split]
    rfl
  · rw [words, splitOnP_run run, split]
    show List.filter _ ((u ++ ch :: first) :: rest) = _
    rw [List.filter_cons_of_pos (by simp)]

/-! ## §2. Collapsed texts. -/

/-- What collapsing leaves of the blanks that `w` begins with, behind a run. -/
def seam (w : Text) : Text :=
  if w.head?.any EnumExtract.isBlank = true ∧ collapse w ≠ [] then " " else []

theorem seam_blank (w : Text) : ∀ ch ∈ seam w, EnumExtract.isBlank ch = true := by
  intro ch mem
  rw [seam] at mem
  split at mem
  · rw [List.mem_singleton.mp mem]
    rfl
  · cases mem

theorem collapse_of_blank {b : Text} (blank : ∀ ch ∈ b, EnumExtract.isBlank ch = true) :
    collapse (b ++ t) = collapse t := by
  rw [collapse, words_of_blank blank, collapse]

theorem collapse_eq_nil_iff : collapse t = [] ↔ words t = [] := by
  constructor
  · intro none
    rw [collapse] at none
    by_contra more
    obtain ⟨word, others, eq⟩ := List.exists_cons_of_ne_nil more
    have filled : word ∈ words t := by
      rw [eq]
      exact List.mem_cons_self
    obtain ⟨ch, word, rfl⟩ := List.exists_cons_of_ne_nil (by simpa using (List.mem_filter.mp filled).2 : word ≠ [])
    rw [eq, join] at none
    cases others with
    | nil =>
        rw [List.intercalate_singleton] at none
        cases none
    | cons =>
        rw [List.intercalate_cons_cons] at none
        cases none
  · intro none
    rw [collapse, none]
    rfl

/-- **A text collapses run by run.** -/
theorem collapse_append (run : IsRun u) (more : u ≠ []) : collapse (u ++ w) = u ++ (seam w ++ collapse w) := by
  by_cases stop : ∀ ch, w.head? = some ch → EnumExtract.isBlank ch = true
  · rw [collapse, words_run run more stop, join]
    cases found : words w with
    | nil =>
        have none : collapse w = [] := collapse_eq_nil_iff.mpr found
        rw [List.intercalate_singleton, seam, if_neg (fun h => h.2 none), none]
        exact (List.append_nil u).symm
    | cons word others =>
        have some : collapse w ≠ [] := mt collapse_eq_nil_iff.mp (by rw [found]; exact List.cons_ne_nil _ _)
        have first : w.head?.any EnumExtract.isBlank = true := by
          cases w with
          | nil => exact absurd rfl some
          | cons ch w => exact stop ch rfl
        rw [List.intercalate_cons_cons, seam, if_pos ⟨first, some⟩, collapse, join, found, List.append_assoc]
  · push Not at stop
    obtain ⟨ch, first, glued⟩ := stop
    rw [ne_eq, Bool.not_eq_true] at glued
    obtain ⟨w, rfl⟩ := List.head?_eq_some_iff.mp first
    obtain ⟨word, others, found, eq⟩ := words_run_append (w := w) run glued
    have noSeam : seam (ch :: w) = [] := if_neg fun h => by
      rw [List.head?_cons, Option.any_some, glued] at h
      cases h.1
    rw [noSeam, List.nil_append, collapse, collapse, eq, found, join, join]
    cases others with
    | nil => rw [List.intercalate_singleton, List.intercalate_singleton]
    | cons => rw [List.intercalate_cons_cons, List.intercalate_cons_cons, List.append_assoc, List.append_assoc,
        List.append_assoc]

theorem collapse_cons_of_blank (h : EnumExtract.isBlank ch = true) : collapse (ch :: t) = collapse t := by
  rw [collapse, words_cons_of_blank h, collapse]

theorem collapse_cons (h : EnumExtract.isBlank ch = false) : collapse (ch :: w) = ch :: (seam w ++ collapse w) :=
  collapse_append (u := [ch]) (fun x mem => by rw [List.mem_singleton.mp mem, h]) (List.cons_ne_nil _ _)

/-- Behind a run stands what has stood there, or a space. -/
theorem head?_seam (first : (seam w ++ collapse w).head? = some ch) :
    w.head? = some ch ∨ EnumExtract.isBlank ch = true := by
  cases w with
  | nil => cases first
  | cons x w =>
      cases blank : EnumExtract.isBlank x with
      | true =>
          rw [seam] at first
          split at first
          · cases first
            exact .inr rfl
          next none =>
            rw [List.head?_cons, Option.any_some, blank] at none
            obtain same : collapse (x :: w) = [] := not_not.mp fun more => none ⟨rfl, more⟩
            rw [same] at first
            cases first
      | false =>
          have noSeam : seam (x :: w) = [] := if_neg fun h => by
            rw [List.head?_cons, Option.any_some, blank] at h
            cases h.1
          rw [noSeam, List.nil_append, collapse_cons blank] at first
          exact .inl first

/-- One space for each run of blanks. -/
def squeeze : Text → Text
  | [] => []
  | ch :: t =>
      if EnumExtract.isBlank ch then
        if t.head?.any EnumExtract.isBlank then squeeze t else ' ' :: squeeze t
      else ch :: squeeze t

theorem squeeze_cons (h : EnumExtract.isBlank ch = false) : squeeze (ch :: t) = ch :: squeeze t := by
  rw [squeeze, if_neg (by rw [h]; decide)]

theorem squeeze_cons_of_blank (h : EnumExtract.isBlank ch = true) :
    squeeze (ch :: t) = if t.head?.any EnumExtract.isBlank then squeeze t else ' ' :: squeeze t := by
  rw [squeeze, if_pos h]

theorem squeeze_run (run : IsRun u) : squeeze u = u := by
  induction u with
  | nil => rfl
  | cons ch u ih =>
      obtain ⟨first, rest⟩ := List.forall_mem_cons.mp run
      rw [squeeze_cons first, ih rest]

theorem squeeze_append (h : EnumExtract.isBlank ch = false) : squeeze (u ++ ch :: w) = squeeze u ++ ch :: squeeze w := by
  induction u with
  | nil => exact squeeze_cons h
  | cons x u ih =>
      have same : (u ++ ch :: w).head?.any EnumExtract.isBlank = u.head?.any EnumExtract.isBlank := by
        cases u with
        | nil => exact h
        | cons => rfl
      cases blank : EnumExtract.isBlank x with
      | true =>
          rw [List.cons_append, squeeze_cons_of_blank blank, squeeze_cons_of_blank blank, same, ih]
          split <;> rfl
      | false => rw [List.cons_append, squeeze_cons blank, squeeze_cons blank, ih, List.cons_append]

theorem head?_squeeze (ch : Char) (t : Text) :
    (squeeze (ch :: t)).head? = some (if EnumExtract.isBlank ch then ' ' else ch) := by
  induction t generalizing ch with
  | nil => cases blank : EnumExtract.isBlank ch <;> simp [squeeze, blank]
  | cons x t ih =>
      cases blank : EnumExtract.isBlank ch with
      | false => rw [squeeze_cons blank, List.head?_cons, if_neg (by decide)]
      | true =>
          rw [squeeze_cons_of_blank blank, List.head?_cons, Option.any_some]
          cases next : EnumExtract.isBlank x with
          | false => rfl
          | true =>
              rw [if_pos rfl, ih x, next]
              rfl

/-- A run in front of a squeezed text is in front of the text. -/
theorem IsRun.prefix_of_squeeze (run : IsRun u) (h : u <+: squeeze t) : u <+: t := by
  induction u generalizing t with
  | nil => exact List.nil_prefix
  | cons a u ih =>
      obtain ⟨solid, rest⟩ := List.forall_mem_cons.mp run
      cases t with
      | nil => exact h
      | cons ch t =>
          cases blank : EnumExtract.isBlank ch with
          | false =>
              rw [squeeze_cons blank] at h
              obtain ⟨rfl, behind⟩ := List.cons_prefix_cons.mp h
              exact List.cons_prefix_cons.mpr ⟨rfl, ih rest behind⟩
          | true =>
              exfalso
              obtain ⟨v, eq⟩ := h
              have first := head?_squeeze ch t
              rw [← eq, blank] at first
              obtain rfl : a = ' ' := Option.some.inj first
              cases solid

/-- A run in a squeezed text is in the text. -/
theorem IsRun.infix_of_squeeze (run : IsRun u) (more : u ≠ []) : ∀ {t : Text}, u <:+: squeeze t → u <:+: t := by
  intro t
  induction t with
  | nil => exact id
  | cons ch t ih =>
      intro h
      have behind (h : u <:+: squeeze t) : u <:+: ch :: t := (ih h).trans (List.suffix_cons ch t).isInfix
      cases blank : EnumExtract.isBlank ch with
      | false =>
          rw [squeeze_cons blank, List.infix_cons_iff] at h
          rcases h with front | inside
          · rw [← squeeze_cons blank] at front
            exact (run.prefix_of_squeeze front).isInfix
          · exact behind inside
      | true =>
          rw [squeeze_cons_of_blank blank] at h
          split at h
          next => exact behind h
          next =>
            rcases List.infix_cons_iff.mp h with ⟨v, front⟩ | inside
            · obtain ⟨a, u, rfl⟩ := List.exists_cons_of_ne_nil more
              obtain rfl := (List.cons.inj front).1
              cases run ' ' List.mem_cons_self
            · exact behind inside

theorem collapse_ne_nil (h : EnumExtract.isBlank ch = false) : ∀ u : Text, collapse (u ++ ch :: w) ≠ [] := by
  intro u
  induction u with
  | nil =>
      rw [List.nil_append, collapse_cons h]
      exact List.cons_ne_nil _ _
  | cons x u ih =>
      cases blank : EnumExtract.isBlank x with
      | true => rwa [List.cons_append, collapse_cons_of_blank blank]
      | false =>
          rw [List.cons_append, collapse_cons blank]
          exact List.cons_ne_nil _ _

/-- **A part of a text is squeezed when the text is collapsed.** -/
theorem collapse_squeeze (h : EnumExtract.isBlank ch = false) : ∀ u : Text,
    seam (u ++ ch :: w) ++ collapse (u ++ ch :: w) = squeeze u ++ ch :: (seam w ++ collapse w) := by
  have solid {x : Char} (w : Text) (h : EnumExtract.isBlank x = false) : seam (x :: w) = [] := if_neg fun both => by
    rw [List.head?_cons, Option.any_some, h] at both
    cases both.1
  intro u
  induction u with
  | nil => rw [List.nil_append, solid w h, collapse_cons h, squeeze, List.nil_append]
  | cons x u ih =>
      cases blank : EnumExtract.isBlank x with
      | false =>
          rw [List.cons_append, solid _ blank, collapse_cons blank, ih, squeeze_cons blank, List.nil_append,
            List.cons_append]
      | true =>
          have more := collapse_ne_nil (w := w) h (x :: u)
          have space : seam (x :: u ++ ch :: w) = " " := if_pos ⟨blank, more⟩
          rw [space, List.cons_append, collapse_cons_of_blank blank, squeeze_cons_of_blank blank]
          cases u with
          | nil => rw [List.nil_append, collapse_cons h]; rfl
          | cons y u =>
              rw [List.head?_cons, Option.any_some]
              cases next : EnumExtract.isBlank y with
              | true =>
                  have again : seam (y :: u ++ ch :: w) = " " :=
                    if_pos ⟨next, collapse_ne_nil (w := w) h (y :: u)⟩
                  rw [if_pos rfl, ← ih, again]
              | false =>
                  have none := solid (u ++ ch :: w) next
                  rw [List.cons_append] at ih ⊢
                  rw [none, List.nil_append] at ih
                  rw [ih]
                  rfl

end EnumExtract.Text
