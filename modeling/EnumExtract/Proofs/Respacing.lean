/-
  EnumExtract.Proofs.Respacing
  ────────────────────────────────
  Types whose blanks are changed.

      type     gap, token, gap, token, …, gap
      token    a name, a name behind `'`, a digit with the word characters and
               dots behind it, one of `::`, `->` and `=>`, or a single character

  Where a token stops is seen at the character behind it: it is none that the
  token `grows` with, and a blank never is.  So a gap can be put in everywhere
  between two tokens, and a gap that is there can be any other; it must not be
  taken away, since `a b` is two tokens and `ab` is one.

  Main results:
    • `tokenize_eq_iff`   the tokens of a text are those that it writes, with
                          gaps in front of them and behind them,
    • `Respaced.written`  a text with other gaps writes the same tokens,
    • `ofText_respaced`   what a type has lost when it is compared with others,
                          and what it has kept.
-/
import EnumExtract.Proofs.Collapse
import EnumExtract.Proofs.Grammar.Attributes
import EnumExtract.Proofs.Tokens

namespace EnumExtract

namespace FieldType

variable {b t t' u w rest : Text} {c ch : Char} {grows : Char → Bool} {ws : List Text}

/-! ## §1. The shapes of tokens. -/

/-- The tokens that are two marks. -/
def pairs : List Text :=
  ["::", "->", "=>"]

theorem pairs_run : ∀ w ∈ pairs, Text.IsRun w := by decide

/-- A token, and the characters that it grows with where they stand behind it. -/
inductive TokenShape : Text → (Char → Bool) → Prop where
  | name {w : Text} (h : IsName w) : TokenShape w isWord
  | lifetime {w : Text} (h : IsName w) : TokenShape ('\'' :: w) isWord
  | number {c : Char} {w : Text} (solid : isBlank c = false) (start : isNameStart c = false)
      (digit : isDecimalDigit c = true) (more : ∀ ch ∈ w, (isWord ch || ch == '.') = true) :
      TokenShape (c :: w) fun ch => isWord ch || ch == '.'
  | pair {w : Text} (h : w ∈ pairs) : TokenShape w fun _ => false
  | mark {c : Char} (solid : isBlank c = false) (start : isNameStart c = false)
      (digit : isDecimalDigit c = false) :
      TokenShape [c] fun ch => (c == '\'' && isNameStart ch) || pairs.contains [c, ch]

/-- What stands behind a token does not go on with it. -/
def Stops (grows : Char → Bool) (rest : Text) : Prop :=
  ∀ ch, rest.head? = some ch → grows ch = false

theorem any_startsWith_pairs (rest : Text) : pairs.any (Text.startsWith (c :: rest))
    = rest.head?.any fun ch => pairs.contains [c, ch] := by
  cases rest with
  | nil => simp [pairs, Text.startsWith, List.isPrefixOf]
  | cons ch rest => simp [pairs, Text.startsWith, List.isPrefixOf, eq_comm, Bool.beq_eq_decide_eq]

/-- **A token is as long as its shape says** where it stops. -/
theorem tokenLength_append (shape : TokenShape w grows) (stop : Stops grows rest) :
    tokenLength (w ++ rest) = w.length := by
  cases shape with
  | name h => exact tokenLength_name h stop
  | @lifetime w h =>
      have length := Text.nameLength_append h stop
      have more : w.length ≠ 0 := mt List.length_eq_zero_iff.mp h.ne_nil
      rw [List.cons_append, tokenLength]
      simp only [if_true, length, if_pos more, List.length_cons]
  | @number c v solid start digit more =>
      have quote : c ≠ '\'' := by
        rintro rfl
        cases digit
      have noName : Text.nameLength (c :: (v ++ rest)) = 0 := Text.nameLength_eq_zero fun ch first => by
        cases first
        exact start
      have taken := takeWhile_append_stop more stop
      rw [List.cons_append, tokenLength]
      simp only [if_neg quote, noName, ne_eq, not_true, if_false, digit, if_true, taken, List.length_cons]
  | pair h =>
      simp only [pairs, List.mem_cons, List.not_mem_nil, or_false] at h
      rcases h with rfl | rfl | rfl <;> rfl
  | @mark c solid start digit =>
      -- had a pair or a lifetime begun here, the mark would grow with what follows
      have noPair : pairs.any (Text.startsWith (c :: rest)) = false := by
        rw [any_startsWith_pairs, Bool.eq_false_iff]
        intro pair
        obtain ⟨ch, first, pair⟩ := (Option.any_eq_true _ _).mp pair
        have := (Bool.or_eq_false_iff.mp (stop ch first)).2
        rw [this] at pair
        cases pair
      have noName : (if c = '\'' then Text.nameLength rest else Text.nameLength (c :: rest)) = 0 := by
        split
        next quote =>
          refine Text.nameLength_eq_zero fun ch first => ?_
          have := (Bool.or_eq_false_iff.mp (stop ch first)).1
          rwa [quote, beq_self_eq_true, Bool.true_and] at this
        next =>
          refine Text.nameLength_eq_zero fun ch first => ?_
          cases first
          exact start
      rw [List.singleton_append, tokenLength]
      rw [pairs] at noPair
      simp only [noName, ne_eq, not_true, if_false, digit, noPair, Bool.false_eq_true, List.length_singleton]

/-- **A token stands in front** of every text that does not begin with a blank. -/
theorem exists_shape (solid : isBlank c = false) (t : Text) :
    ∃ w rest grows, c :: t = w ++ rest ∧ TokenShape w grows ∧ Stops grows rest := by
  -- in the order in which the tokens are tried, but for the quotation mark, which starts no name
  cases start : isNameStart c with
  | true =>
      rcases Text.nameLength_cases (c :: t) with ⟨_, none⟩ | ⟨w, rest, eq, name, _, stop⟩
      · have := none c rfl
        rw [start] at this
        cases this
      · exact ⟨w, rest, isWord, eq, .name name, stop⟩
  | false =>
      cases digit : isDecimalDigit c with
      | true =>
          refine ⟨c :: t.takeWhile fun ch => isWord ch || ch == '.', t.dropWhile fun ch => isWord ch || ch == '.', _,
            ?_, .number solid start digit fun ch mem => ?_, fun ch first => ?_⟩
          · rw [List.cons_append, List.takeWhile_append_dropWhile]
          · exact List.all_eq_true.mp List.all_takeWhile ch mem
          · have := List.head?_dropWhile_not (fun ch => isWord ch || ch == '.') t
            rw [first] at this
            simpa using this
      | false =>
          by_cases quote : c = '\''
          · subst quote
            rcases Text.nameLength_cases t with ⟨_, none⟩ | ⟨w, rest, rfl, name, _, stop⟩
            · refine ⟨['\''], t, _, rfl, .mark solid start digit, fun ch first => ?_⟩
              rw [none ch first]
              rfl
            · exact ⟨'\'' :: w, rest, isWord, rfl, .lifetime name, stop⟩
          · by_cases pair : ∃ d rest, t = d :: rest ∧ [c, d] ∈ pairs
            · obtain ⟨d, rest, rfl, pair⟩ := pair
              exact ⟨[c, d], rest, _, rfl, .pair pair, fun _ _ => rfl⟩
            · refine ⟨[c], t, _, rfl, .mark solid start digit, fun ch first => ?_⟩
              obtain ⟨rest, rfl⟩ := List.head?_eq_some_iff.mp first
              have plain : pairs.contains [c, ch] = false := by
                rw [Bool.eq_false_iff]
                exact fun more => pair ⟨ch, rest, rfl, List.contains_iff_mem.mp more⟩
              rw [plain, beq_eq_false_iff_ne.mpr quote]
              rfl

theorem TokenShape.ne_nil (shape : TokenShape w grows) : w ≠ [] := by
  cases shape with
  | name h => exact h.ne_nil
  | lifetime h => exact List.cons_ne_nil _ _
  | number solid start digit more => exact List.cons_ne_nil _ _
  | pair h =>
      rintro rfl
      revert h
      decide
  | mark solid start digit => exact List.cons_ne_nil _ _

/-- No token holds a blank. -/
theorem TokenShape.run (shape : TokenShape w grows) : Text.IsRun w := by
  have word {n : Text} (h : IsName n) : Text.IsRun n := fun ch mem => not_isBlank_of_isWord (h.isWord ch mem)
  cases shape with
  | name h => exact word h
  | lifetime h => exact List.forall_mem_cons.mpr ⟨rfl, word h⟩
  | number solid start digit more =>
      refine List.forall_mem_cons.mpr ⟨solid, fun ch mem => ?_⟩
      have more := more ch mem
      rw [Bool.or_eq_true, beq_iff_eq] at more
      cases more with
      | inl word => exact not_isBlank_of_isWord word
      | inr dot => rw [dot]; rfl
  | pair h => exact pairs_run _ h
  | mark solid start digit => exact List.forall_mem_singleton.mpr solid

/-- No token grows with a blank. -/
theorem TokenShape.grows_blank (shape : TokenShape w grows) (blank : isBlank ch = true) : grows ch = false := by
  have noWord : isWord ch = false := not_isWord_of_isBlank blank
  cases shape with
  | name h => exact noWord
  | lifetime h => exact noWord
  | number solid start digit more =>
      show (isWord ch || ch == '.') = false
      rw [noWord, beq_eq_false_iff_ne.mpr (ne_of_isBlank blank rfl)]
      rfl
  | pair h => rfl
  | @mark c solid start digit =>
      have noStart : isNameStart ch = false := by
        rw [Bool.eq_false_iff]
        intro start
        rw [isWord_of_isNameStart start] at noWord
        cases noWord
      have noPair : pairs.contains [c, ch] = false := by
        rw [Bool.eq_false_iff]
        intro pair
        have solid := pairs_run _ (List.contains_iff_mem.mp pair) ch (by simp)
        rw [blank] at solid
        cases solid
      show (c == '\'' && isNameStart ch || pairs.contains [c, ch]) = false
      rw [noStart, noPair, Bool.and_false, Bool.or_false]

/-! ## §2. Tokens as they are written. -/

/-- The text writes these tokens, with gaps in front of them and behind the last one. -/
inductive Written : List Text → Text → Prop where
  | done {b : Text} (blank : IsGap b) : Written [] b
  | token {b w rest : Text} {grows : Char → Bool} {ws : List Text} (blank : IsGap b) (shape : TokenShape w grows)
      (stop : Stops grows rest) (more : Written ws rest) : Written (w :: ws) (b ++ (w ++ rest))

theorem Written.gap (blank : IsGap b) (h : Written ws t) : Written ws (b ++ t) := by
  cases h with
  | done blank' => exact .done (blank.append blank')
  | token blank' shape stop more =>
      rw [← List.append_assoc]
      exact .token (blank.append blank') shape stop more

theorem Written.tokenize (h : Written ws t) : tokenize t = ws := by
  unfold FieldType.tokenize
  induction h with
  | done blank =>
      have skip := go_blanks (w := []) blank
      rwa [List.append_nil] at skip
  | token blank shape stop more ih =>
      obtain ⟨c, v, rfl⟩ := List.exists_cons_of_ne_nil shape.ne_nil
      have solid : isBlank c = false := shape.run c List.mem_cons_self
      rw [go_blanks blank, go_token rfl solid (tokenLength_append shape stop), ih]

theorem exists_written (t : Text) : ∃ ws, Written ws t := by
  -- behind a blank or a token the text is shorter
  induction size : t.length using Nat.strongRecOn generalizing t with
  | _ n ih =>
      subst size
      cases t with
      | nil => exact ⟨[], .done IsGap.nil⟩
      | cons c t =>
          cases blank : isBlank c with
          | true =>
              obtain ⟨ws, more⟩ := ih t.length (Nat.lt_succ_self _) t rfl
              exact ⟨ws, more.gap (List.forall_mem_singleton.mpr blank)⟩
          | false =>
              obtain ⟨w, rest, grows, eq, shape, stop⟩ := exists_shape blank t
              have shorter : rest.length < (c :: t).length := by
                have pos := List.length_pos_of_ne_nil shape.ne_nil
                rw [eq, List.length_append]
                omega
              obtain ⟨ws, more⟩ := ih rest.length shorter rest rfl
              rw [eq]
              exact ⟨w :: ws, .token IsGap.nil shape stop more⟩

/-- **The tokens of a text are those that it writes.** -/
theorem tokenize_eq_iff : FieldType.tokenize t = ws ↔ Written ws t := by
  constructor
  · rintro rfl
    obtain ⟨ws, h⟩ := exists_written t
    rwa [h.tokenize]
  · exact Written.tokenize

theorem Written.flatten (h : Written ws t) : ws.flatten = t.unspaced := by
  induction h with
  | done blank => exact blank.unspaced.symm
  | token blank shape stop more ih =>
      rw [Text.unspaced_append, Text.unspaced_append, blank.unspaced, shape.run.unspaced, List.flatten_cons, ih]
      rfl

/-- A blank may stand behind every token. -/
theorem TokenShape.stops (shape : TokenShape w grows)
    (h : ∀ ch, rest.head? = some ch → isBlank ch = true ∨ grows ch = false) : Stops grows rest := by
  intro ch first
  cases h ch first with
  | inl blank => exact shape.grows_blank blank
  | inr stop => exact stop

/-- A type whose blanks are collapsed writes the same tokens. -/
theorem Written.collapse (h : Written ws t) : Written ws t.collapse := by
  induction h with
  | @done b blank =>
      have none : Text.collapse b = [] := by
        have skip := Text.collapse_of_blank (t := []) blank
        rwa [List.append_nil] at skip
      rw [none]
      exact .done IsGap.nil
  | @token b w rest grows ws blank shape stop more ih =>
      rw [Text.collapse_of_blank blank, Text.collapse_append shape.run shape.ne_nil]
      refine .token IsGap.nil shape (shape.stops fun ch first => ?_) (ih.gap (Text.seam_blank rest))
      exact (Text.head?_seam first).symm.imp_right (stop ch)

/-- Tokens with gaps of any kind between them are written so. -/
theorem Written.join {gap : Text} (blank : IsGap gap) (apart : gap ≠ []) (h : Written ws t) :
    Written ws (Text.join gap ws) := by
  induction h with
  | done _ => exact .done IsGap.nil
  | @token b w rest grows ws _ shape stop more ih =>
      cases ws with
      | nil =>
          -- no gap is put behind the last token
          have alone : Written [w] ([] ++ (w ++ [])) :=
            .token IsGap.nil shape (fun ch first => by cases first) (.done IsGap.nil)
          rw [Text.join, List.intercalate_singleton]
          rwa [List.nil_append, List.append_nil] at alone
      | cons v ws =>
          rw [Text.join, List.intercalate_cons_cons, List.append_assoc]
          refine .token IsGap.nil shape (shape.stops fun ch first => .inl ?_) (ih.gap blank)
          rw [List.head?_append_of_ne_nil _ apart] at first
          exact blank ch (List.mem_of_head? first)

/-! ## §3. Other gaps. -/

/-- The two texts have these tokens, and where there is a gap between two of them in the first,
there is one in the second.  What stands behind the last token is any gap. -/
inductive Respaced : List Text → Text → Text → Prop where
  | done {b b' : Text} (blank : IsGap b) (blank' : IsGap b') : Respaced [] b b'
  | token {b b' w u u' : Text} {ws : List Text} (blank : IsGap b) (blank' : IsGap b') (kept : b ≠ [] → b' ≠ [])
      (more : Respaced ws u u') : Respaced (w :: ws) (b ++ (w ++ u)) (b' ++ (w ++ u'))

/-- The second text is the first with other gaps between its tokens, with more of them, and with
any gaps at the ends. -/
def Respacing (t t' : Text) : Prop :=
  ∃ b b' u u', IsGap b ∧ IsGap b' ∧ t = b ++ u ∧ t' = b' ++ u' ∧ Respaced (FieldType.tokenize t) u u'

/-- Behind a gap, a run stands in front of one rest only. -/
theorem gap_run_inj {b b' u u' : Text} (blank : IsGap b) (blank' : IsGap b') (run : Text.IsRun w) (more : w ≠ [])
    (eq : b ++ (w ++ u) = b' ++ (w ++ u')) : b = b' ∧ u = u' := by
  obtain ⟨c, v, rfl⟩ := List.exists_cons_of_ne_nil more
  have solid : isBlank c = false := run c List.mem_cons_self
  have front {g r : Text} (blank : IsGap g) : (g ++ (c :: v ++ r)).takeWhile isBlank = g := by
    refine takeWhile_append_stop blank fun ch first => ?_
    cases first
    exact solid
  obtain rfl : b = b' := by
    calc b = (b ++ (c :: v ++ u)).takeWhile isBlank := (front blank).symm
      _ = (b' ++ (c :: v ++ u')).takeWhile isBlank := by rw [eq]
      _ = b' := front blank'
  exact ⟨rfl, List.append_cancel_left (List.append_cancel_left eq)⟩

/-- What comes behind a token has been there before, or is a blank. -/
theorem Respaced.head? (h : Respaced ws u t) (written : Written ws u) (first : t.head? = some ch) :
    isBlank ch = true ∨ u.head? = some ch := by
  cases h with
  | done blank blank' => exact .inl (blank' ch (List.mem_of_head? first))
  | @token b b' w u u' ws blank blank' kept more =>
      cases b' with
      | cons x b' =>
          rw [List.cons_append, List.head?_cons] at first
          cases first
          exact .inl (blank' ch List.mem_cons_self)
      | nil =>
          -- there is no gap, so there was none
          obtain rfl : b = [] := not_not.mp fun gap => kept gap rfl
          have filled : w ≠ [] := by
            generalize eq : ([] : Text) ++ (w ++ u) = v at written
            cases written with
            | @token g w _ _ _ _ shape _ _ => exact shape.ne_nil
          rw [List.nil_append, List.head?_append_of_ne_nil _ filled] at first ⊢
          exact .inr first

/-- **A text with other gaps writes the same tokens.** -/
theorem Respaced.written (h : Respaced ws u t) : Written ws u → Written ws t := by
  induction h with
  | done blank blank' => exact fun _ => .done blank'
  | @token b b' w u u' ws blank blank' kept more ih =>
      intro written
      generalize eq : b ++ (w ++ u) = v at written
      cases written with
      | @token g _ rest grows _ gap shape stop written =>
          obtain ⟨_, rfl⟩ := gap_run_inj blank gap shape.run shape.ne_nil eq
          refine .token blank' shape (shape.stops fun ch first => ?_) (ih written)
          exact (more.head? written first).imp_right (stop ch)

/-! ## §4. Types that are the same. -/

theorem same_iff {a b : FieldType} : same a b = true ↔ a.tokens = b.tokens :=
  decide_eq_true_iff

/-- Behind the gap that a text begins with it writes the same tokens. -/
theorem Written.of_gap (blank : IsGap b) (h : Written ws (b ++ t)) : Written ws t := by
  have tokens := h.tokenize
  rw [FieldType.tokenize, go_blanks blank] at tokens
  exact tokenize_eq_iff.mp tokens

/-- **A type is its tokens.**  They are what is left of a text when its blanks are taken out;
they are read again from the text that is printed, and from the tokens with gaps between them.
Types that differ in their gaps only are the same, and types that are the same have the same
text but for the blanks. -/
theorem ofText_respaced (t : Text) :
    (ofText t).tokens.flatten = t.unspaced
      ∧ (ofText (ofText t).text).tokens = (ofText t).tokens
      ∧ (∀ gap, IsGap gap → gap ≠ [] → (ofText (Text.join gap (ofText t).tokens)).tokens = (ofText t).tokens)
      ∧ (∀ t', Respacing t t' → same (ofText t) (ofText t') = true)
      ∧ (∀ t', same (ofText t) (ofText t') = true → t.unspaced = t'.unspaced) := by
  have written (t : Text) : Written (FieldType.tokenize t) t := tokenize_eq_iff.mp rfl
  refine ⟨(written t).flatten, (written t).collapse.tokenize,
    fun gap blank apart => ((written t).join blank apart).tokenize, ?_, fun t' h => ?_⟩
  · rintro _ ⟨b, b', u, u', blank, blank', rfl, rfl, respaced⟩
    have behind := respaced.written ((written (b ++ u)).of_gap blank)
    exact same_iff.mpr (behind.gap blank').tokenize.symm
  · have tokens : FieldType.tokenize t = FieldType.tokenize t' := same_iff.mp h
    rw [← (written t).flatten, tokens, (written t').flatten]

/-- The blank behind a lifetime can be any gap, but it must stay. -/
theorem lifetime_respaced :
    Respacing "&'a T" " & 'a\n  T " ∧ same (ofText "&'a T") (ofText " & 'a\n  T ") = true
      ∧ same (ofText "&'a T") (ofText "&'aT") = false := by
  have blank {b : Text} (h : b.all isBlank = true) : IsGap b := List.all_eq_true.mp h
  have last : Respaced ["T"] " T" "\n  T " :=
    @Respaced.token " " "\n  " "T" [] " " [] (blank rfl) (blank rfl) (fun _ => by decide) (.done IsGap.nil (blank rfl))
  have more : Respaced ["'a", "T"] "'a T" " 'a\n  T " :=
    @Respaced.token [] " " "'a" " T" "\n  T " ["T"] IsGap.nil (blank rfl) (fun gap => absurd rfl gap) last
  have all : Respaced ["&", "'a", "T"] "&'a T" "& 'a\n  T " :=
    @Respaced.token [] [] "&" "'a T" " 'a\n  T " ["'a", "T"] IsGap.nil IsGap.nil id more
  have respacing : Respacing "&'a T" " & 'a\n  T " :=
    ⟨[], " ", "&'a T", "& 'a\n  T ", IsGap.nil, blank rfl, rfl, rfl, all⟩
  exact ⟨respacing, (ofText_respaced "&'a T").2.2.2.1 _ respacing, by decide +kernel⟩

end FieldType

end EnumExtract
