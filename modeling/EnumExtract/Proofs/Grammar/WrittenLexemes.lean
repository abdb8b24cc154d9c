/-
  EnumExtract.Proofs.Grammar.WrittenLexemes
  ────────────────────────────────
  Comments and literals by what they say.

  A `WrittenLexeme` is a lexeme as its author has it in mind: the content of a
  string, before quotation marks and backslashes are escaped; the content of a
  raw string and the number of its hashes; a block comment as a tree of the
  comments inside it; the content of a line.  `WrittenLexeme.text` writes it
  down, and the reader finds where it ends, whatever stands behind it.

      "a \"b\" \\"            the content `a "b" \`
      br##"a"#"##             the content `a"#`, with two hashes
      /* a /* b */ c */       a comment with another one inside

  Main results:
    • `CommentBody.length`        a block comment counts what is open as it opens
                                  and closes it,
    • `WrittenLexeme.measured`    every written lexeme is one lexeme.
-/
import EnumExtract.Proofs.Grammar.TypeLists

namespace EnumExtract

open Cursor

/-! ## §1. Strings. -/

/-- The content of a string with a backslash before each backslash and quotation mark. -/
def escapeString (content : Text) : Text :=
  content.flatMap fun ch => if ch = '\\' ∨ ch = '"' then ['\\', ch] else [ch]

theorem isStringBody_escapeString (content : Text) : IsStringBody (escapeString content) := by
  induction content with
  | nil => exact .nil
  | cons ch content ih =>
      rw [escapeString, List.flatMap_cons]
      by_cases special : ch = '\\' ∨ ch = '"'
      · rw [if_pos special]
        exact .escape ih
      · rw [if_neg special]
        rw [not_or] at special
        exact .plain special.2 special.1 ih

/-! ## §2. Block comments. -/

/-- A text without slashes and stars. -/
structure PlainText where
  text : Text
  noSlash : '/' ∉ text
  noStar : '*' ∉ text

/-- What stands between the opener and the closer of a block comment. -/
inductive CommentBody where
  | plain (u : PlainText)
  /-- Plain text, a comment, and what stands behind that. -/
  | nested (u : PlainText) (inner rest : CommentBody)

def CommentBody.text : CommentBody → Text
  | plain u => u.text
  | nested u inner rest => u.text ++ "/*" ++ inner.text ++ "*/" ++ rest.text

/-- Plain text neither opens nor closes a comment, not even with what follows it. -/
theorem PlainText.length (u : PlainText) (depth : Nat) (w : Text) :
    blockLength? depth (u.text ++ w) = (blockLength? depth w).map (· + u.text.length) := by
  obtain ⟨u, noSlash, noStar⟩ := u
  simp only
  induction u with
  | nil => cases h : blockLength? depth w <;> simp [h]
  | cons ch u ih =>
      rw [List.mem_cons, not_or] at noSlash noStar
      rw [List.cons_append, blockLength?.eq_3 _ _ _ (fun _ same _ => noSlash.1 same.symm)
        (fun _ same _ => noStar.1 same.symm), ih noSlash.2 noStar.2]
      cases blockLength? depth w <;> simp [Nat.add_assoc]

/-- **A comment inside a comment is passed as a whole**, so that as much is open behind the body of a
comment as before it. -/
theorem CommentBody.length (body : CommentBody) : ∀ (depth : Nat) (w : Text),
    blockLength? (depth + 1) (body.text ++ w)
      = (blockLength? (depth + 1) w).map (· + body.text.length) := by
  induction body with
  | plain u => exact fun depth w => u.length (depth + 1) w
  | nested u inner rest inside behind =>
      intro depth w
      have cut : (CommentBody.nested u inner rest).text ++ w
          = u.text ++ '/' :: '*' :: (inner.text ++ '*' :: '/' :: (rest.text ++ w)) := by
        simp [text]
      have size : (CommentBody.nested u inner rest).text.length
          = u.text.length + 2 + inner.text.length + 2 + rest.text.length := by
        simp [text]
        omega
      have deep : ¬ depth + 1 + 1 ≤ 1 := by omega
      rw [cut, u.length, blockLength?, inside (depth + 1), blockLength?, if_neg deep,
        Nat.add_sub_cancel, behind depth, size]
      cases blockLength? (depth + 1) w with
      | none => rfl
      | some n =>
          simp only [Option.map_some, Option.some.injEq]
          omega

theorem CommentBody.isLexeme (body : CommentBody) : IsLexeme ('/' :: '*' :: (body.text ++ "*/")) := by
  refine .block ?_
  show (blockLength? 1 (body.text ++ '*' :: '/' :: [])).map (· + 2) = _
  rw [body.length 0, blockLength?, if_pos (Nat.le_refl 1), List.length_append]
  show some (2 + body.text.length + 2) = some (body.text.length + 2 + 2)
  rw [Nat.add_comm 2]

/-! ## §3. Lexemes as they are written. -/

/-- A line without a line feed goes on to the end of the text. -/
theorem lineLength_of_single {u : Text} (feed : '\n' ∉ u) : lineLength u = u.length := by
  have all := length_le_lineLength feed []
  rw [List.append_nil] at all
  exact Nat.le_antisymm (lineLength_le u) all

/-- The character before a place that a text comes up to is the last of that text. -/
theorem before_cursor (u w : Text) : (Text.cursor (u ++ w) u.length).before = u.getLast? := by
  rw [List.getLast?_eq_getElem?]
  show (if u.length = 0 then none else (u ++ w)[u.length - 1]?) = u[u.length - 1]?
  split
  next none =>
    rw [List.length_eq_zero_iff.mp none]
    rfl
  next some => rw [List.getElem?_append_left (by omega)]

/-- A comment or literal, by what it says. -/
inductive WrittenLexeme where
  | string (content : Text)
  | rawString (letters : Text) (mem : letters ∈ rawLetters) (hashes : Nat) (content : Text)
      (closed : ¬ rawCloser hashes <:+: content)
  | block (body : CommentBody)
  | line (content : Text) (feed : '\n' ∉ content)
  /-- A line comment that the end of the text ends. -/
  | lastLine (content : Text) (feed : '\n' ∉ content)

namespace WrittenLexeme

def text : WrittenLexeme → Text
  | string content => '"' :: escapeString content ++ ['"']
  | rawString letters _ hashes content _ =>
      letters ++ List.replicate hashes '#' ++ '"' :: content ++ rawCloser hashes
  | block body => '/' :: '*' :: (body.text ++ "*/")
  | line content _ => '/' :: '/' :: content ++ ['\n']
  | lastLine content _ => '/' :: '/' :: content

/-- Where the lexeme may stand, between the texts `before` and `after`: a raw string at the start of a
word, the last line at the end. -/
def Fits (before after : Text) : WrittenLexeme → Prop
  | rawString .. => ∀ ch, before.getLast? = some ch → isWord ch = false
  | lastLine .. => after = []
  | _ => True

/-- **Every written lexeme is one lexeme**: the reader that is at its first character finds its end,
whatever stands before and behind it. -/
theorem measured (l : WrittenLexeme) (before after : Text) (fits : l.Fits before after) :
    ((before ++ l.text ++ after).cursor before.length).lexeme? = .ok (some l.text.length) := by
  have ahead : ((before ++ l.text ++ after).cursor before.length).ahead = l.text ++ after := by
    rw [Text.cursor, List.append_assoc, List.drop_left]
  -- but for raw strings, no lexeme begins with a character of a word
  have fresh {ch : Char} {w : Text} (first : l.text = ch :: w) (noWord : isWord ch = false) :
      ((before ++ l.text ++ after).cursor before.length).Fresh := by
    refine .of_stop fun ch' first' => ?_
    rw [ahead, first] at first'
    cases first'
    exact noWord
  cases l with
  | string content =>
      exact (IsLexeme.string (isStringBody_escapeString content)).lexeme? ahead (fresh rfl rfl)
  | rawString letters mem hashes content closed =>
      refine (IsLexeme.rawString mem closed).lexeme? ahead fun _ _ _ => ?_
      rw [atWordStart, List.append_assoc, before_cursor, Option.all_eq_true]
      exact fun ch last => by rw [fits ch last]; rfl
  | block body => exact body.isLexeme.lexeme? ahead (fresh rfl rfl)
  | line content feed => exact (IsLexeme.line feed).lexeme? ahead (fresh rfl rfl)
  | lastLine content feed =>
      obtain rfl : after = [] := fits
      have single : '\n' ∉ ('/' :: '/' :: content : Text) := by simpa using feed
      refine lexeme?_some_iff.mpr (.inl ?_)
      rw [comment?.eq_def, ahead, List.append_nil, text, ← lineLength_of_single single]
      rfl

/-- A raw string that holds a quotation mark with one hash, and ends in a backslash. -/
def quoteInside : WrittenLexeme :=
  rawString "br" (by simp [rawLetters]) 2 "a\"#\\" (by decide)

/-- A quotation mark with a hash stands behind the string, too. -/
theorem measured_quoteInside :
    quoteInside.Fits "x = " "\"#"
      ∧ (Text.cursor "x = br##\"a\"#\\\"##\"#" 4).lexeme? = .ok (some 12) := by
  have fits : quoteInside.Fits "x = " "\"#" := by
    rintro ch ⟨⟩
    rfl
  exact ⟨fits, measured quoteInside "x = " "\"#" fits⟩

end WrittenLexeme

end EnumExtract
