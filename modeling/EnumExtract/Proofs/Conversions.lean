/-
  EnumExtract.Proofs.Conversions
  ────────────────────────────────
  What generated conversions do with values.

  The text of a conversion is read back to the forms that it was printed from,
  and those are evaluated.  A pattern and the constructor that undoes it have
  the same words, so what one binds the other puts together.

  Main results:
    • `ofLines?_lines`          the text is read back,
    • `Fits.build?_eq`          a pattern is undone by its constructor,
    • `lines_convert`           values go into the enum and back again.
-/
import EnumExtract.Output.Evaluation
import EnumExtract.Proofs.Tokens

namespace EnumExtract

open Tokens

variable {u v w p : Text} {tokens tu tv tw rest words : List Text}

/-! ## §1. Reading tokens. -/

namespace Tokens

@[simp] theorem expect?_append (words rest : List Text) : expect? words (words ++ rest) = some rest := by
  induction words with
  | nil => rfl
  | cons word words ih => rw [List.cons_append, expect?, if_pos rfl, ih]

theorem nameLength_name (name : IsName w) : Text.nameLength w = w.length := by
  have length := @Text.nameLength_append w [] name nofun
  rwa [List.append_nil] at length

theorem identifier?_identifier (h : IsIdentifier w) : Text.identifier? w = some w := by
  have here := @Text.identifier?_append w [] h nofun fun _ => nofun
  rwa [List.append_nil] at here

theorem isPathPart_of_token (h : IsPathToken w) : isPathPart w = true := by
  unfold isPathPart
  rcases h with name | rfl | rfl
  · have length := nameLength_name name
    have more := name.ne_nil
    simp [length, more]
  · rfl
  · rfl

/-- A path is read up to a token that is no part of one. -/
theorem path?_append (path : PathTokens p tokens)
    (outside : ∃ stop, rest.head? = some stop ∧ isPathPart stop = false) :
    path? (tokens ++ rest) = some (p, rest) := by
  obtain ⟨stop, first, outside⟩ := outside
  obtain ⟨after, rfl⟩ := List.head?_eq_some_iff.mp first
  have parts : (tokens ++ stop :: after).takeWhile isPathPart = tokens := by
    rw [List.takeWhile_append_of_pos fun token mem => isPathPart_of_token (path.parts token mem),
      List.takeWhile_cons_of_neg (by rw [outside]; decide), List.append_nil]
  rw [path?, parts, if_neg (by simpa using path.nonempty), path.flatten, List.drop_left]

/-- The tokens of names with commas between them. -/
def enumerated (spelled : List (List Text)) : List Text :=
  List.intercalate [(",": Text)] spelled

theorem mem_enumerated {spelled : List (List Text)} {token : Text} (mem : token ∈ enumerated spelled) :
    token = "," ∨ ∃ ts ∈ spelled, token ∈ ts := by
  unfold enumerated at mem
  induction spelled with
  | nil => cases mem
  | cons ts more ih =>
      cases more with
      | nil =>
          rw [List.intercalate_singleton] at mem
          exact .inr ⟨ts, List.mem_cons_self, mem⟩
      | cons us more =>
          rw [List.intercalate_cons_cons, List.mem_append, List.mem_append, List.mem_singleton] at mem
          rcases mem with (mem | mem) | mem
          · exact .inr ⟨ts, List.mem_cons_self, mem⟩
          · exact .inl mem
          · rcases ih mem with comma | ⟨vs, memvs, memt⟩
            · exact .inl comma
            · exact .inr ⟨vs, List.mem_cons_of_mem _ memvs, memt⟩

theorem enumerated_eq_nil {spelled : List (List Text)} (more : ∀ ts ∈ spelled, ts ≠ [])
    (h : enumerated spelled = []) : spelled = [] := by
  unfold enumerated at h
  rcases spelled with _ | ⟨ts, _ | ⟨us, more'⟩⟩
  · rfl
  · rw [List.intercalate_singleton] at h
    exact absurd h (more ts List.mem_cons_self)
  · rw [List.intercalate_cons_cons] at h
    simp at h

/-- Identifiers with commas between them are read up to the closing bracket. -/
theorem names?_append {names : List Text} {spelled : List (List Text)} {closer : Text}
    (each : List.Forall₂ PathTokens names spelled) (identifiers : ∀ n ∈ names, IsIdentifier n)
    (closes : ¬ IsPathToken closer) (noComma : closer ≠ ",") :
    names? closer (enumerated spelled ++ closer :: rest) = some (names, rest) := by
  have parts : ∀ ts ∈ spelled, (∀ t ∈ ts, IsPathToken t) ∧ ts ≠ [] := by
    clear identifiers
    induction each with
    | nil => exact nofun
    | cons path _ ih => exact List.forall_mem_cons.mpr ⟨⟨path.parts, path.nonempty⟩, ih⟩
  have inside : ∀ t ∈ enumerated spelled, (t != closer) = true := by
    intro t mem
    rw [bne_iff_ne]
    rintro rfl
    rcases mem_enumerated mem with comma | ⟨ts, memts, memt⟩
    · exact noComma comma
    · exact closes ((parts ts memts).1 _ memt)
  have cut : (enumerated spelled ++ closer :: rest).takeWhile (· != closer) = enumerated spelled := by
    rw [List.takeWhile_append_of_pos inside, List.takeWhile_cons_of_neg (by simp), List.append_nil]
  have flat : spelled.map List.flatten = names := by
    clear identifiers parts inside cut
    induction each with
    | nil => rfl
    | cons path _ ih => rw [List.map_cons, path.flatten, ih]
  have read : (if (enumerated spelled).isEmpty then []
      else ((enumerated spelled).splitOn (",": Text)).map List.flatten) = names := by
    split
    · next empty =>
      rw [List.isEmpty_iff] at empty
      rw [← flat, enumerated_eq_nil (fun ts mem => (parts ts mem).2) empty]
      rfl
    · next more =>
      have comma : ∀ ts ∈ spelled, (",": Text) ∉ ts := by
        intro ts mem memt
        rcases (parts ts mem).1 _ memt with ⟨_, _, eq, start, _⟩ | eq | eq
        · cases eq
          cases start
        · cases eq
        · cases eq
      rw [enumerated, List.splitOn_intercalate _ comma, flat]
      rintro rfl
      exact more rfl
  have all : (names.all fun n => Text.identifier? n == some n) = true :=
    List.all_eq_true.mpr fun n mem => by
      rw [identifier?_identifier (identifiers n mem)]
      exact beq_self_eq_true _
  rw [names?, cut, List.drop_left]
  show (Option.bind (expect? [closer] ([closer] ++ rest)) _) = _
  rw [expect?_append, Option.bind_some, read, if_pos all]

end Tokens

/-! ## §2. Patterns. -/

/-- The names in a pattern or constructor. -/
def Arguments.names : Arguments → List Text
  | parentheses names => names
  | braces names => names

namespace Pattern

/-- What a pattern is read back as. -/
def arguments : Pattern → Arguments
  | empty => .braces []
  | tuple count => .parentheses ((List.range count).map positionName)
  | braces names => .braces names

theorem isIdentifier_positionName (position : Nat) : IsIdentifier (positionName position) :=
  .inl ⟨'_', Text.ofNat position, rfl, rfl, fun _ mem => by
    have digit := Nat.isDigit_of_mem_toDigits (by decide) (by decide) mem
    exact isWord_of_isDigit digit⟩

theorem positionName_injective : Function.Injective positionName := by
  intro m n same
  have digits : Nat.toDigits 10 m = Nat.toDigits 10 n := List.append_cancel_left same
  rw [← @Nat.ofDigitChars_toDigits 10 m (by decide) (by decide), digits,
    Nat.ofDigitChars_toDigits (by decide) (by decide)]

end Pattern

/-- Names with commas and blanks between them have the tokens of the names with commas between
those. -/
theorem spells_join {names : List Text} {spelled : List (List Text)}
    (each : List.Forall₂ PathTokens names spelled) :
    Spells (Text.join ", " names) (enumerated spelled) := by
  have comma : Fixed ", " [","] := fun _ => rfl
  have parted : Text.Parted ", " := ⟨',', rfl, rfl⟩
  unfold Text.join enumerated
  induction each with
  | nil => exact .nil
  | cons path more ih =>
      cases more with
      | nil =>
          rw [List.intercalate_singleton, List.intercalate_singleton]
          exact path.spells
      | cons path' more =>
          rw [List.intercalate_cons_cons, List.intercalate_cons_cons, List.append_assoc _ [("," : Text)]]
          exact path.spells.append comma parted ih

/-- The text is a list of arguments: it has these tokens, and behind a path they are read back. -/
structure ArgumentTokens (text : Text) (arguments : Arguments) (tokens : List Text) : Prop where
  fixed : Fixed text tokens
  parted : text.Parted
  reads : ∀ {path pathTokens}, PathTokens path pathTokens → ∀ rest,
    form? (pathTokens ++ (tokens ++ rest)) = some (⟨path, arguments⟩, rest)

theorem forall₂_tokens {names : List Text} (identifiers : ∀ n ∈ names, IsIdentifier n) :
    ∃ spelled, List.Forall₂ PathTokens names spelled := by
  induction names with
  | nil => exact ⟨[], .nil⟩
  | cons n names ih =>
      obtain ⟨first, rest⟩ := List.forall_mem_cons.mp identifiers
      obtain ⟨tokens, ht⟩ := first.tokens
      obtain ⟨spelled, hs⟩ := ih rest
      exact ⟨tokens :: spelled, .cons ht hs⟩

/-- Names in parentheses. -/
theorem ArgumentTokens.parentheses {names : List Text} (identifiers : ∀ n ∈ names, IsIdentifier n) :
    ∃ tokens, ArgumentTokens ("(" ++ Text.join ", " names ++ ")") (.parentheses names) tokens := by
  obtain ⟨spelled, each⟩ := forall₂_tokens identifiers
  have opener : Fixed "(" ["("] := fun _ => rfl
  have closer : Fixed ")" [")"] := fun _ => rfl
  refine ⟨_, opener.word (spells_join each) closer ⟨_, rfl, rfl⟩, ⟨_, rfl, rfl⟩, ?_⟩
  intro path pathTokens path' rest
  have inside := @names?_append rest names spelled ")" each identifiers
    (by rintro (⟨_, _, eq, start, _⟩ | eq | eq) <;> cases eq; cases start) (by decide)
  rw [form?, path?_append path' ⟨_, rfl, rfl⟩]
  simp only [Option.bind_eq_bind, Option.bind_some, List.cons_append, List.nil_append,
    List.append_assoc, if_true, inside]

/-- Names in braces. -/
theorem ArgumentTokens.braces {names : List Text} (identifiers : ∀ n ∈ names, IsIdentifier n) :
    ∃ tokens, ArgumentTokens (" \x7b " ++ Text.join ", " names ++ " \x7d") (.braces names) tokens := by
  obtain ⟨spelled, each⟩ := forall₂_tokens identifiers
  have opener : Fixed " \x7b " ["\x7b"] := fun _ => rfl
  have closer : Fixed " \x7d" ["\x7d"] := fun _ => rfl
  refine ⟨_, opener.word (spells_join each) closer ⟨_, rfl, rfl⟩, ⟨_, rfl, rfl⟩, ?_⟩
  intro path pathTokens path' rest
  have inside := @names?_append rest names spelled "\x7d" each identifiers
    (by rintro (⟨_, _, eq, start, _⟩ | eq | eq) <;> cases eq; cases start) (by decide)
  have other : ("\x7b" : Text) ≠ "(" := by decide
  rw [form?, path?_append path' ⟨_, rfl, rfl⟩]
  simp only [Option.bind_eq_bind, Option.bind_some, List.cons_append, List.nil_append,
    List.append_assoc, if_true, if_neg other, inside]

/-- A pattern is read back as what it takes apart. -/
theorem Pattern.exists_tokens {pattern : Pattern}
    (identifiers : ∀ n ∈ pattern.arguments.names, IsIdentifier n) :
    ∃ tokens, ArgumentTokens pattern.text pattern.arguments tokens := by
  cases pattern with
  | empty =>
      have fixed : Fixed " \x7b\x7d" ["\x7b", "\x7d"] := fun _ => rfl
      refine ⟨_, fixed, ⟨_, rfl, rfl⟩, fun {path pathTokens} path' rest => ?_⟩
      have inside := @names?_append rest [] [] "\x7d" .nil nofun
        (by rintro (⟨_, _, eq, start, _⟩ | eq | eq) <;> cases eq; cases start) (by decide)
      have other : ("\x7b" : Text) ≠ "(" := by decide
      rw [form?, path?_append path' ⟨_, rfl, rfl⟩]
      change names? "\x7d" ("\x7d" :: rest) = _ at inside
      simp only [Option.bind_eq_bind, Option.bind_some, List.cons_append, List.nil_append,
        if_true, if_neg other, inside]
      rfl
  | tuple count => exact ArgumentTokens.parentheses identifiers
  | braces names => exact ArgumentTokens.braces identifiers

/-! ## §3. Implementations. -/

/-- The path of the variant. -/
def Conversion.variantPath (c : Conversion) : Text :=
  c.enum ++ "::" ++ c.variant

namespace Implementations

variable {struct enum variant : Text} {ts te tv tp : List Text} {text : Text} {arguments : Arguments}

/-- The tokens of `from`, and more behind them. -/
def fromTokens (ts te tv tp rest : List Text) : List Text :=
  let head : List Text := ["impl", "::", "std", "::", "convert", "::", "From", "<"]
  let header : List Text := [">", "for"]
  let opening : List Text := ["\x7b", "fn", "from", "("]
  let result : List Text := [")", "->", "Self", "\x7b"]
  let self : List Text := ["Self", "::"]
  let closing : List Text := ["\x7d", "\x7d"]
  head ++ (ts ++ (header ++ (te ++ (opening ++ (ts ++ (tp ++ ([(":" : Text)] ++ (ts ++ (result ++
    ((self ++ tv) ++ (tp ++ (closing ++ rest))))))))))))

/-- The tokens of `try_from`, and more behind them. -/
def tryFromTokens (ts te tv tp rest : List Text) : List Text :=
  let head : List Text := ["impl", "::", "std", "::", "convert", "::", "TryFrom", "<"]
  let header : List Text := [">", "for"]
  let error : List Text := ["\x7b", "type", "Error", "="]
  let opening : List Text := [";", "fn", "try_from", "(", "value", ":"]
  let result : List Text := [")", "->", "::", "std", "::", "result", "::", "Result", "<", "Self", ",",
    "Self", "::", "Error", ">", "\x7b", "if", "let"]
  let ok : List Text := ["=", "value", "\x7b", "Ok", "("]
  let closing : List Text := [")", "\x7d", "else", "\x7b", "Err", "(", "value", ")", "\x7d", "\x7d",
    "\x7d"]
  head ++ (te ++ (header ++ (ts ++ (error ++ (te ++ (opening ++ (te ++ (result ++
    ((te ++ ([("::" : Text)] ++ tv)) ++ (tp ++ (ok ++ (ts ++ (tp ++ (closing ++ rest))))))))))))))

/-- The tokens of the marker. -/
def markerTokens (ts te : List Text) : List Text :=
  let head : List Text := ["impl", "::", "variant_traits", "::", "Variant", "<"]
  let header : List Text := [">", "for"]
  let body : List Text := ["\x7b", "\x7d"]
  head ++ (te ++ (header ++ (ts ++ body)))

theorem readFrom?_fromTokens (hs : PathTokens struct ts) (he : PathTokens enum te)
    (hv : PathTokens ("Self" ++ "::" ++ variant) ((["Self", "::"] : List Text) ++ tv))
    (hp : ArgumentTokens text arguments tp) :
    readFrom? (fromTokens ts te tv tp rest)
      = some ((struct, enum, ⟨struct, arguments⟩, ⟨"Self" ++ "::" ++ variant, arguments⟩), rest) := by
  rw [readFrom?, fromTokens]
  simp only [Option.bind_eq_bind, expect?_append, Option.bind_some]
  rw [path?_append hs ⟨">", rfl, rfl⟩, Option.bind_some]
  simp only [expect?_append, Option.bind_some]
  rw [path?_append he ⟨"\x7b", rfl, rfl⟩, Option.bind_some]
  simp only [expect?_append, Option.bind_some, hp.reads hs]
  rw [path?_append hs ⟨")", rfl, rfl⟩, Option.bind_some]
  simp only [expect?_append, Option.bind_some, hp.reads hv, if_true]

theorem readTryFrom?_tryFromTokens (hs : PathTokens struct ts) (he : PathTokens enum te)
    (hv : PathTokens (enum ++ "::" ++ variant) (te ++ (["::".toList] ++ tv)))
    (hp : ArgumentTokens text arguments tp) :
    readTryFrom? (tryFromTokens ts te tv tp rest)
      = some ((struct, enum, ⟨enum ++ "::" ++ variant, arguments⟩, ⟨struct, arguments⟩), rest) := by
  rw [readTryFrom?, tryFromTokens]
  simp only [Option.bind_eq_bind, expect?_append, Option.bind_some]
  rw [path?_append he ⟨">", rfl, rfl⟩, Option.bind_some]
  simp only [expect?_append, Option.bind_some]
  rw [path?_append hs ⟨"\x7b", rfl, rfl⟩, Option.bind_some]
  simp only [expect?_append, Option.bind_some]
  rw [path?_append he ⟨";", rfl, rfl⟩, Option.bind_some]
  simp only [expect?_append, Option.bind_some]
  rw [path?_append he ⟨")", rfl, rfl⟩, Option.bind_some]
  simp only [expect?_append, Option.bind_some, hp.reads hv, hp.reads hs, and_self, if_true]

/-- The tokens of the lines. -/
theorem lines_tokens {c : Conversion} (hs : Spells c.struct ts) (he : Spells c.enum te)
    (hv : Spells c.variant tv) (hp : Fixed c.shape.pattern.text tp)
    (parted : c.shape.pattern.text.Parted) :
    c.lines.flatMap FieldType.tokenize
      = fromTokens ts te tv tp (tryFromTokens ts te tv tp (markerTokens ts te)) := by
  have head : Fixed "impl ::std::convert::From<" ["impl", "::", "std", "::", "convert", "::", "From", "<"] :=
    fun _ => rfl
  have header : Fixed "> for " [">", "for"] := fun _ => rfl
  have open_ : Fixed " \x7b" ["\x7b"] := fun _ => rfl
  have line1 := (head.word hs header ⟨_, rfl, rfl⟩).word he open_ ⟨_, rfl, rfl⟩
  have opening : Fixed "    fn from(" ["fn", "from", "("] := fun _ => rfl
  have colon : Fixed ": " [":"] := fun _ => rfl
  have result : Fixed ") -> Self \x7b" [")", "->", "Self", "\x7b"] := fun _ => rfl
  have line2 := ((opening.word hs hp parted).append colon).word hs result ⟨_, rfl, rfl⟩
  have self : Fixed "        Self::" ["Self", "::"] := fun _ => rfl
  have line3 := self.word hv hp parted
  have close : Fixed "    \x7d" ["\x7d"] := fun _ => rfl
  have closeAll : Fixed "\x7d" ["\x7d"] := fun _ => rfl
  have tryHead : Fixed "impl ::std::convert::TryFrom<"
      ["impl", "::", "std", "::", "convert", "::", "TryFrom", "<"] := fun _ => rfl
  have line6 := (tryHead.word he header ⟨_, rfl, rfl⟩).word hs open_ ⟨_, rfl, rfl⟩
  have error : Fixed "    type Error = " ["type", "Error", "="] := fun _ => rfl
  have semicolon : Fixed ";" [";"] := fun _ => rfl
  have line7 := error.word he semicolon ⟨_, rfl, rfl⟩
  have tryOpening : Fixed "    fn try_from(value: " ["fn", "try_from", "(", "value", ":"] := fun _ => rfl
  have tryResult : Fixed ") -> ::std::result::Result<Self, Self::Error> \x7b"
      [")", "->", "::", "std", "::", "result", "::", "Result", "<", "Self", ",", "Self", "::", "Error",
        ">", "\x7b"] := fun _ => rfl
  have line8 := tryOpening.word he tryResult ⟨_, rfl, rfl⟩
  have match_ : Fixed "        if let " ["if", "let"] := fun _ => rfl
  have ok : Fixed " = value \x7b Ok(" ["=", "value", "\x7b", "Ok", "("] := fun _ => rfl
  have err : Fixed ") \x7d else \x7b Err(value) \x7d"
      [")", "\x7d", "else", "\x7b", "Err", "(", "value", ")", "\x7d"] := fun _ => rfl
  have line9 := (((((match_.word he fixed_colons parted_colons).word hv hp parted).append ok).word hs hp
    parted).append err)
  have marker : Fixed ("impl " ++ Conversion.markerTrait ++ "<")
      ["impl", "::", "variant_traits", "::", "Variant", "<"] := fun _ => rfl
  have body : Fixed " \x7b\x7d" ["\x7b", "\x7d"] := fun _ => rfl
  have line12 := (marker.word he header ⟨_, rfl, rfl⟩).word hs body ⟨_, rfl, rfl⟩
  rw [Conversion.lines]
  simp only [List.flatMap_cons, List.flatMap_nil]
  rw [line1.tokenize, line2.tokenize, line3.tokenize, close.tokenize, closeAll.tokenize,
    line6.tokenize, line7.tokenize, line8.tokenize, line9.tokenize, line12.tokenize]
  simp only [fromTokens, tryFromTokens, markerTokens, List.append_assoc, List.cons_append,
    List.nil_append, List.append_nil]

/-- **The text is read back**: the implementations of a conversion are those that its lines were
printed from. -/
theorem ofLines?_lines {c : Conversion} (struct : IsIdentifier c.struct) (enum : IsPath c.enum)
    (variant : IsIdentifier c.variant)
    (names : ∀ n ∈ c.shape.pattern.arguments.names, IsIdentifier n) :
    ofLines? c.lines = some
      { struct := c.struct
        enum := c.enum
        parameter := ⟨c.struct, c.shape.pattern.arguments⟩
        embedded := ⟨"Self" ++ "::" ++ c.variant, c.shape.pattern.arguments⟩
        matched := ⟨c.variantPath, c.shape.pattern.arguments⟩
        extracted := ⟨c.struct, c.shape.pattern.arguments⟩ } := by
  obtain ⟨ts, hs⟩ := struct.tokens
  obtain ⟨te, he⟩ := enum.tokens
  obtain ⟨tv, hv⟩ := variant.tokens
  obtain ⟨tp, hp⟩ := Pattern.exists_tokens names
  have self : IsName "Self" := ⟨'S', "elf", rfl, rfl, by decide⟩
  have selfTokens := self.tokens.segment hv
  rw [ofLines?, lines_tokens hs.spells he.spells hv.spells hp.fixed hp.parted,
    readFrom?_fromTokens hs he selfTokens hp]
  simp only [Option.bind_eq_bind, Option.bind_some]
  rw [readTryFrom?_tryFromTokens hs he (he.segment hv) hp]
  simp only [Option.bind_some, markerTokens, expect?_append]
  rw [path?_append he ⟨">", rfl, rfl⟩]
  simp only [Option.bind_some, expect?_append]
  rw [path?_append hs ⟨"\x7b", rfl, rfl⟩]
  simp only [Option.bind_some, and_self, if_true]
  rfl

end Implementations

/-! ## §4. Values. -/

/-- Values of the shape are declared with the layout.  A shape without fields may stand for a unit
and for an empty list of either kind. -/
def Layout.Fits (layout : Layout) (shape : Shape) : Prop :=
  match shape.kind with
  | .unit => layout.arity = 0
  | .positional => layout = .tuple shape.fields.length
  | .named => ∃ names, shape.fields.map (·.name) = names.map some ∧ layout = .braces names

/-- The fields are those that a shape of its kind has: none in a unit, distinct identifiers in a
named shape. -/
structure Shape.WellFormed (shape : Shape) : Prop where
  unit : shape.kind = .unit → shape.fields = []
  named : shape.kind = .named →
    ∃ names : List Text, shape.fields.map (·.name) = names.map some ∧ names.Nodup ∧ ∀ n ∈ names, IsIdentifier n

/-- The names of a conversion are names, and its shape is one of a struct and a variant. -/
structure Conversion.WellFormed (c : Conversion) : Prop where
  struct : IsIdentifier c.struct
  enum : IsPath c.enum
  variant : IsIdentifier c.variant
  shape : c.shape.WellFormed

theorem Shape.pattern_named {shape : Shape} {names : List Text} (kind : shape.kind = .named)
    (written : shape.fields.map (·.name) = names.map some) : shape.pattern = .braces names := by
  have shown : shape.fields.map (ShapeDifference.shownName ·.name)
      = (shape.fields.map (·.name)).map ShapeDifference.shownName := by
    rw [List.map_map]
    rfl
  rw [Shape.pattern, kind, shown, written, List.map_map]
  exact congrArg Pattern.braces (List.map_id names)

/-- **A shape that is read as a named one has a name for every field**, and its pattern binds them. -/
theorem Shape.pattern_classify {fields : List Field} {index : Nat} {shape : Shape}
    (h : classify fields index = .ok shape) (kind : shape.kind = .named) :
    ∃ names, shape.fields.map (·.name) = names.map some ∧ shape.pattern = .braces names := by
  have named : shape.fields.all (·.name.isSome) = true := by
    unfold classify at h
    split at h
    next =>
      cases h
      cases kind
    next =>
      split at h
      next all =>
        cases h
        exact all
      next =>
        split at h
        next =>
          cases h
          cases kind
        next => cases h
  have written : shape.fields.map (·.name) = (shape.fields.map (ShapeDifference.shownName ·.name)).map some := by
    rw [List.map_map]
    refine List.map_congr_left fun field mem => ?_
    obtain ⟨name, eq⟩ := Option.isSome_iff_exists.mp (List.all_eq_true.mp named field mem)
    show field.name = some (ShapeDifference.shownName field.name)
    rw [eq]
    rfl
  exact ⟨_, written, Shape.pattern_named kind written⟩

theorem Pattern.nodup_positionNames (count : Nat) : ((List.range count).map positionName).Nodup :=
  List.Pairwise.map _ (fun _ _ other same => other (positionName_injective same)) List.nodup_range

theorem Shape.WellFormed.identifiers {shape : Shape} (h : shape.WellFormed) :
    ∀ n ∈ shape.pattern.arguments.names, IsIdentifier n := by
  cases kind : shape.kind with
  | unit =>
      rw [Shape.pattern, kind]
      exact nofun
  | positional =>
      rw [Shape.pattern, kind]
      intro n mem
      obtain ⟨position, _, rfl⟩ := List.mem_map.mp mem
      exact Pattern.isIdentifier_positionName position
  | named =>
      obtain ⟨names, written, _, identifiers⟩ := h.named kind
      rw [Shape.pattern_named kind written]
      exact identifiers

theorem mapM_lookup_cons {α : Type} {n : Text} {value : α} {names : List Text}
    {bound : List (Text × α)} (absent : n ∉ names) :
    names.mapM (((n, value) :: bound).lookup ·) = names.mapM (bound.lookup ·) := by
  induction names with
  | nil => rfl
  | cons m names ih =>
      rw [List.mem_cons, not_or] at absent
      rw [List.mapM_cons, List.mapM_cons, ih absent.2, List.lookup_cons,
        beq_eq_false_iff_ne.mpr (Ne.symm absent.1)]

/-- Names that are bound to values are looked up one after the other. -/
theorem mapM_lookup_zip {α : Type} {names : List Text} {values : List α} (distinct : names.Nodup)
    (count : values.length = names.length) :
    names.mapM ((names.zip values).lookup ·) = some values := by
  induction names generalizing values with
  | nil =>
      obtain rfl := List.eq_nil_of_length_eq_zero count
      rfl
  | cons n names ih =>
      obtain ⟨v, values, rfl⟩ := List.exists_cons_of_length_eq_add_one count
      rw [List.nodup_cons] at distinct
      rw [List.zip_cons_cons, List.mapM_cons, List.lookup_cons_self, mapM_lookup_cons distinct.1,
        ih distinct.2 (Nat.succ.inj count)]
      rfl

namespace Layout

variable {α : Type} {shape : Shape} {layout : Layout} {values : List α}

/-- A layout that fits has the fields that the pattern names. -/
theorem Fits.cases (fits : layout.Fits shape) (wellFormed : shape.WellFormed) :
    (shape.pattern.arguments = .braces [] ∧ layout.arity = 0 ∧ shape.fields = [])
      ∨ ∃ names : List Text, names.Nodup ∧ names.length = shape.fields.length
        ∧ ((shape.pattern.arguments = .parentheses names ∧ layout = .tuple names.length)
          ∨ (shape.pattern.arguments = .braces names ∧ layout = .braces names)) := by
  unfold Fits at fits
  cases kind : shape.kind with
  | unit =>
      rw [kind] at fits
      rw [Shape.pattern, kind]
      exact .inl ⟨rfl, fits, wellFormed.unit kind⟩
  | positional =>
      rw [kind] at fits
      rw [Shape.pattern, kind]
      have length : ((List.range shape.fields.length).map Pattern.positionName).length
          = shape.fields.length := by rw [List.length_map, List.length_range]
      exact .inr ⟨_, Pattern.nodup_positionNames _, length, .inl ⟨rfl, by rw [fits, length]⟩⟩
  | named =>
      rw [kind] at fits
      obtain ⟨names, written, distinct, _⟩ := wellFormed.named kind
      obtain ⟨names', written', rfl⟩ := fits
      obtain rfl : names = names' :=
        (List.map_inj_right fun _ _ => Option.some.inj).mp (written.symm.trans written')
      have length : names.length = shape.fields.length := by
        rw [← List.length_map some, ← written, List.length_map]
      rw [Shape.pattern_named kind written]
      exact .inr ⟨names, distinct, length, .inr ⟨rfl, rfl⟩⟩

/-- A pattern binds its names to the values in their order. -/
theorem Fits.bind?_eq (fits : layout.Fits shape) (wellFormed : shape.WellFormed)
    (count : values.length = shape.fields.length) :
    layout.bind? shape.pattern.arguments values = some (shape.pattern.arguments.names.zip values) := by
  rcases fits.cases wellFormed with ⟨pattern, empty, fields⟩ | ⟨names, distinct, length, either⟩
  · rw [fields] at count
    obtain rfl := List.eq_nil_of_length_eq_zero count
    rw [pattern]
    cases layout with
    | unit => rfl
    | tuple arity =>
        obtain rfl : arity = 0 := empty
        rfl
    | braces names =>
        obtain rfl := List.eq_nil_of_length_eq_zero empty
        rfl
  · rw [← length] at count
    rcases either with ⟨pattern, rfl⟩ | ⟨pattern, rfl⟩
    · rw [pattern, bind?]
      exact (if_neg (not_not.mpr count)).trans (if_pos ⟨rfl, distinct⟩)
    · rw [pattern, bind?]
      exact (if_neg (not_not.mpr count)).trans (if_pos ⟨.refl _, distinct⟩)

/-- A constructor puts the values together that its names are bound to. -/
theorem Fits.build?_eq (fits : layout.Fits shape) (wellFormed : shape.WellFormed)
    (count : values.length = shape.fields.length) :
    layout.build? shape.pattern.arguments (shape.pattern.arguments.names.zip values) = some values := by
  rcases fits.cases wellFormed with ⟨pattern, empty, fields⟩ | ⟨names, distinct, length, either⟩
  · rw [fields] at count
    obtain rfl := List.eq_nil_of_length_eq_zero count
    rw [pattern]
    cases layout with
    | unit => rfl
    | tuple arity =>
        obtain rfl : arity = 0 := empty
        rfl
    | braces names =>
        obtain rfl := List.eq_nil_of_length_eq_zero empty
        rfl
  · rw [← length] at count
    have bound := mapM_lookup_zip distinct count
    rcases either with ⟨pattern, rfl⟩ | ⟨pattern, rfl⟩
    · rw [pattern, build?]
      exact (if_pos rfl).trans bound
    · rw [pattern, build?]
      exact (if_pos (.refl _)).trans bound

end Layout

namespace Conversion

variable {α : Type} {c : Conversion} {layout? : Text → Option Layout}
  {structLayout variantLayout : Layout}

/-- **Values go into the enum and back again.**  The text of the implementations is read back, and
on a struct and a variant that are declared with the shape it does this: `from` makes a struct the
variant with the same values; `try_from` makes that variant the struct with the same values, and
gives back a value of any other variant. -/
theorem lines_convert (wellFormed : c.WellFormed) (struct : layout? c.struct = some structLayout)
    (structFits : structLayout.Fits c.shape) (variant : layout? c.variantPath = some variantLayout)
    (variantFits : variantLayout.Fits c.shape) :
    ∃ impls, Implementations.ofLines? c.lines = some impls
      ∧ (∀ values : List α, values.length = c.shape.fields.length →
          impls.embed? layout? ⟨c.struct, values⟩ = some ⟨c.variantPath, values⟩
          ∧ impls.extract? layout? ⟨c.variantPath, values⟩ = some (.ok ⟨c.struct, values⟩))
      ∧ ∀ value : Value α, value.constructor ≠ c.variantPath →
          impls.extract? layout? value = some (.error value) := by
  have read := Implementations.ofLines?_lines wellFormed.struct wellFormed.enum wellFormed.variant
    wellFormed.shape.identifiers
  refine ⟨_, read, fun values count => ⟨?_, ?_⟩, fun value other => ?_⟩
  · have path : Implementations.resolve c.enum ("Self" ++ "::" ++ c.variant) = c.variantPath :=
      (List.append_assoc _ _ _).symm
    have bound := Layout.Fits.bind?_eq structFits wellFormed.shape count
    have built := Layout.Fits.build?_eq variantFits wellFormed.shape count
    simp only [Implementations.embed?, path, struct, variant, bound, built, ne_eq, not_true_eq_false,
      if_false, Option.bind_eq_bind, Option.bind_some, Option.pure_def]
  · have bound := Layout.Fits.bind?_eq variantFits wellFormed.shape count
    have built := Layout.Fits.build?_eq structFits wellFormed.shape count
    simp only [Implementations.extract?, struct, variant, bound, built, ne_eq, not_true_eq_false,
      if_false, Option.bind_eq_bind, Option.bind_some, Option.pure_def]
  · exact if_pos fun same => other same.symm

/-- The conversion of a point into a shape. -/
def ofPoint : Conversion :=
  ⟨"PointRec", "crate::Shape", "Point",
    ⟨.named, [⟨some "y", .ofText "f64", []⟩, ⟨some "x", .ofText "f64", []⟩]⟩⟩

/-- How the point and the variant are declared. -/
def pointLayout? (path : Text) : Option Layout :=
  if path ∈ ([ofPoint.struct, ofPoint.variantPath] : List Text) then some (.braces ["y", "x"])
  else none

theorem ofPoint_wellFormed : ofPoint.WellFormed where
  struct := .inl ⟨'P', "ointRec", rfl, rfl, by decide⟩
  enum := .segment (.name (.inl ⟨'c', "rate", rfl, rfl, by decide⟩))
    (.inl ⟨'S', "hape", rfl, rfl, by decide⟩)
  variant := .inl ⟨'P', "oint", rfl, rfl, by decide⟩
  shape :=
    { unit := nofun
      named := fun _ => ⟨["y", "x"], rfl, by decide, by
        intro n mem
        rcases List.mem_cons.mp mem with rfl | mem
        · exact .inl ⟨'y', [], rfl, rfl, nofun⟩
        · rw [List.mem_singleton.mp mem]
          exact .inl ⟨'x', [], rfl, rfl, nofun⟩⟩ }

theorem ofPoint_lines_convert :
    ∃ impls, Implementations.ofLines? ofPoint.lines = some impls
      ∧ impls.embed? pointLayout? (⟨"PointRec", [2, 1]⟩ : Value Nat) = some ⟨"crate::Shape::Point", [2, 1]⟩
      ∧ impls.extract? pointLayout? (⟨"crate::Shape::Point", [2, 1]⟩ : Value Nat)
        = some (.ok ⟨"PointRec", [2, 1]⟩)
      ∧ impls.extract? pointLayout? (⟨"crate::Shape::Line", [7]⟩ : Value Nat)
        = some (.error ⟨"crate::Shape::Line", [7]⟩) := by
  have layout : pointLayout? ofPoint.struct = some (.braces ["y", "x"]) := by decide
  have layout' : pointLayout? ofPoint.variantPath = some (.braces ["y", "x"]) := by decide
  have fits : (Layout.braces ["y", "x"]).Fits ofPoint.shape := ⟨["y", "x"], rfl, rfl⟩
  obtain ⟨impls, read, back, others⟩ := @lines_convert Nat ofPoint pointLayout? _ _ ofPoint_wellFormed layout
    fits layout' fits
  obtain ⟨embedded, extracted⟩ := back [2, 1] rfl
  exact ⟨impls, read, embedded, extracted, others _ (by decide)⟩

end Conversion

end EnumExtract
