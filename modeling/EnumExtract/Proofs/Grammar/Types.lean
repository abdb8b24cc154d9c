/-
  EnumExtract.Proofs.Grammar.Types
  ────────────────────────────────
  The grammar of types, and what the tokens of a type have in common.

      a::B<C, D = E, F: G, -1, 'x', { N + 1 }>   <T as A>::B   fn(A, ...) -> B
      &'a mut T   *const T   [T; N * 2]   (A, B)   dyn A + 'a   impl ?A   !   m!(..)

  A grammar is a list of rules.  `Yields items ts` says that the tokens `ts` come
  from the items by putting the right sides of rules for the symbols; what holds of
  all right sides holds of the tokens that they yield.

  Code in lengths, constant arguments and macros is any that closes its brackets,
  made of names, numbers, lifetimes, literals and operators.  The keywords of
  declarations are left out of it, as are attributes and lone hashes: a declaration in
  a type is a declaration of the source.  A name may follow any type (`<T as A>`), so
  a type may hold a raw name with another name right behind it.  Such a type is
  not `Unjoined`.

  Main results:
    • `Yields.track`        the tokens of a type close what they open, and no
                            comma of theirs separates,
    • `Yields.beginType`    a type does not begin with a label.
-/
import EnumExtract.Proofs.Grammar.Tokens

namespace EnumExtract

open Cursor

/-! ## §1. Rules. -/

namespace Identifier

def ofName (w : Text) (isName : IsName w) (free : w ∉ reservedWords) : Identifier :=
  ⟨w, .inl isName, free⟩

def mutWord : Identifier :=
  ofName "mut" ⟨'m', ['u', 't'], rfl, rfl, by decide⟩ (by decide)

def fnWord : Identifier :=
  ofName "fn" ⟨'f', ['n'], rfl, rfl, by decide⟩ (by decide)

def forWord : Identifier :=
  ofName "for" ⟨'f', ['o', 'r'], rfl, rfl, by decide⟩ (by decide)

def unsafeWord : Identifier :=
  ofName "unsafe" ⟨'u', ['n', 's', 'a', 'f', 'e'], rfl, rfl, by decide⟩ (by decide)

def externWord : Identifier :=
  ofName "extern" ⟨'e', ['x', 't', 'e', 'r', 'n'], rfl, rfl, by decide⟩ (by decide)

def dynWord : Identifier :=
  ofName "dyn" ⟨'d', ['y', 'n'], rfl, rfl, by decide⟩ (by decide)

def implWord : Identifier :=
  ofName "impl" ⟨'i', ['m', 'p', 'l'], rfl, rfl, by decide⟩ (by decide)

def asWord : Identifier :=
  ofName "as" ⟨'a', ['s'], rfl, rfl, by decide⟩ (by decide)

def constWord : Identifier :=
  ofName "const" ⟨'c', ['o', 'n', 's', 't'], rfl, rfl, by decide⟩ (by decide)

end Identifier

/-- The symbols of the grammar of types. -/
inductive Symbol where
  | type
  | pointer
  | path
  | segment
  | argument
  | parameter
  | bound
  /-- What a trait object implements, with a plus between two of them. -/
  | bounds
  | trait
  /-- Any code that closes its brackets. -/
  | code
  /-- Any number of these with commas between them, or behind each. -/
  | list (element : Symbol)
  deriving DecidableEq

inductive RuleItem where
  | token (tok : Token)
  | symbol (s : Symbol)

namespace RuleItem

instance : Coe Symbol RuleItem := ⟨symbol⟩

instance : Coe Mark RuleItem := ⟨fun m => token (.mark m)⟩

instance : Coe Identifier RuleItem := ⟨fun i => token (.name i)⟩

instance : Coe Lifetime RuleItem := ⟨fun l => token (.lifetime l)⟩

end RuleItem

/-- The words in front of the keyword of a function pointer. -/
inductive Qualifiers : List RuleItem → Prop where
  | none : Qualifiers []
  | danger : Qualifiers [Identifier.unsafeWord]
  | foreign : Qualifiers [Identifier.externWord]
  | convention (l : Literal) : Qualifiers [Identifier.externWord, .token (.literal l)]
  | dangerForeign : Qualifiers [Identifier.unsafeWord, Identifier.externWord]
  | dangerConvention (l : Literal) :
      Qualifiers [Identifier.unsafeWord, Identifier.externWord, .token (.literal l)]

def Mark.isBracket : Mark → Bool
  | openParen | closeParen | openBracket | closeBracket | openBrace | closeBrace => true
  | _ => false

/-- The token is neither a note nor a bracket. -/
def Token.isPlain : Token → Bool
  | note _ => false
  | mark m => !m.isBracket
  | _ => true

open EnumExtract.Symbol EnumExtract.Mark

/-- The rules of the grammar of types. -/
inductive Rule : Symbol → List RuleItem → Prop where
  -- types
  | path : Rule type [Symbol.path]
  | rooted : Rule type [colons, Symbol.path]
  | reference : Rule type [ampersand, Symbol.type]
  | mutable : Rule type [ampersand, Identifier.mutWord, Symbol.type]
  | borrow (l : Lifetime) : Rule type [ampersand, l, Symbol.type]
  | mutableBorrow (l : Lifetime) : Rule type [ampersand, l, Identifier.mutWord, Symbol.type]
  | tuple : Rule type [openParen, list .type, closeParen]
  | slice : Rule type [openBracket, Symbol.type, closeBracket]
  | array : Rule type [openBracket, Symbol.type, semicolon, Symbol.code, closeBracket]
  | constPointer : Rule type [star, Identifier.constWord, Symbol.type]
  | mutPointer : Rule type [star, Identifier.mutWord, Symbol.type]
  | never : Rule type [bang]
  | pointer : Rule type [Symbol.pointer]
  | boundPointer : Rule type [Identifier.forWord, less, list .bound, greater, Symbol.pointer]
  -- paths in types
  | qualified : Rule type [less, Symbol.type, greater, colons, Symbol.path]
  | qualifiedAs : Rule type [less, Symbol.type, Identifier.asWord, Symbol.path, greater, colons, Symbol.path]
  | qualifiedAsRooted :
      Rule type [less, Symbol.type, Identifier.asWord, colons, Symbol.path, greater, colons, Symbol.path]
  -- bounds
  | object : Rule type [Identifier.dynWord, Symbol.bounds]
  | implementing : Rule type [Identifier.implWord, Symbol.bounds]
  | bare : Rule type [Symbol.bounds]
  | lastBound : Rule bounds [Symbol.trait]
  | openBounds : Rule bounds [Symbol.trait, plus]
  | moreBounds : Rule bounds [Symbol.trait, plus, Symbol.bounds]
  | lifetimeBound (l : Lifetime) : Rule trait [l]
  | pathBound : Rule trait [Symbol.path]
  | rootedBound : Rule trait [colons, Symbol.path]
  | relaxedBound : Rule trait [question, Symbol.trait]
  | generalBound : Rule trait [Identifier.forWord, less, list .bound, greater, Symbol.trait]
  | groupedBound : Rule trait [openParen, Symbol.trait, closeParen]
  -- macros
  | parenMacro : Rule type [Symbol.path, bang, openParen, Symbol.code, closeParen]
  | bracketMacro : Rule type [Symbol.path, bang, openBracket, Symbol.code, closeBracket]
  | braceMacro : Rule type [Symbol.path, bang, openBrace, Symbol.code, closeBrace]
  -- function pointers
  | fn {qualifiers : List RuleItem} (h : Qualifiers qualifiers) :
      Rule Symbol.pointer (qualifiers
        ++ ([Identifier.fnWord, openParen, list .parameter, closeParen] : List RuleItem))
  | fnTo {qualifiers : List RuleItem} (h : Qualifiers qualifiers) :
      Rule Symbol.pointer (qualifiers
        ++ ([Identifier.fnWord, openParen, list .parameter, closeParen, arrow, Symbol.type] : List RuleItem))
  | parameter : Rule Symbol.parameter [Symbol.type]
  | namedParameter (i : Identifier) : Rule Symbol.parameter [i, colon, Symbol.type]
  | openParameters : Rule Symbol.parameter [dot, dot, dot]
  | namedOpenParameters (i : Identifier) : Rule Symbol.parameter [i, colon, dot, dot, dot]
  | bound (l : Lifetime) : Rule Symbol.bound [l]
  -- paths
  | last : Rule Symbol.path [segment]
  | onward : Rule Symbol.path [segment, colons, Symbol.path]
  | plain (i : Identifier) : Rule segment [i]
  | generic (i : Identifier) : Rule segment [i, less, list argument, greater]
  | turbofish (i : Identifier) : Rule segment [i, colons, less, list argument, greater]
  | call (i : Identifier) : Rule segment [i, openParen, list .type, closeParen]
  | callTo (i : Identifier) : Rule segment [i, openParen, list .type, closeParen, arrow, Symbol.type]
  | turboCall (i : Identifier) : Rule segment [i, colons, openParen, list .type, closeParen]
  | turboCallTo (i : Identifier) : Rule segment [i, colons, openParen, list .type, closeParen, arrow, Symbol.type]
  -- arguments
  | typeArgument : Rule argument [Symbol.type]
  | lifetimeArgument (l : Lifetime) : Rule argument [l]
  | binding : Rule argument [segment, equals, Symbol.type]
  | bounded : Rule argument [segment, colon, Symbol.bounds]
  | constantArgument (n : Number) : Rule argument [.token (.number n)]
  | negativeArgument (n : Number) : Rule argument [minus, .token (.number n)]
  | literalArgument (l : Literal) : Rule argument [.token (.literal l)]
  | blockArgument : Rule argument [openBrace, Symbol.code, closeBrace]
  -- code
  | noCode : Rule code []
  | moreCode (tok : Token) (plain : tok.isPlain = true) : Rule code [.token tok, Symbol.code]
  | parens : Rule code [openParen, Symbol.code, closeParen, Symbol.code]
  | brackets : Rule code [openBracket, Symbol.code, closeBracket, Symbol.code]
  | braces : Rule code [openBrace, Symbol.code, closeBrace, Symbol.code]
  -- lists
  | nil (s : Symbol) : Rule (list s) []
  | single (s : Symbol) : Rule (list s) [s]
  | more (s : Symbol) : Rule (list s) [s, comma, list s]

/-- The tokens that the items yield. -/
inductive Yields : List RuleItem → List Token → Prop where
  | nil : Yields [] []
  | token {tok : Token} {items : List RuleItem} {ts : List Token} (rest : Yields items ts) :
      Yields (.token tok :: items) (tok :: ts)
  | symbol {s : Symbol} {rhs items : List RuleItem} {us ts : List Token} (rule : Rule s rhs)
      (inner : Yields rhs us) (rest : Yields items ts) : Yields (.symbol s :: items) (us ++ ts)

/-- A type: tokens that the grammar derives. -/
structure TypeSyntax where
  tokens : List Token
  derived : Yields [Symbol.type] tokens

/-! ## §2. Brackets of a type. -/

/-- Where the symbol may stand: a list where no comma separates, and code inside brackets. -/
def Symbol.Allowed (o : Opened) : Symbol → Prop
  | list s => ¬ o.Cuts ∧ s.Allowed o
  | code => o.closers ≠ []
  | _ => True

instance Symbol.decidableAllowed (o : Opened) : DecidablePred (Symbol.Allowed o)
  | list s => have := decidableAllowed o s; inferInstanceAs (Decidable (¬ o.Cuts ∧ s.Allowed o))
  | .code => inferInstanceAs (Decidable (o.closers ≠ []))
  | .type | .pointer | .path | .segment | .argument | .parameter | .bound | .bounds | .trait => .isTrue trivial

/-- What is open behind the items, if each symbol is allowed where it stands. -/
def Opened.trackItems (o : Opened) : List RuleItem → Option Opened
  | [] => some o
  | .token tok :: items => (tok.track o).bind (·.trackItems items)
  | .symbol s :: items => if s.Allowed o then o.trackItems items else none

/-- A token that is no bracket changes nothing inside brackets. -/
theorem Token.track_of_isPlain {tok : Token} (plain : tok.isPlain = true) {o : Opened} (inside : o.closers ≠ []) :
    tok.track o = some o := by
  cases tok with
  | mark m =>
      have noCut : ¬ o.Cuts := fun cuts => inside cuts.1
      cases m with
      | openParen | closeParen | openBracket | closeBracket | openBrace | closeBrace => cases plain
      | _ => simp [track, Mark.track, inside, noCut]
  | note => cases plain
  | _ => rfl

/-- The right sides of the rules leave open what is open in front of them. -/
theorem Rule.keeps {s : Symbol} {rhs : List RuleItem} (rule : Rule s rhs) :
    ∀ o : Opened, s.Allowed o → o.trackItems rhs = some o := by
  rintro ⟨closers, angles⟩ allowed
  cases rule with
  | fn qualifiers =>
      cases qualifiers <;> simp [Opened.trackItems, Token.track, Mark.track, Opened.push, Opened.pop,
        Opened.Cuts, Symbol.Allowed]
  | fnTo qualifiers =>
      cases qualifiers <;> simp [Opened.trackItems, Token.track, Mark.track, Opened.push, Opened.pop,
        Opened.Cuts, Symbol.Allowed]
  | moreCode tok plain =>
      rw [Opened.trackItems, Token.track_of_isPlain plain allowed]
      exact if_pos allowed
  | _ =>
      -- whether an angle bracket counts depends on what is open around the type
      by_cases none : closers = [] <;> simp_all [Opened.trackItems, Token.track, Mark.track,
        Opened.push, Opened.pop, Opened.Cuts, Symbol.Allowed]

/-- **The tokens of a type close what they open, and no comma of theirs separates.** -/
theorem Yields.track {items : List RuleItem} {ts : List Token} (h : Yields items ts) :
    ∀ {o o' : Opened}, o.trackItems items = some o' → o.track ts = some o' := by
  induction h with
  | nil => exact fun h => h
  | token rest ih =>
      intro o o' h
      obtain ⟨between, first, later⟩ := Option.bind_eq_some_iff.mp h
      rw [Opened.track, first]
      exact ih later
  | @symbol s rhs items us ts rule inner rest ihInner ih =>
      intro o o' h
      rw [Opened.trackItems] at h
      split at h
      next allowed =>
        rw [Opened.track_append, ihInner (rule.keeps o allowed)]
        exact ih h
      next => cases h

/-! ## §3. Names in a type. -/

def Token.isName : Token → Bool
  | name _ => true
  | _ => false

/-- A name is read where the token stands. -/
def Token.startsName : Token → Bool
  | name _ => true
  | literal l => l.startsName
  | _ => false

/-- The scan does not take the raw name for the keyword of a declaration or module where `ts` follows. -/
structure Token.Unheaded (i : Identifier) (ts : List Token) : Prop where
  declaration : ∀ kind : DeclKind, i.text = "r#" ++ kind.keyword → ∀ tok ∈ ts.head?, tok.startsName = false
  module : i.text = "r#mod" → ∀ tok us, ts = tok :: us → tok.startsName = true →
    tok.isName = true ∧ us.head? ≠ some (.mark .openBrace)

theorem Token.Unheaded.of_noName {i : Identifier} {ts : List Token} (h : ∀ tok ∈ ts.head?, tok.startsName = false) :
    Token.Unheaded i ts where
  declaration _ _ := h
  module _ tok us eq starts := by
    subst eq
    rw [h tok rfl] at starts
    cases starts

/-- A name that is not raw is taken for no keyword. -/
theorem Token.Unheaded.of_cooked {i : Identifier} {ts : List Token} (h : Text.startsWith i.text "r#" = false) :
    Token.Unheaded i ts where
  declaration kind raw := by
    rw [raw] at h
    cases h
  module raw := by
    rw [raw] at h
    cases h

/-- The scan takes no raw name for a keyword. -/
def Token.Unjoined : List Token → Prop
  | [] => True
  | tok :: ts => (∀ i, tok = .name i → Token.Unheaded i ts) ∧ Unjoined ts

def Token.isCooked : Token → Bool
  | name i => !Text.startsWith i.text "r#"
  | _ => true

theorem Token.Unjoined.of_cooked {ts : List Token} (h : ts.all Token.isCooked = true) : Token.Unjoined ts := by
  induction ts with
  | nil => trivial
  | cons tok ts ih =>
      rw [List.all_cons, Bool.and_eq_true] at h
      refine ⟨?_, ih h.2⟩
      rintro i rfl
      exact .of_cooked (by simpa [isCooked] using h.1)

/-! ## §4. How a type begins. -/

/-- The right sides of the rules hold no notes. -/
theorem Rule.noNotes {s : Symbol} {rhs : List RuleItem} (rule : Rule s rhs) :
    ∀ tok, .token tok ∈ rhs → tok.isNote = false := by
  cases rule with
  | fn qualifiers => cases qualifiers <;> simp [Token.isNote]
  | fnTo qualifiers => cases qualifiers <;> simp [Token.isNote]
  | moreCode tok plain =>
      cases tok with
      | note => cases plain
      | _ => simp [Token.isNote]
  | _ => simp [Token.isNote]

/-- The tokens of a type are no notes. -/
theorem Yields.noNote {items : List RuleItem} {ts : List Token} (h : Yields items ts)
    (plain : ∀ tok, .token tok ∈ items → tok.isNote = false) :
    ∀ tok ∈ ts, tok.isNote = false := by
  induction h with
  | nil => exact nofun
  | token rest ih =>
      intro tok mem
      rcases List.mem_cons.mp mem with rfl | mem
      · exact plain tok List.mem_cons_self
      · exact ih (fun tok mem => plain tok (List.mem_cons_of_mem _ mem)) tok mem
  | symbol rule inner rest ihInner ih =>
      intro tok mem
      rcases List.mem_append.mp mem with mem | mem
      · exact ihInner rule.noNotes tok mem
      · exact ih (fun tok mem => plain tok (List.mem_cons_of_mem _ mem)) tok mem

def Token.isColon : Token → Bool
  | mark .colon => true
  | _ => false

/-- A type may begin with the token. -/
def Token.opensType : Token → Bool
  | mark .colon | mark .slash => false
  | _ => true

theorem Token.isColon_of_opensType {tok : Token} (h : tok.opensType = true) : tok.isColon = false := by
  cases tok with
  | mark m =>
      cases m with
      | colon => cases h
      | _ => rfl
  | _ => rfl

/-- The tokens do not begin with a label, nor with a literal, whose letters would be a name. -/
def Token.Unlabelled : List Token → Prop
  | name _ :: tok :: _ => tok.isColon = false
  | literal _ :: _ => False
  | _ => True

/-- The symbols that a type may begin with. -/
def Symbol.Leads : Symbol → Prop
  | type | .pointer | .path | segment | .bounds | trait => True
  | _ => False

/-- The items begin like a type: with no colon, slash or literal, nor with a name and a colon. -/
def RuleItem.BeginType : List RuleItem → Prop
  | [] => False
  | [.token (.name _)] => True
  | .token (.name _) :: .token tok :: _ => tok.isColon = false
  | .token (.name _) :: .symbol s :: items => BeginType (.symbol s :: items)
  | .token (.literal _) :: _ => False
  | .token tok :: _ => tok.opensType = true
  | [.symbol s] => s.Leads
  | .symbol s :: .token tok :: _ => s.Leads ∧ tok.isColon = false
  | .symbol _ :: .symbol _ :: _ => False

/-- The right sides for the symbols that a type may begin with begin like a type. -/
theorem Rule.begin {s : Symbol} {rhs : List RuleItem} (rule : Rule s rhs) (leads : s.Leads) :
    RuleItem.BeginType rhs := by
  cases rule with
  | fn qualifiers => cases qualifiers <;> rfl
  | fnTo qualifiers => cases qualifiers <;> rfl
  | parameter | namedParameter | openParameters | namedOpenParameters | bound | typeArgument | lifetimeArgument
  | binding | bounded | constantArgument | negativeArgument | literalArgument | blockArgument
  | noCode | moreCode | parens | brackets | braces | nil | single | more => cases leads
  | _ => simp [RuleItem.BeginType, Symbol.Leads, Token.isColon, Token.opensType]

/-- The tokens are some, and a type may begin with the first; with `vs` behind them they begin with no label. -/
structure Token.BeginType (ts vs : List Token) : Prop where
  ne_nil : ts ≠ []
  opens : ∀ tok, ts.head? = some tok → tok.opensType = true
  unlabelled : Token.Unlabelled (ts ++ vs)

/-- **A type begins with a token, and with no label.** -/
theorem Yields.beginType {items : List RuleItem} {ts : List Token} (h : Yields items ts) :
    RuleItem.BeginType items → ∀ vs : List Token, (∀ tok, vs.head? = some tok → tok.isColon = false) →
      Token.BeginType ts vs := by
  induction h with
  | nil => exact nofun
  | @token tok items ts rest ih =>
      intro here vs next
      cases tok with
      | name i =>
          refine ⟨List.cons_ne_nil _ _, fun _ first => by cases first; rfl, ?_⟩
          cases rest with
          | nil =>
              cases vs with
              | nil => trivial
              | cons tok vs => exact next tok rfl
          | token rest => exact here
          | symbol rule inner rest =>
              obtain ⟨more, opens, _⟩ := ih here vs next
              obtain ⟨tok, us, eq⟩ := List.exists_cons_of_ne_nil more
              rw [eq] at opens ⊢
              exact Token.isColon_of_opensType (opens tok rfl)
      | literal l => cases here
      | _ => exact ⟨List.cons_ne_nil _ _, fun _ first => by cases first; exact here, trivial⟩
  | @symbol s rhs items us ts rule inner rest ihInner ih =>
      intro here vs next
      have leads : s.Leads := by
        cases items with
        | nil => exact here
        | cons item items =>
            cases item with
            | token tok => exact here.1
            | symbol => cases here
      have behind : ∀ tok, (ts ++ vs).head? = some tok → tok.isColon = false := fun tok first => by
        cases rest with
        | nil => exact next tok first
        | token rest =>
            cases first
            exact here.2
        | symbol => cases here
      obtain ⟨more, opens, unlabelled⟩ := ihInner (rule.begin leads) (ts ++ vs) behind
      refine ⟨by simp [more], fun tok first => opens tok ?_, by rwa [List.append_assoc]⟩
      rwa [List.head?_append_of_ne_nil _ more] at first

namespace TypeSyntax

variable (t : TypeSyntax)

theorem noNote : ∀ tok ∈ t.tokens, tok.isNote = false :=
  t.derived.noNote (by simp)

theorem beginType : Token.BeginType t.tokens [] :=
  t.derived.beginType trivial [] nofun

theorem ne_nil : t.tokens ≠ [] :=
  t.beginType.ne_nil

/-- A type leaves no bracket open, and it is not cut by a comma. -/
theorem track (o : Opened) : o.track t.tokens = some o :=
  t.derived.track (by simp [Opened.trackItems, Symbol.Allowed])

end TypeSyntax

end EnumExtract
