/-
  EnumExtract.Proofs.Grammar.Enums
  ────────────────────────────────
  Enums as they are written, and what the scan and their reader make of them.

      enum   a visibility, `enum`, a name, variants in braces

  A scope holds no raw name, an attribute has its bracket right behind the hash, and
  in no type a raw name is taken for a keyword.  Other texts that a compiler takes for
  enums are left out; two of them are not read as they are written.

  Main results:
    • `EnumSyntax.items`       the scan finds a written enum and nothing else,
    • `EnumSyntax.read`        the enum found is read as it is written,
    • `EnumSyntax.roundTrip`   both of them, for every text that writes the enum,
    • `EnumSyntax.spelling_unseen`   two texts that are left out.
-/
import EnumExtract.Proofs.Grammar.Variants

namespace EnumExtract

open Cursor

/-! ## §1. Enums. -/

/-- An enum without generics and discriminants, and with no attributes in front of it. -/
structure EnumSyntax where
  visibility : VisibilitySyntax
  name : Identifier
  variants : Series VariantSyntax
  distinct : (variants.elements.map (·.name.text)).Nodup

namespace EnumSyntax

/-- The variants in braces. -/
def body (e : EnumSyntax) : List Token :=
  .mark .openBrace :: (e.variants.tokens (·.tokens) ++ [.mark .closeBrace])

/-- The text writes the enum and nothing else, with arbitrary white space. -/
inductive WrittenAs (e : EnumSyntax) : Text → Prop where
  | mk {before gap w : Text} (blankBefore : IsGap before) (blank : IsGap gap) (apart : gap ≠ [])
      (spells : Spaced [] (.name e.name :: e.body) w) :
      WrittenAs e (before ++ (e.visibility.text ++ ("enum" ++ (gap ++ w))))

/-- The item is the one that is written. -/
structure IsFoundAs (e : EnumSyntax) (item : Item) : Prop where
  kind : item.kind = .enum
  name : item.name = e.name.text
  visibility : item.visibility = e.visibility.shown
  attrs : item.attrs = []
  module : item.module = []

/-- The enum is the one that is written. -/
structure IsReadAs (e : EnumSyntax) (enum : EnumDecl) : Prop where
  name : enum.name = e.name.text
  visibility : enum.visibility = e.visibility.shown
  variants : List.Forall₂ VariantSyntax.IsReadAs e.variants.elements enum.variants
  metadata : enum.metadata = []

variable (e : EnumSyntax)

/-- The leaves of the body may stand in one. -/
theorem closed_body : Closed (e.body.flatMap Token.leaves) := by
  rw [body, List.flatMap_cons, List.flatMap_append]
  exact .group rfl (.series e.variants fun v _ => v.closed)

theorem endsBody : EndsBody (e.body.flatMap Token.leaves) := by
  refine ⟨'\x7d', rfl, ?_, .inr rfl⟩
  rw [body, ← List.cons_append, List.flatMap_append]
  exact List.getLast?_concat ..

variable {e} {c : Cursor} {gap w t : Text}

/-- The head of a written enum. -/
theorem exists_headRead (eq : c.ahead = e.visibility.text ++ ("enum" ++ (gap ++ w))) (blank : IsGap gap)
    (apart : gap ≠ []) (spells : Spaced [] (.name e.name :: e.body) w) :
    ∃ word behind item after, c.identifier? = some (word, behind) ∧ (word = "pub" ∨ word = "enum")
      ∧ HeadRead c [] (some item) after ∧ e.IsFoundAs item ∧ item.bodyIndex = after.offset
      ∧ Spaced [] e.body after.ahead ∧ after.Clear := by
  have sealed := blank.sealed_of_ne_nil apart w
  have keyword := ahead_advance eq
  have behind := ahead_advance keyword
  obtain ⟨word, rest, _, found, either, visibility, toKeyword⟩ := e.visibility.read eq sealed
  have spaced := spells.gap blank
  rw [← behind] at spaced
  obtain ⟨name, toName, at'⟩ := spaced.trivia
    (.behindWord keyword (by decide) (by decide) fun ch first => (sealed ch first).1) rfl
  have firm : c.ahead.Firm := by
    obtain ⟨ch, first, isWord⟩ := isWord_of_identifier? found
    obtain ⟨v, ahead⟩ := List.head?_eq_some_iff.mp first
    rw [ahead]
    exact .of_isWord isWord
  have head : HeadAt c [] c e.visibility.shown _ _ :=
    ⟨.stop firm.still.trivium? firm.still.noDoc firm.still.noAttribute, visibility, toKeyword⟩
  let after := name.advance e.name.text.length
  let item : Item := ⟨.enum, e.name.text, [], e.visibility.shown, c.offset, after.offset, []⟩
  have parts : ItemAt c item c _ _ name after :=
    ⟨⟨_, head⟩, isIdentifier_enum.identifier? keyword sealed, toName false, at'.identifier?_name, rfl, rfl⟩
  obtain ⟨body, clear⟩ := at'.behind
  exact ⟨word, rest, item, after, found, either, .item parts rfl, ⟨rfl, rfl, rfl, rfl, rfl⟩, rfl, body, clear⟩

/-- **The scan finds a written enum and nothing else.** -/
theorem items (h : e.WrittenAs t) :
    ∃ item after, t.items = .ok [item] ∧ e.IsFoundAs item ∧ item.bodyIndex = after.offset
      ∧ (t.cursor 0).LeadsTo after ∧ Spaced [] e.body after.ahead ∧ after.Clear := by
  obtain @⟨before, gap, w, blankBefore, blank, apart, spells⟩ := h
  generalize ht : before ++ (e.visibility.text ++ ("enum" ++ (gap ++ w))) = t
  have start : (t.cursor 0).ahead = before ++ (e.visibility.text ++ ("enum" ++ (gap ++ w))) := ht.symm
  have here := ahead_advance start
  obtain ⟨word, behind, item, after, found, either, read, isFound, index, body, clear⟩ :=
    exists_headRead here blank apart spells
  -- the scan takes the first word, `pub` or `enum`, for the start of a head
  have wordStart : ((t.cursor 0).advance before.length).atWordStart = true := by
    rcases before.eq_nil_or_concat' with rfl | ⟨v, ch, rfl⟩
    · rfl
    · rw [List.append_assoc, List.singleton_append] at start
      have last := before_advance start
      rw [List.length_append, List.length_singleton, atWordStart, last, Option.all_some,
        not_isWord_of_isBlank (blankBefore ch (by simp)), Bool.not_false]
  have starts (keywords : List Text) :
      ((t.cursor 0).advance before.length).startsKeyword keywords = keywords.contains word := by
    rw [startsKeyword, wordStart, (identifier?_eq_some found).1]
    simp
  have noModule : ((t.cursor 0).advance before.length).startsKeyword ["mod"] = false := by
    rw [starts]
    rcases either with rfl | rfl <;> rfl
  have mayStart : ((t.cursor 0).advance before.length).mayStartItem = true := by
    rw [mayStartItem, starts]
    rcases either with rfl | rfl <;> simp
  have more : ((t.cursor 0).advance before.length).ahead ≠ [] := by
    obtain ⟨ch, first, _⟩ := isWord_of_identifier? found
    intro nil
    rw [nil] at first
    cases first
  refine ⟨item, after, ?_, isFound, index, ?_, body, clear⟩
  · -- white space, then the head, then a body in which no other head is found
    have blanks := passes_blanks start blankBefore ⟨[], []⟩
    have head := walk_head noModule mayStart more ⟨[], []⟩ read
    have inBody : InBody [] (e.body.flatMap Token.leaves) after := by
      refine ⟨body.printed, clear.fresh, ?_, fun _ => e.endsBody⟩
      have all : IsBody (e.body.flatMap Token.leaves ++ []) :=
        e.closed_body.isBody trivial fun _ first => by cases first
      rwa [List.append_nil] at all
    obtain ⟨d, passes, _, ends, _⟩ := inBody.passes
    exact blanks.trans (head.trans ((passes ⟨[item], []⟩).trans (walk_end ends)))
  · have onward := (read.leadsTo more).1
    refine .trans (leadsTo_advance ?_) onward
    rw [start, List.length_append]
    exact Nat.le_add_right _ _

/-- **The enum found is read as it is written.** -/
theorem read {item : Item} {after : Cursor} (found : e.IsFoundAs item) (index : item.bodyIndex = after.offset)
    (onward : (t.cursor 0).LeadsTo after) (spaced : Spaced [] e.body after.ahead) (clear : after.Clear) :
    ∃ enum, EnumDecl.read t item = .ok enum ∧ e.IsReadAs enum := by
  obtain ⟨body, toBody, at'⟩ := spaced.trivia clear rfl
  obtain ⟨v, opens, _, inner⟩ := at'.first
  have here : (t.cursor 0).LeadsTo body := onward.trans (toBody false).leadsTo
  obtain ⟨close, pieces, w, closing, _, _, _, cut, holds⟩ := e.variants.pieces opens rfl rfl inner
    fun v _ => v.isElement
  obtain ⟨code, encloses⟩ := closing_ok_iff.mp closing
  have inside : ∀ p ∈ pieces, (t.cursor 0).LeadsTo p.start := fun p mem =>
    here.trans ((encloses.pieces_sound (.start body) cut).2 p mem).level.leadsTo
  -- each piece holds a variant, which is read as it is written
  have placed := (List.forall₂_and_left _ _).mpr ⟨inside, holds.flip⟩
  obtain ⟨variants, read, readAs⟩ := exists_mapM_of_forall₂ placed.flip
    fun {v p} ⟨start, d, hold⟩ => VariantSyntax.read hold start
  have names : variants.map (·.name) = e.variants.elements.map (·.name.text) := by
    have same : List.Forall₂ (· = ·) (variants.map (·.name)) (e.variants.elements.map (·.name.text)) :=
      List.forall₂_map_left_iff.mpr (List.forall₂_map_right_iff.mpr (readAs.flip.imp fun _ _ h => h.name))
    rwa [List.forall₂_eq_eq_eq] at same
  have all : Variant.readAll t pieces = .ok variants :=
    Variant.readAll_ok_iff.mpr ⟨mapM_ok_iff.mp read, by rw [names]; exact e.distinct⟩
  let enum : EnumDecl := ⟨item.name, item.visibility, variants, [], item.start, close.offset + 1,
    variants.flatMap (·.directives), []⟩
  refine ⟨enum, EnumDecl.read_ok_iff.mpr ⟨body, close, pieces, ?_⟩, ?_⟩
  · constructor
    case toBody =>
      rw [index, ← cursor_of_leadsTo onward]
      exact toBody false
    case opens => exact sees_iff.mpr ⟨v, opens⟩
    case closing => exact closing
    case cut => exact cut
    case variants => exact all
    case attributes =>
      rw [found.attrs]
      rfl
    case directives =>
      rw [found.attrs]
      rfl
    all_goals rfl
  · exact ⟨found.name, found.visibility, readAs, rfl⟩

/-- **A written enum is found and read as it is written.** -/
theorem roundTrip (e : EnumSyntax) {t : Text} (h : e.WrittenAs t) :
    ∃ item enum, t.items = .ok [item] ∧ e.IsFoundAs item ∧ EnumDecl.read t item = .ok enum ∧ e.IsReadAs enum := by
  obtain ⟨item, after, items, found, index, onward, body, clear⟩ := EnumSyntax.items h
  obtain ⟨enum, read, isRead⟩ := EnumSyntax.read found index onward body clear
  exact ⟨item, enum, items, found, read, isRead⟩

/-! ## §2. A written enum. -/

namespace Sample

def shape : Identifier := .ofName "Shape" ⟨'S', "hape".toList, rfl, rfl, by decide⟩ (by decide)

def dot : Identifier := .ofName "Dot" ⟨'D', "ot".toList, rfl, rfl, by decide⟩ (by decide)

def line : Identifier := .ofName "Line" ⟨'L', "ine".toList, rfl, rfl, by decide⟩ (by decide)

def hole : Identifier := .ofName "Hole" ⟨'H', "ole".toList, rfl, rfl, by decide⟩ (by decide)

def vec : Identifier := .ofName "Vec" ⟨'V', "ec".toList, rfl, rfl, by decide⟩ (by decide)

def byte : Identifier := .ofName "u8" ⟨'u', "8".toList, rfl, rfl, by decide⟩ (by decide)

def size : Identifier := .ofName "usize" ⟨'u', "size".toList, rfl, rfl, by decide⟩ (by decide)

def head : Identifier := .ofName "h" ⟨'h', [], rfl, rfl, nofun⟩ (by decide)

def tail : Identifier := .ofName "t" ⟨'t', [], rfl, rfl, nofun⟩ (by decide)

def lifetime : Lifetime := ⟨"a", ⟨'a', [], rfl, rfl, nofun⟩, by decide⟩

/-- A path of one name. -/
theorem yields_name (i : Identifier) : Yields [Symbol.path] [.name i] :=
  .symbol .last (.symbol (.plain i) (.token .nil) .nil) .nil

/-- `u8` -/
def byteType : TypeSyntax :=
  ⟨[.name byte], .symbol .path (yields_name byte) .nil⟩

/-- `Vec<u8>` -/
def vecType : TypeSyntax where
  tokens := [.name vec, .mark .less, .name byte, .mark .greater]
  derived := .symbol .path (.symbol .last (.symbol (.generic vec) (.token (.token (.symbol (.single _)
    (.symbol .typeArgument byteType.derived .nil) (.token .nil)))) .nil) .nil) .nil

/-- `&'a u8` -/
def borrowedType : TypeSyntax where
  tokens := [.mark .ampersand, .lifetime lifetime, .name byte]
  derived := .symbol (.borrow lifetime) (.token (.token byteType.derived)) .nil

/-- `']'` -/
def bracket : Literal :=
  .character [] "]'" (by decide) (.plain (by decide) (by decide) (by decide))

/-- `[u8; ']' as usize]` -/
def arrayType : TypeSyntax where
  tokens := [.mark .openBracket, .name byte, .mark .semicolon, .literal bracket, .name .asWord, .name size,
    .mark .closeBracket]
  derived := .symbol .array (.token (.symbol .path (yields_name byte) (.token (.symbol (.moreCode _ rfl)
    (.token (.symbol (.moreCode _ rfl) (.token (.symbol (.moreCode _ rfl) (.token (.symbol .noCode .nil .nil))
    .nil)) .nil)) (.token .nil))))) .nil

/-- `#[w]` for a word `w`. -/
def marker (w : Text) (isName : IsName w) : AttributeSyntax where
  before := []
  path := w
  between := []
  input := .none
  blankBefore := IsGap.nil
  isPath := by simpa using IsWrittenPath.mk isName .nil
  blankBetween := IsGap.nil

def exclude : AttributeSyntax :=
  marker "exclude" ⟨'e', "xclude".toList, rfl, rfl, by decide⟩

def hidden : AttributeSyntax :=
  marker "hidden" ⟨'h', "idden".toList, rfl, rfl, by decide⟩

/-- `#[variant_attrs(#[hidden])]` -/
def listed : ListedSyntax where
  before := []
  between := []
  after := []
  entries := [.bracketed hidden]
  inner := "#[hidden]"
  blankBefore := IsGap.nil
  blankBetween := IsGap.nil
  blankAfter := IsGap.nil
  spells := .cons IsGap.nil trivial (.nil IsGap.nil)

def doc : DocComment where
  body := " Two ends."
  line := by decide
  doc := by decide

theorem isScope_crate : IsScope "(crate)" :=
  @IsScope.word [] "crate" [] IsGap.nil (by decide) IsGap.nil

end Sample

open Sample

/-- An enum of three variants. -/
def sample : EnumSyntax where
  visibility := .within [] "(crate)" " " IsGap.nil isScope_crate
    IsGap.space
  name := shape
  variants := .more ⟨[.exclude exclude rfl], by decide, dot, .unit⟩
    (.more ⟨[.doc doc, .listed listed], by decide, line,
        .named (.more (head, ⟨[], vecType, .of_cooked rfl⟩) (.last (tail, ⟨[], borrowedType, .of_cooked rfl⟩)))⟩
      (.last ⟨[], by decide, hole, .positional (.last ⟨[], arrayType, .of_cooked rfl⟩)⟩))
  distinct := by decide

/-- The text of the enum, on a few lines. -/
def sampleText : Text :=
  "pub(crate) enum Shape \x7b\n #[exclude] Dot,\n /// Two ends.\n #[variant_attrs(#[hidden])] Line \x7b h: Vec<u8>, t: &'a u8 \x7d, Hole([u8; ']' as usize])\n\x7d"

theorem sample_writtenAs : sample.WrittenAs sampleText := by
  have feedSpace : IsGap "\n " := IsGap.feed.append IsGap.space
  have noColon {w : Text} : (' ' :: w : Text).head? ≠ some ':' := fun h => by cases h
  have noWord {w : Text} : (Token.literal bracket).Apart (' ' :: w) := by
    rintro _ ⟨⟩
    rfl
  have spells : Spaced [] (.name sample.name :: sample.body) _ :=
    .cons IsGap.nil (.of_first _ (by decide)) (.cons IsGap.space trivial
      (.cons feedSpace trivial (.cons IsGap.space (.of_first _ (by decide)) (.cons IsGap.nil trivial
      (.cons feedSpace trivial (.cons IsGap.space trivial (.cons IsGap.space (.of_first _ (by decide))
      (.cons IsGap.space trivial
      (.cons IsGap.space (.of_first _ (by decide)) (.cons IsGap.nil noColon
        (.cons IsGap.space (.of_first _ (by decide)) (.cons IsGap.nil trivial
          (.cons IsGap.nil (.of_first _ (by decide)) (.cons IsGap.nil trivial (.cons IsGap.nil trivial
      (.cons IsGap.space (.of_first _ (by decide)) (.cons IsGap.nil noColon
        (.cons IsGap.space trivial (.cons IsGap.nil (.of_first _ (by decide))
          (.cons IsGap.space (.of_first _ (by decide))
      (.cons IsGap.space trivial (.cons IsGap.nil trivial
      (.cons IsGap.space (.of_first _ (by decide)) (.cons IsGap.nil trivial (.cons IsGap.nil trivial
        (.cons IsGap.nil (.of_first _ (by decide)) (.cons IsGap.nil trivial (.cons IsGap.space noWord
          (.cons IsGap.space (.of_first _ (by decide)) (.cons IsGap.space (.of_first _ (by decide))
      (.cons IsGap.nil trivial (.cons IsGap.nil trivial
      (.cons IsGap.feed trivial (.nil IsGap.nil))))))))))))))))))))))))))))))))))
  obtain ⟨t, written, eq⟩ : ∃ t, sample.WrittenAs t ∧ t = sampleText :=
    ⟨_, .mk IsGap.nil IsGap.space (List.cons_ne_nil _ _) spells, by decide +kernel⟩
  rwa [eq] at written

/-- It is found and read. -/
theorem sample_roundTrip :
    sample.WrittenAs sampleText ∧ ∃ item enum, Text.items sampleText = .ok [item] ∧ sample.IsFoundAs item
      ∧ EnumDecl.read sampleText item = .ok enum ∧ sample.IsReadAs enum :=
  ⟨sample_writtenAs, sample.roundTrip sample_writtenAs⟩

/-- An enum whose visibility names a module by its raw name. -/
def scopedText : Text :=
  "pub(in crate::r#type) enum E \x7b A \x7d"

/-- An enum with a blank in the attribute of its variant. -/
def spacedText : Text :=
  "enum E \x7b # [exclude] A \x7d"

/-- **Two enums are not read as they are written**: one is found without its visibility, and one is
refused for its attribute. -/
theorem spelling_unseen :
    (∃ item, scopedText.items = .ok [item] ∧ item.name = "E" ∧ item.visibility = []
      ∧ scopedText.take item.start = "pub(in crate::r#type) "
      ∧ ∃ enum, EnumDecl.read scopedText item = .ok enum ∧ enum.visibility = [])
    ∧ ∃ item, spacedText.items = .ok [item] ∧ item.name = "E"
      ∧ ∃ fault, EnumDecl.read spacedText item = .error fault := by
  constructor
  · obtain ⟨items, found, one⟩ := exists_ok_of_decide (x := scopedText.items)
      (p := fun items => items.map (fun i : Item => (i.name, i.visibility, scopedText.take i.start))
          = [(("E" : Text), [], ("pub(in crate::r#type) " : Text))]
        ∧ items.mapM (fun i : Item => (EnumDecl.read scopedText i).map (·.visibility)) = .ok [[]])
      (by decide +kernel)
    obtain ⟨item, rfl, same⟩ := List.map_eq_singleton_iff.mp one.1
    simp only [Prod.mk.injEq] at same
    have read := one.2
    rw [mapM_ok_iff, List.forall₂_cons] at read
    cases declared : EnumDecl.read scopedText item with
    | error fault =>
        rw [declared] at read
        cases read.1
    | ok enum =>
        rw [declared] at read
        exact ⟨item, found, same.1, same.2.1, same.2.2, enum, declared, Except.ok.inj read.1⟩
  · obtain ⟨items, found, one⟩ := exists_ok_of_decide (x := spacedText.items)
      (p := fun items => items.map (fun i : Item => (i.name, (EnumDecl.read spacedText i).isOk))
        = [(("E" : Text), false)]) (by decide +kernel)
    obtain ⟨item, rfl, same⟩ := List.map_eq_singleton_iff.mp one
    obtain ⟨name, refused⟩ := Prod.mk.inj same
    cases declared : EnumDecl.read spacedText item with
    | error fault => exact ⟨item, found, name, fault, declared⟩
    | ok enum =>
        rw [declared] at refused
        cases refused

end EnumSyntax
end EnumExtract
