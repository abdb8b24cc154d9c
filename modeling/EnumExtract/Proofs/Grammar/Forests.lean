/-
  EnumExtract.Proofs.Grammar.Forests
  ────────────────────────────────
  Trees of modules and declarations as they are written, and what the scan finds.

      forest        declarations and modules, one after the other
      module        a head, `mod`, a name, a forest in braces or a semicolon
      declaration   a head, `enum` or `struct`, a name, a body
      head          remarks and a visibility

  The scan keeps the modules that are open on a stack, and leaves one when it
  has come past its brace.  What it finds in a forest is stated for every stack
  whose innermost module reaches past the forest, so that the forest of an
  inline module is found on the stack with that module on top.

  Main results:
    • `Head.read`           the head of a declaration or module is read as it is written,
    • `Declaration.found`   so is a declaration, and the scan goes on behind its body,
    • `Forest.found`        and a forest, with the modules around each declaration,
    • `Forest.items_of_writtenAs`   the scan finds the declarations of a written forest.
-/
import EnumExtract.Proofs.Grammar.Bodies
import EnumExtract.Proofs.Grammar.Enums

namespace EnumExtract

open Cursor

/-! ## §1. Forests. -/

/-- The visibility of a declaration or module. -/
inductive Access where
  | inherited
  | bare
  | within (scope : Text) (isScope : IsScope scope)

namespace Access

def leaves : Access → List Leaf
  | inherited => []
  | bare => [.keyword "pub" (by decide)]
  | within scope isScope => [.keyword "pub" (by decide), .scope scope isScope.whole]

/-- The visibility as it is recorded, with the white space of its scope collapsed. -/
def shown : Access → Text
  | inherited => []
  | bare => "pub"
  | within scope _ => "pub" ++ Text.collapse scope

end Access

/-- What stands before the keyword of a declaration or module. -/
structure Head where
  remarks : List Remark
  access : Access

def Head.leaves (h : Head) : List Leaf :=
  h.remarks.map .remark ++ h.access.leaves

/-- What stands behind the name of a declaration. -/
structure Body where
  leaves : List Leaf
  isBody : IsBody leaves
  ends : EndsBody leaves
  closed : nest [] (leaves.flatMap Leaf.brackets) = some []

structure Declaration where
  head : Head
  kind : DeclKind
  name : Identifier
  body : Body

theorem DeclKind.keyword_reserved (kind : DeclKind) : kind.keyword ∈ reservedWords := by
  cases kind <;> decide

theorem mod_reserved : ("mod" : Text) ∈ reservedWords := by
  decide

def Declaration.leaves (d : Declaration) : List Leaf :=
  d.head.leaves ++ .keyword d.kind.keyword d.kind.keyword_reserved :: .name d.name :: d.body.leaves

/-- Modules and declarations, one after the other. -/
inductive Forest where
  | nil
  | declaration (d : Declaration) (rest : Forest)
  /-- A module whose declarations are in another file. -/
  | outline (head : Head) (name : Identifier) (rest : Forest)
  | inline (head : Head) (name : Identifier) (inner rest : Forest)

namespace Forest

def leaves : Forest → List Leaf
  | nil => []
  | declaration d rest => d.leaves ++ rest.leaves
  | outline head name rest =>
      head.leaves ++ .keyword "mod" mod_reserved :: .name name :: .symbol ';' isSymbol_semicolon :: rest.leaves
  | inline head name inner rest =>
      head.leaves ++ .keyword "mod" mod_reserved :: .name name :: .symbol '\x7b' isSymbol_openBrace
        :: (inner.leaves ++ .symbol '\x7d' isSymbol_closeBrace :: rest.leaves)

/-- The declarations in order, each with the names of the inline modules around it, where the
forest itself is inside `module`. -/
def declarations (module : List Text) : Forest → List (List Text × Declaration)
  | nil => []
  | declaration d rest => (module, d) :: rest.declarations module
  | outline _ _ rest => rest.declarations module
  | inline _ name inner rest => inner.declarations (module ++ [name.text]) ++ rest.declarations module

/-- The text writes the forest and nothing else, with arbitrary white space. -/
def WrittenAs (f : Forest) (t : Text) : Prop :=
  Printed [] f.leaves t

end Forest

/-- The item is the declaration, written inside `module` somewhere behind `c`. -/
structure Declaration.FoundAs (c : Cursor) (module : List Text) (d : Declaration) (item : Item) : Prop where
  kind : item.kind = d.kind
  name : item.name = d.name.text
  visibility : item.visibility = d.head.access.shown
  attrs : List.Forall₂ (Remark.ReadAs c) d.head.remarks item.attrs
  module : item.module = module

theorem Declaration.FoundAs.of_leadsTo {c e : Cursor} {module : List Text} {d : Declaration} {item : Item}
    (h : d.FoundAs e module item) (onward : c.LeadsTo e) : d.FoundAs c module item :=
  ⟨h.kind, h.name, h.visibility, h.attrs.imp fun _ _ read => read.of_leadsTo onward, h.module⟩

/-! ## §2. Brackets. -/

theorem Head.brackets (h : Head) : h.leaves.flatMap Leaf.brackets = [] := by
  rw [leaves, List.flatMap_append, List.append_eq_nil_iff]
  constructor
  · rw [List.flatMap_map, List.flatMap_eq_nil_iff]
    exact fun _ _ => rfl
  · cases h.access <;> rfl

/-- A forest leaves no bracket open. -/
theorem Forest.closed (f : Forest) : nest [] (f.leaves.flatMap Leaf.brackets) = some [] := by
  induction f with
  | nil => rfl
  | declaration d rest ih =>
      rw [leaves, Declaration.leaves, List.flatMap_append, List.flatMap_append, Head.brackets, List.nil_append,
        List.flatMap_cons, List.flatMap_cons]
      show nest [] (d.body.leaves.flatMap Leaf.brackets ++ _) = some []
      rw [nest_append_eq, d.body.closed]
      exact ih
  | outline head name rest ih =>
      rw [leaves, List.flatMap_append, Head.brackets]
      exact ih
  | inline head name inner rest ih ih' =>
      rw [leaves, List.flatMap_append, Head.brackets]
      show nest ['\x7d'] ((inner.leaves ++ .symbol '\x7d' isSymbol_closeBrace :: rest.leaves).flatMap Leaf.brackets) = some []
      rw [List.flatMap_append, nest_append_eq, nest_balanced ih]
      exact ih'

/-! ## §3. Heads. -/

section Heads

variable {tail w : Text} {k : Text} {mem : k ∈ reservedWords} {ls : List Leaf} {c d : Cursor}

/-- The scan reads a head at `start`, which is not empty and ends at `place`. -/
structure Cursor.Heads (start place : Cursor) : Prop where
  noModule : start.startsKeyword ["mod"] = false
  mayStartItem : start.mayStartItem = true
  lt : start.offset < place.offset

/-- The leaves of a visibility, and the text as which it is recorded. -/
inductive Leaf.Visible : List Leaf → Text → Prop where
  | inherited : Visible [] []
  | bare {mem : ("pub" : Text) ∈ reservedWords} : Visible [.keyword "pub" mem] "pub"
  | within {mem : ("pub" : Text) ∈ reservedWords} {scope : Text} (whole : scopeLength? scope = some scope.length) :
      Visible [.keyword "pub" mem, .scope scope whole] ("pub" ++ Text.collapse scope)

theorem Access.visible (a : Access) : Leaf.Visible a.leaves a.shown := by
  cases a with
  | inherited => exact .inherited
  | bare => exact .bare
  | within scope isScope => exact .within isScope.whole

variable {vs : List Leaf} {shown : Text}

theorem Leaf.Visible.exists_first (h : Visible vs shown) :
    ∃ l ms, vs ++ .keyword k mem :: ls = l :: ms ∧ l.isNamed = true := by
  cases h <;> exact ⟨_, _, rfl, rfl⟩

/-- **A visibility is read as it is written.** -/
theorem Leaf.Visible.read (h : Visible vs shown) (printed : Printed tail (vs ++ .keyword k mem :: ls) c.ahead)
    (fresh : c.Fresh) (still : c.ahead.Still) (other : k ≠ "pub") :
    ∃ behind place w, Visibility c shown behind ∧ Trivia false behind place
      ∧ Stands tail (.keyword k mem) ls place w ∧ (c = place ∨ c.Heads place) := by
  have stop : Trivia false c c := .stop still.trivium?
  have first {l : Leaf} {ms : List Leaf} (printed : Printed tail (l :: ms) c.ahead) (plain : l.isRemark = false) :
      ∃ w, Stands tail l ms c w := by
    obtain ⟨d, w, trivia, stands⟩ := printed.trivia fresh plain
    obtain rfl : c = d := stop.unique (trivia false)
    exact ⟨w, stands⟩
  have heads {ms : List Leaf} {w : Text} {mem : ("pub" : Text) ∈ reservedWords} {place : Cursor}
      (stands : Stands tail (.keyword "pub" mem) ms c w) (onward : (c.advance 3).LeadsTo place) :
      c.Heads place := by
    have le := onward.offset_le
    rw [advance_offset] at le
    exact ⟨stands.keyword.noModule (by decide), stands.keyword.mayStartItem (by decide), by omega⟩
  cases h with
  | inherited =>
      obtain ⟨w, stands⟩ := first printed rfl
      refine ⟨c, c, w, stands.noPub fun mem same => ?_, stop, stands, .inl rfl⟩
      cases same
      exact other rfl
  | bare =>
      obtain ⟨w, stands⟩ := first printed rfl
      obtain ⟨printed', fresh'⟩ := stands.behind
      obtain ⟨place, v, trivia, stands'⟩ := printed'.trivia fresh' rfl
      have noScope : scopeLength? place.ahead = none := by
        obtain ⟨ch, u, text, start, _⟩ := isName_of_reserved mem
        rw [stands'.ahead, Leaf.text, text, List.cons_append, scopeLength?.eq_def]
        split
        next same =>
          rw [(List.cons.inj same).1] at start
          cases start
        next => rfl
      exact ⟨_, place, v, .bare stands.keyword.identifier? (trivia false) noScope, trivia false, stands',
        .inr (heads stands (trivia false).leadsTo)⟩
  | @within _ scope whole =>
      obtain ⟨w, stands⟩ := first printed rfl
      obtain ⟨printed', fresh'⟩ := stands.behind
      obtain ⟨place, v, trivia, stands'⟩ := printed'.trivia fresh' rfl
      obtain ⟨printed'', fresh''⟩ := stands'.behind
      obtain ⟨last, u, trivia', stands''⟩ := printed''.trivia fresh'' rfl
      have ahead : place.ahead = scope ++ v := stands'.ahead
      have measured := scopeLength?_append whole v
      rw [← ahead] at measured
      have visible := Visibility.within stands.keyword.identifier? (trivia false) measured
      rw [ahead, List.take_left] at visible
      have onward := ((trivia false).leadsTo.trans stands'.leadsTo).trans (trivia' false).leadsTo
      exact ⟨_, last, u, visible, trivia' false, stands'', .inr (heads stands onward)⟩

/-- **A head is read as it is written**, and the keyword behind it stands at its end. -/
theorem Leaf.Visible.readHead (h : Visible vs shown) (remarks : List Remark)
    (printed : Printed tail ((remarks.map .remark ++ vs) ++ .keyword k mem :: ls) c.ahead)
    (fresh : c.Fresh) (other : k ≠ "pub") :
    ∃ start attrs head behind place w, Passes c start ∧ c.LeadsTo start ∧ start.ahead ≠ []
      ∧ HeadAt start attrs head shown behind place
      ∧ List.Forall₂ (Remark.ReadAs c) remarks attrs ∧ Stands tail (.keyword k mem) ls place w
      ∧ (start = place ∨ start.Heads place) := by
  obtain ⟨l, ms, eq, named⟩ : ∃ l ms, vs ++ .keyword k mem :: ls = l :: ms ∧ l.isNamed = true :=
    h.exists_first
  have plain : l.isRemark = false := by cases l <;> first | rfl | cases named
  rw [List.append_assoc, eq] at printed
  -- the place of the first leaf
  obtain ⟨first, rest, cons⟩ : ∃ first rest, remarks.map Leaf.remark ++ l :: ms = first :: rest := by
    cases remarks <;> exact ⟨_, _, rfl⟩
  have printed' := printed
  rw [cons] at printed'
  obtain ⟨b, start, v, cut, blank, rfl, stands⟩ := printed'.toFirst fresh
  have toStart : c.LeadsTo (c.advance b.length) := leadsTo_advance (by
    rw [cut, List.length_append]
    omega)
  have here := stands.printed
  rw [← cons] at here
  obtain ⟨attrs, head, u, prelude, read, atHead⟩ := here.prelude plain stands.fresh
  have access := atHead.printed
  rw [← eq] at access
  obtain ⟨behind, place, w, visible, toPlace, atPlace, heads⟩ :=
    h.read access atHead.fresh (atHead.still plain) other
  have onward := (visible.leadsTo.trans toPlace.leadsTo).offset_le
  have leads := prelude.leadsTo.trans (visible.leadsTo.trans toPlace.leadsTo)
  refine ⟨_, attrs, head, behind, place, w, passes_blanks cut blank, toStart,
    leads.ne_nil atPlace.keyword.ne_nil, ⟨prelude, visible, toPlace⟩,
    read.imp fun _ _ read => read.of_leadsTo toStart, atPlace, ?_⟩
  · cases remarks with
    | cons r rs =>
        obtain rfl : Leaf.remark r = first := (List.cons.inj cons).1
        obtain ⟨noModule, starts⟩ := Remark.mayStartItem stands.ahead
        refine .inr ⟨noModule, starts, Nat.lt_of_lt_of_le ?_ onward⟩
        cases read with
        | cons => exact prelude.offset_lt
    | nil =>
        obtain ⟨rfl, rfl⟩ := List.cons.inj cons
        cases read
        have still := stands.still plain
        obtain ⟨_, rfl⟩ := prelude.unique (.stop still.trivium? still.noDoc still.noAttribute)
        exact heads

theorem Head.read (h : Head) (printed : Printed tail (h.leaves ++ .keyword k mem :: ls) c.ahead)
    (fresh : c.Fresh) (other : k ≠ "pub") :
    ∃ start attrs head behind place w, Passes c start ∧ c.LeadsTo start ∧ start.ahead ≠ []
      ∧ HeadAt start attrs head h.access.shown behind place
      ∧ List.Forall₂ (Remark.ReadAs c) h.remarks attrs ∧ Stands tail (.keyword k mem) ls place w
      ∧ (start = place ∨ start.Heads place) :=
  h.access.visible.readHead h.remarks printed fresh other

end Heads

/-! ## §4. Open modules. -/

/-- The innermost open module reaches up to offset `i`. -/
def Reaches (modules : List OpenModule) (i : Nat) : Prop :=
  ∀ m ∈ modules.head?, i ≤ m.close

theorem Reaches.of_le {modules : List OpenModule} {i j : Nat} (h : Reaches modules j) (le : i ≤ j) :
    Reaches modules i :=
  fun m mem => Nat.le_trans le (h m mem)

theorem Reaches.openAt {modules : List OpenModule} {i : Nat} (h : Reaches modules i) :
    openAt modules i = modules := by
  cases modules with
  | nil => rfl
  | cons m modules => exact List.dropWhile_cons_of_neg (by simpa using h m rfl)

/-- From `c` to `e` the scan finds the declarations `declared`, whatever modules are open around
them. -/
def Finds (c e : Cursor) (declared : List Text → List (List Text × Declaration)) : Prop :=
  ∀ modules, Reaches modules e.offset → ∃ items,
    List.Forall₂ (fun x item => x.2.FoundAs c x.1 item) (declared (modules.reverse.map (·.name))) items
      ∧ ∀ found, walk scanStep scanEnd ⟨found, modules⟩ c
        = walk scanStep scanEnd ⟨items.reverse ++ found, modules⟩ e

section Finds

variable {c d e : Cursor} {declared more : List Text → List (List Text × Declaration)}

theorem Finds.of_passes (h : Passes c e) : Finds c e fun _ => [] :=
  fun _ _ => ⟨[], .nil, fun _ => h _⟩

theorem Finds.trans (h : Finds c d declared) (h' : Finds d e more) (onward : c.LeadsTo d)
    (onward' : d.LeadsTo e) : Finds c e fun module => declared module ++ more module := by
  intro modules reaches
  obtain ⟨items, all, scan⟩ := h modules (reaches.of_le onward'.offset_le)
  obtain ⟨items', all', scan'⟩ := h' modules reaches
  refine ⟨items ++ items', List.rel_append all (all'.imp fun _ _ found => found.of_leadsTo onward), fun found => ?_⟩
  rw [scan, scan', List.reverse_append, List.append_assoc]

theorem Finds.of_passes_trans (h : Passes c d) (h' : Finds d e more) (onward : c.LeadsTo d)
    (onward' : d.LeadsTo e) : Finds c e more :=
  (Finds.of_passes h).trans h' onward onward'

end Finds

/-- The scan enters an inline module. -/
theorem Cursor.walk_module {c body : Cursor} {inner : OpenModule} (keyword : c.startsKeyword ["mod"] = true)
    (opens : c.openModule? = .ok (some (inner, body))) (s : Scan) :
    walk scanStep scanEnd s c
      = walk scanStep scanEnd ⟨s.items, inner :: openAt s.modules c.offset⟩ (body.advance 1) := by
  obtain ⟨toBody, behind⟩ := leadsTo_openModule keyword opens
  have onward := toBody.trans behind
  have step : c.scanStep s
      = .ok (.move ⟨s.items, inner :: openAt s.modules c.offset⟩ (body.offset + 1 - c.offset)) := by
    rw [scanStep, if_pos keyword, opens]
    rfl
  have le := toBody.offset_le
  have ends := onward.end_eq
  rw [advance_offset] at ends
  rw [walk_move step (by omega) (by omega), ← advance_offset, ← onward.eq_advance]

/-! ## §5. Declarations and modules. -/

section Parts

variable {tail w : Text} {ls : List Leaf} {c : Cursor}

/-- **A declaration is found as it is written.**  What stands behind its name is `mid`, and the scan goes on
behind the body. -/
theorem Leaf.Visible.found {vs : List Leaf} {shown mid : Text} (h : Visible vs shown) (remarks : List Remark)
    (kind : DeclKind) (name : Identifier) (body : Body)
    (printed : Printed mid ((remarks.map .remark ++ vs)
      ++ [.keyword kind.keyword kind.keyword_reserved, .name name]) c.ahead)
    (fresh : c.Fresh) (inside : Printed tail body.leaves mid) :
    ∃ start attrs gap after e, c.LeadsTo start ∧ start.LeadsTo after ∧ after.LeadsTo e
      ∧ after.ahead = gap ++ mid ∧ IsGap gap ∧ e.ahead = tail ∧ e.Fresh
      ∧ List.Forall₂ (Remark.ReadAs c) remarks attrs
      ∧ ∀ modules found, openAt modules start.offset = modules →
        walk scanStep scanEnd ⟨found, modules⟩ c
          = walk scanStep scanEnd
            ⟨⟨kind, name.text, attrs, shown, start.offset, after.offset, modules.reverse.map (·.name)⟩ :: found,
              modules⟩ e := by
  have noMod : kind.keyword ≠ "mod" := by cases kind <;> decide
  obtain ⟨start, attrs, head, behind, place, w, toStart, leads, more, atHead, read, stands, which⟩ :=
    h.readHead remarks printed fresh (by cases kind <;> decide)
  obtain ⟨printed', fresh'⟩ := stands.behind
  obtain ⟨name', v, trivia, atName⟩ := printed'.trivia fresh' rfl
  obtain ⟨rest, freshName⟩ := atName.behind
  obtain ⟨gap, ahead, blank⟩ : ∃ gap, (name'.advance name.text.length).ahead = gap ++ mid ∧ IsGap gap := by
    generalize eq : (name'.advance name.text.length).ahead = t
    rw [show (Leaf.name name).text = name.text from rfl, eq] at rest
    cases rest with
    | nil blank => exact ⟨_, rfl, blank⟩
  have bodyAt : Printed tail body.leaves (name'.advance name.text.length).ahead := by
    rw [ahead]
    exact inside.gap blank
  obtain ⟨e, passes, leads', atEnd, freshEnd⟩ := InBody.passes
    (⟨bodyAt, freshName, body.isBody, fun _ => body.ends⟩ : InBody tail body.leaves _)
  have keyword := stands.keyword.identifier?
  have isName := atName.identifier? rfl
  have toName := (leadsTo_identifier keyword).1.trans ((trivia false).leadsTo.trans (leadsTo_identifier isName).1)
  refine ⟨start, attrs, gap, _, e, leads, atHead.leadsTo.trans toName, leads', ahead, blank, atEnd, freshEnd, read,
    fun modules found here => ?_⟩
  let item : Item := ⟨kind, name.text, attrs, shown, start.offset, (name'.advance name.text.length).offset,
    modules.reverse.map (·.name)⟩
  have isItem : ItemAt start item head place _ name' (name'.advance name.text.length) :=
    ⟨⟨behind, atHead⟩, keyword, trivia false, isName, rfl, rfl⟩
  obtain ⟨noModule, starts⟩ : start.startsKeyword ["mod"] = false ∧ start.mayStartItem = true := by
    rcases which with rfl | heads
    · exact ⟨stands.keyword.noModule noMod, stands.keyword.mayStartItem noMod⟩
    · exact ⟨heads.noModule, heads.mayStartItem⟩
  rw [toStart, walk_head noModule starts more _ (.item isItem (by rw [here]))]
  exact passes _

theorem Declaration.found (d : Declaration) (printed : Printed tail d.leaves c.ahead) (fresh : c.Fresh) :
    ∃ e, c.LeadsTo e ∧ e.ahead = tail ∧ e.Fresh ∧ Finds c e fun module => [(module, d)] := by
  have cut : d.leaves = (d.head.leaves
      ++ [.keyword d.kind.keyword d.kind.keyword_reserved, .name d.name]) ++ d.body.leaves := by
    rw [List.append_assoc]
    rfl
  rw [cut] at printed
  obtain ⟨mid, left, right⟩ := printed.split
  obtain ⟨start, attrs, _, after, e, leads, toName, leads', _, _, ahead, fresh', read, scan⟩ :=
    d.head.access.visible.found d.head.remarks d.kind d.name d.body left fresh right
  have onward := toName.trans leads'
  refine ⟨e, leads.trans onward, ahead, fresh', fun modules reaches => ?_⟩
  have here := Reaches.openAt (reaches.of_le onward.offset_le)
  exact ⟨[_], .cons ⟨rfl, rfl, rfl, read, rfl⟩ .nil, fun found => scan modules found here⟩

/-- The scan comes to the keyword of a module. -/
theorem Head.toModule (h : Head)
    (printed : Printed tail (h.leaves ++ .keyword "mod" mod_reserved :: ls) c.ahead) (fresh : c.Fresh) :
    ∃ place w, Passes c place ∧ c.LeadsTo place ∧ Stands tail (.keyword "mod" mod_reserved) ls place w := by
  obtain ⟨start, attrs, head, behind, place, w, toStart, leads, more, atHead, read, stands, which⟩ :=
    h.read printed fresh (by decide)
  refine ⟨place, w, toStart.trans ?_, leads.trans atHead.leadsTo, stands⟩
  rcases which with rfl | heads
  · exact .refl _
  · have noKeyword (kind : DeclKind) (after : Cursor) : place.identifier? ≠ some (kind.keyword, after) := by
      rw [stands.keyword.identifier?]
      cases kind <;> nofun
    have passes := Passes.head heads.noModule heads.mayStartItem more (.other atHead noKeyword)
    rwa [if_neg (Nat.not_le.mpr heads.lt)] at passes

/-- A module without a forest is passed. -/
theorem Head.outline (h : Head) (name : Identifier)
    (printed : Printed tail (h.leaves ++ [.keyword "mod" mod_reserved, .name name, .symbol ';' isSymbol_semicolon]) c.ahead)
    (fresh : c.Fresh) : ∃ e, c.LeadsTo e ∧ e.ahead = tail ∧ e.Fresh ∧ Passes c e := by
  obtain ⟨place, w, passes, leads, stands⟩ := h.toModule printed fresh
  obtain ⟨printed', fresh'⟩ := stands.behind
  obtain ⟨at', v, trivia, atName⟩ := printed'.trivia fresh' rfl
  obtain ⟨printed'', fresh''⟩ := atName.behind
  obtain ⟨stop, u, trivia', atStop⟩ := printed''.trivia fresh'' rfl
  have none : place.openModule? = .ok none := by
    refine bind_ok_iff.mpr ⟨at', skipTrivia_ok_iff.mpr (trivia false), ?_⟩
    rw [atName.identifier? rfl]
    refine bind_ok_iff.mpr ⟨stop, skipTrivia_ok_iff.mpr (trivia' false), ?_⟩
    have noBrace : stop.sees "\x7b" = false := atStop.noBrace (by decide)
    rw [if_neg (by rw [noBrace]; decide)]
    rfl
  have body : InBody tail [.name name, .symbol ';' isSymbol_semicolon] (place.advance 3) := by
    have noName : ∀ l ∈ [Leaf.symbol ';' isSymbol_semicolon].head?, l.beginsName = false := fun _ same => by cases same; rfl
    exact ⟨printed', fresh', ⟨⟨fun _ same => by cases same; rfl, .of_noName noName⟩, nofun, trivial⟩,
      fun _ => ⟨';', rfl, rfl, .inl rfl⟩⟩
  obtain ⟨e, passes', leads', ahead, freshEnd⟩ := body.passes
  exact ⟨e, leads.trans (stands.leadsTo.trans leads'), ahead, freshEnd,
    passes.trans ((stands.keyword.passes_module rfl none).trans passes')⟩

end Parts

/-! ## §6. Forests. -/

/-- **A forest is found as it is written**, each declaration with the modules around it. -/
theorem Forest.found (f : Forest) : ∀ {tail : Text} {c : Cursor}, Printed tail f.leaves c.ahead → c.Fresh →
    ∃ e, c.LeadsTo e ∧ e.ahead = tail ∧ e.Fresh ∧ Finds c e fun module => f.declarations module := by
  induction f with
  | nil =>
      intro tail c printed fresh
      have body : InBody tail [] c := ⟨printed, fresh, trivial, fun more => absurd rfl more⟩
      obtain ⟨e, passes, leads, ahead, fresh'⟩ := body.passes
      exact ⟨e, leads, ahead, fresh', .of_passes passes⟩
  | declaration d rest ih =>
      intro tail c printed fresh
      obtain ⟨mid, left, right⟩ := printed.split
      obtain ⟨d', leads, rfl, fresh', found⟩ := d.found left fresh
      obtain ⟨e, leads', ahead, fresh'', found'⟩ := ih right fresh'
      exact ⟨e, leads.trans leads', ahead, fresh'', found.trans found' leads leads'⟩
  | outline head name rest ih =>
      intro tail c printed fresh
      have cut : (Forest.outline head name rest).leaves
          = (head.leaves ++ [.keyword "mod" mod_reserved, .name name, .symbol ';' isSymbol_semicolon]) ++ rest.leaves := by
        rw [List.append_assoc]
        rfl
      rw [cut] at printed
      obtain ⟨mid, left, right⟩ := printed.split
      obtain ⟨d, leads, rfl, fresh', passes⟩ := head.outline name left fresh
      obtain ⟨e, leads', ahead, fresh'', found⟩ := ih right fresh'
      exact ⟨e, leads.trans leads', ahead, fresh'', .of_passes_trans passes found leads leads'⟩
  | inline head name inner rest ih ih' =>
      intro tail c printed fresh
      obtain ⟨place, w, passes, leads, stands⟩ := head.toModule printed fresh
      obtain ⟨printed', fresh'⟩ := stands.behind
      obtain ⟨at', v, trivia, atName⟩ := printed'.trivia fresh' rfl
      obtain ⟨printed'', fresh''⟩ := atName.behind
      obtain ⟨brace, u, trivia', atBrace⟩ := printed''.trivia fresh'' rfl
      obtain ⟨within, freshIn⟩ := atBrace.behind
      -- the forest inside reaches up to the closing brace
      obtain ⟨behind, left, right⟩ : ∃ behind, Printed ('\x7d' :: behind) inner.leaves (brace.advance 1).ahead
          ∧ Printed tail rest.leaves behind := by
        obtain ⟨mid, left, right⟩ := within.split
        generalize mid = t at left right
        cases right with
        | cons blank apart printed => exact ⟨_, left.of_gap blank, printed⟩
      obtain ⟨close, toClose, atClose, freshClose, found⟩ := ih left freshIn
      have opens : brace.ahead.head? = some '\x7b' := by rw [atBrace.ahead]; rfl
      have closes : close.ahead.head? = some '\x7d' := by rw [atClose]; rfl
      have closing : brace.closing = .ok close := by
        obtain ⟨code, e, reads, atEnd, same⟩ := left.reads freshIn
        have here := reads.leadsTo.end_eq
        have there := toClose.end_eq
        rw [atEnd] at here
        rw [atClose] at there
        obtain rfl : close = e := toClose.eq_of_offset reads.leadsTo (by omega)
        exact closing_ok_iff.mpr ⟨code, reads, by rw [same, inner.closed], '\x7b', '\x7d', opens, rfl, closes⟩
      have sees : brace.sees "\x7b" = true := sees_iff.mpr ⟨u, atBrace.ahead⟩
      have openModule : place.openModule? = .ok (some (⟨name.text, close.offset⟩, brace)) := by
        refine bind_ok_iff.mpr ⟨at', skipTrivia_ok_iff.mpr (trivia false), ?_⟩
        rw [atName.identifier? rfl]
        refine bind_ok_iff.mpr ⟨brace, skipTrivia_ok_iff.mpr (trivia' false), ?_⟩
        rw [if_pos sees, closing]
        rfl
      have starts : place.startsKeyword ["mod"] = true := by
        rw [stands.keyword.startsKeyword]
        rfl
      have entered := (leadsTo_openModule starts openModule).1.trans atBrace.leadsTo
      -- behind the brace the module is left
      have quiet : close.Quiet := .of_first closes (by decide) (by decide) rfl
      have past := Passes.char quiet closes (lexeme?_of_bracket closes (.inr rfl))
      have toPast : close.LeadsTo (close.advance 1) := leadsTo_advance (by
        rw [atClose, List.length_cons]
        omega)
      have module : Finds place (close.advance 1) fun module => inner.declarations (module ++ [name.text]) := by
        intro modules reaches
        have onward := (entered.trans toClose).trans toPast
        have here := Reaches.openAt (reaches.of_le onward.offset_le)
        obtain ⟨items, all, scan⟩ := found (⟨name.text, close.offset⟩ :: modules)
          fun m mem => by cases mem; exact Nat.le_refl _
        rw [List.reverse_cons, List.map_append] at all
        refine ⟨items, all.imp fun _ _ found => found.of_leadsTo entered, fun acc => ?_⟩
        have left : openAt (⟨name.text, close.offset⟩ :: modules) (close.advance 1).offset
            = openAt modules (close.advance 1).offset :=
          List.dropWhile_cons_of_pos (by simp [advance_offset])
        rw [walk_module starts openModule, here]
        show walk scanStep scanEnd ⟨acc, ⟨name.text, close.offset⟩ :: modules⟩ (brace.advance 1) = _
        rw [scan, past, ← walk_openAt _ _ (Nat.le_refl _), left, walk_openAt _ _ (Nat.le_refl _)]
      have behindBrace : (close.advance 1).ahead = behind := by
        rw [advance_ahead, atClose]
        rfl
      have freshPast : (close.advance 1).Fresh := .behind (u := []) atClose rfl
      rw [← behindBrace] at right
      obtain ⟨e, leads', ahead, fresh'', found'⟩ := ih' right freshPast
      have toClose' := (entered.trans toClose).trans toPast
      exact ⟨e, leads.trans (toClose'.trans leads'), ahead, fresh'',
        .of_passes_trans passes (module.trans found' toClose' leads') leads (toClose'.trans leads')⟩

theorem Cursor.Fresh.of_start (t : Text) : (t.cursor 0).Fresh :=
  fun _ _ _ => rfl

/-- **The scan finds the declarations of a written forest**, in order, each with the names of the
inline modules around it. -/
theorem Forest.items_of_writtenAs (f : Forest) {t : Text} (h : f.WrittenAs t) :
    ∃ items, t.items = .ok items
      ∧ List.Forall₂ (fun x item => x.2.FoundAs (t.cursor 0) x.1 item) (f.declarations []) items := by
  have printed : Printed [] f.leaves (t.cursor 0).ahead := h
  obtain ⟨e, _, ahead, _, found⟩ := f.found printed (.of_start t)
  obtain ⟨items, all, scan⟩ := found [] nofun
  refine ⟨items, ?_, all⟩
  show walk scanStep scanEnd ⟨[], []⟩ (t.cursor 0) = .ok items
  rw [scan, walk_end ahead, scanEnd, List.append_nil, List.reverse_reverse]

/-! ## §7. A written forest. -/

namespace Forest

open EnumSyntax.Sample

/-- `(u8);` behind the name of a struct. -/
def tupleBody : Body where
  leaves := [.symbol '(' isSymbol_openParen, .name byte, .symbol ')' isSymbol_closeParen, .symbol ';' isSymbol_semicolon]
  isBody := ⟨nofun, ⟨fun _ h => by cases h; rfl, .of_noName fun _ h => by cases h; rfl⟩,
    fun _ _ h => by cases h; rfl, nofun, trivial⟩
  ends := ⟨';', rfl, rfl, .inl rfl⟩
  closed := rfl

/-- Braces around a name. -/
def unionBody : Body where
  leaves := [.symbol '\x7b' isSymbol_openBrace, .name head, .symbol '\x7d' isSymbol_closeBrace]
  isBody := ⟨nofun, ⟨fun _ h => by cases h; rfl, .of_noName fun _ h => by cases h; rfl⟩, nofun, trivial⟩
  ends := ⟨'\x7d', rfl, rfl, .inr rfl⟩
  closed := rfl

def crateScope : Access :=
  .within "(crate)" EnumSyntax.Sample.isScope_crate

/-- A module with a struct and a module in another file, and an enum behind it. -/
def sample : Forest :=
  .inline ⟨[], .inherited⟩ shape
    (.declaration ⟨⟨[.doc doc, .bracketed (.ofSyntax EnumSyntax.Sample.hidden)], crateScope⟩, .struct, dot, tupleBody⟩
      (.outline ⟨[], .bare⟩ line .nil))
    (.declaration ⟨⟨[], .inherited⟩, .enum, hole, unionBody⟩ .nil)

def sampleText : Text :=
  "mod Shape \x7b\n /// Two ends.\n #[hidden] pub(crate) struct Dot(u8);\n pub mod Line;\n\x7d\nenum Hole \x7b h \x7d"

theorem sample_writtenAs : sample.WrittenAs sampleText := by
  have space := IsGap.space
  have feed := IsGap.feed
  have spells : Printed [] sample.leaves _ :=
    .cons IsGap.nil (.of_first _ (by decide)) (.cons space (.of_first _ (by decide))
    (.cons space (Leaf.apart_symbol _ (by decide) _)
    (.cons (feed.append space) trivial (.cons space (fun _ => ⟨_, rfl⟩)
    (.cons space (.of_first _ (by decide)) (.cons IsGap.nil trivial (.cons space (.of_first _ (by decide))
    (.cons space (.of_first _ (by decide)) (.cons IsGap.nil (Leaf.apart_symbol _ (by decide) _)
    (.cons IsGap.nil (.of_first _ (by decide)) (.cons IsGap.nil (Leaf.apart_symbol _ (by decide) _)
    (.cons IsGap.nil (Leaf.apart_symbol _ (by decide) _)
    (.cons (feed.append space) (.of_first _ (by decide)) (.cons space (.of_first _ (by decide))
    (.cons space (.of_first _ (by decide)) (.cons IsGap.nil (Leaf.apart_symbol _ (by decide) _)
    (.cons feed (Leaf.apart_symbol _ (by decide) _)
    (.cons feed (.of_first _ (by decide)) (.cons space (.of_first _ (by decide))
    (.cons space (Leaf.apart_symbol _ (by decide) _) (.cons space (.of_first _ (by decide))
    (.cons space (Leaf.apart_symbol _ (by decide) _)
    (.nil IsGap.nil)))))))))))))))))))))))
  obtain ⟨t, written, eq⟩ : ∃ t, sample.WrittenAs t ∧ t = sampleText := ⟨_, spells, by decide +kernel⟩
  rwa [eq] at written

/-- Both declarations are found. -/
theorem sample_items :
    sample.WrittenAs sampleText ∧ ∃ items, Text.items sampleText = .ok items
      ∧ List.Forall₂ (fun x item => x.2.FoundAs (Text.cursor sampleText 0) x.1 item)
        (sample.declarations []) items :=
  ⟨sample_writtenAs, sample.items_of_writtenAs sample_writtenAs⟩

/-- A struct whose visibility names the raw name of its module. -/
def rawScope : Text :=
  "mod r#type \x7b pub(in crate::r#type) struct S; \x7d"

/-- **A scope with a raw name is not read**, so the struct is found without its visibility. -/
theorem rawScope_lost :
    ∃ item, rawScope.items = .ok [item] ∧ item.name = "S" ∧ item.module = ["r#type"] ∧ item.visibility = []
      ∧ rawScope.take item.start = "mod r#type \x7b pub(in crate::r#type) " := by
  obtain ⟨items, h, one⟩ := exists_ok_of_decide (x := rawScope.items)
    (p := fun items => items.map (fun i : Item => (i.name, i.module, i.visibility, rawScope.take i.start))
      = [(("S" : Text), [("r#type" : Text)], [], ("mod r#type \x7b pub(in crate::r#type) " : Text))])
    (by decide +kernel)
  obtain ⟨item, rfl, same⟩ := List.map_eq_singleton_iff.mp one
  simp only [Prod.mk.injEq] at same
  exact ⟨item, h, same⟩

/-- A raw name that a word follows is taken for a struct of that name. -/
example : (Text.items "enum E \x7b A = r#struct as isize \x7d").map (·.map (·.name)) = .ok ["E", "as"] := by
  decide +kernel

end Forest

end EnumExtract
