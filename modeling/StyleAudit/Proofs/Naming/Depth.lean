import Mathlib.Data.List.Nodup
import StyleAudit.Naming
import StyleAudit.Proofs.ClassName.Row
import StyleAudit.Proofs.SourceFile.Declared

/-!
# Elements that stand too deep

The limit is on the number of elements in a class name, but an element inside a
declaration is reported by its level, which is counted rule by rule on the way
down to it.  The level never exceeds the number.  It falls short of it where a
rule adds more elements to the name than its place says, and from there on an
element with too many elements can go unreported.
-/

namespace StyleAudit

/-! ## The number of elements -/

namespace ClassName

/-- The number of elements in a class name. -/
def depth (name : Text) : Nat :=
  (Text.splitOnDouble '_' name).length - 1

/-- However a name is taken apart, it has the same number of elements. -/
theorem length_elements_parse (settings : Settings) (name : Text) :
    (parse settings name).elements.length = depth name := by
  rw [elements_parse, List.length_map, List.length_tail, depth]

theorem depth_append_le (name suffix : Text) :
    depth name + depth suffix ≤ depth (name ++ suffix) := by
  have whole := @Text.length_splitOnDouble_append '_' name suffix
  have first := List.length_pos_iff.mpr (@Text.splitOnDouble_ne_nil '_' name)
  have second := List.length_pos_iff.mpr (@Text.splitOnDouble_ne_nil '_' suffix)
  unfold depth
  omega

theorem depth_element_pos (part : Text) : 0 < depth ('_' :: '_' :: part) := by
  have more := List.length_pos_iff.mpr (@Text.splitOnDouble_ne_nil '_' part)
  rw [depth, Text.splitOnDouble, if_pos ⟨rfl, rfl⟩, List.length_cons]
  omega

end ClassName

/-! ## The names of inner rules -/

namespace Declaration

open SourceFile (Built nestingOf childName nodeContents blockContents)

/-- The declaration is a later block of the one around it, with the same name,
or a rule in its block that is named as its selector and its doc block say. -/
def NamedIn (outer : Text) (inner : Declaration) : Prop :=
  (inner.nesting = .reopened ∧ inner.name = outer) ∨
    (inner.nesting = nestingOf inner.signature ∧
      inner.name = childName outer inner.signature inner.doc)

/-- All that is inside the declarations is named in what is around it. -/
def AllNamed (declarations : List Declaration) : Prop :=
  ∀ outer ∈ walkList declarations,
    ∀ inner ∈ outer.children, inner.NamedIn outer.name

theorem allNamed_nil : AllNamed [] := by
  intro outer member
  rw [walkList] at member
  exact (List.not_mem_nil member).elim

theorem allNamed_append_iff {left right : List Declaration} :
    AllNamed (left ++ right) ↔ AllNamed left ∧ AllNamed right := by
  rw [AllNamed, walkList_append, List.forall_mem_append]
  rfl

theorem allNamed_cons_iff {declaration : Declaration}
    {rest : List Declaration} :
    AllNamed (declaration :: rest) ↔
      ((∀ inner ∈ declaration.children, inner.NamedIn declaration.name) ∧
        AllNamed declaration.children) ∧ AllNamed rest := by
  rw [AllNamed, walkList, walk_eq, List.forall_mem_append, List.forall_mem_cons]
  rfl

mutual

private theorem named_nodeContents (file name : Text) (kind : DeclarationKind) :
    ∀ node : Node,
      (∀ inner ∈ (nodeContents file name kind node).children,
        inner.NamedIn name) ∧
      AllNamed (nodeContents file name kind node).children
  | .rule selector comment children span => by
      have inside := named_blockContents file
        (childName name selector (SourceFile.readDoc file comment).1)
        (SourceFile.childKind kind (SourceFile.readDoc file comment).1) children
      rw [nodeContents]
      refine ⟨?_, allNamed_cons_iff.mpr ⟨inside, allNamed_nil⟩⟩
      intro inner member
      rw [List.mem_singleton.mp member]
      exact .inr ⟨rfl, rfl⟩
  | .including included arguments (some body) span => by
      rw [nodeContents]
      exact named_blockContents file name kind body
  | .including included arguments none span => by
      rw [nodeContents]
      exact ⟨List.forall_mem_nil _, allNamed_nil⟩
  | .atRule rule comment (some body) span => by
      rw [nodeContents]
      exact named_blockContents file name kind body
  | .atRule rule comment none span => by
      rw [nodeContents]
      exact ⟨List.forall_mem_nil _, allNamed_nil⟩
  | .importing loads targets span => by
      rw [nodeContents]
      exact ⟨List.forall_mem_nil _, allNamed_nil⟩

theorem named_blockContents (file name : Text) (kind : DeclarationKind) :
    ∀ nodes : List Node,
      (∀ inner ∈ (blockContents file name kind nodes).children,
        inner.NamedIn name) ∧
      AllNamed (blockContents file name kind nodes).children
  | [] => by
      rw [blockContents]
      exact ⟨List.forall_mem_nil _, allNamed_nil⟩
  | node :: rest => by
      obtain ⟨here, inHere⟩ := named_nodeContents file name kind node
      obtain ⟨later, inLater⟩ := named_blockContents file name kind rest
      rw [blockContents]
      exact ⟨List.forall_mem_append.mpr ⟨here, later⟩,
        allNamed_append_iff.mpr ⟨inHere, inLater⟩⟩

end

theorem allNamed_of_built {file : Text} {declarations : List Declaration}
    (built : Built file declarations) : AllNamed declarations := by
  induction built with
  | nil => exact allNamed_nil
  | @declare declarations declaration block _ _ children ih =>
      have inside :=
        named_blockContents file declaration.name declaration.kind block
      rw [← children] at inside
      exact allNamed_append_iff.mpr
        ⟨ih, allNamed_cons_iff.mpr ⟨inside, allNamed_nil⟩⟩
  | @reopen front back earlier part block _ reopened name children
      includes ih =>
      have inside := named_blockContents file earlier.name earlier.kind block
      rw [← children, ← name] at inside
      obtain ⟨inFront, others⟩ := allNamed_append_iff.mp ih
      obtain ⟨⟨own, inEarlier⟩, inBack⟩ := allNamed_cons_iff.mp others
      refine allNamed_append_iff.mpr
        ⟨inFront, allNamed_cons_iff.mpr ⟨⟨?_, ?_⟩, inBack⟩⟩
      · refine List.forall_mem_append.mpr ⟨own, ?_⟩
        intro inner member
        rw [List.mem_singleton.mp member]
        exact .inl ⟨reopened, name⟩
      · exact allNamed_append_iff.mpr
          ⟨inEarlier, allNamed_cons_iff.mpr ⟨inside, allNamed_nil⟩⟩

end Declaration

/-! ## Levels -/

namespace Naming

open Declaration (walkList AllNamed NamedIn)

/-- The declaration is inside others, from the innermost one out to `top`.
Neither it nor those in between are named by their doc blocks. -/
inductive Inside (top : Declaration) : Declaration → List Declaration → Prop
  | top : Inside top top []
  | step {inner outer : Declaration} {around : List Declaration}
      (inside : Inside top outer around) (member : inner ∈ outer.children)
      (unnamed : inner.doc.bind (·.name) = none) : Inside top inner
      (outer :: around)

/-- The level of a declaration inside others. -/
def level : Declaration → (around : List Declaration) → Nat
  | declaration, [] =>
    if declaration.isAtRule then 0 else ClassName.depth declaration.name
  | declaration, outer :: around =>
    levelOf declaration.nesting (level outer around)

/-- Each rule on the way down adds as many elements to the name as its place
says, back to the last one that begins a name of its own. -/
def Tallies : Declaration → (around : List Declaration) → Prop
  | declaration, [] =>
    declaration.isAtRule = true → ClassName.depth declaration.name = 0
  | declaration, outer :: around =>
    ClassName.depth declaration.name =
        levelOf declaration.nesting (ClassName.depth outer.name) ∧
      (declaration.nesting ≠ .nested → Tallies outer around)

instance decidableTallies : (declaration : Declaration) →
    (around : List Declaration) →
    Decidable (Tallies declaration around)
  | declaration, [] =>
    inferInstanceAs
      (Decidable
        (declaration.isAtRule = true → ClassName.depth declaration.name = 0))
  | declaration, outer :: around =>
    have := decidableTallies outer around
    inferInstanceAs (Decidable
      (ClassName.depth declaration.name =
          levelOf declaration.nesting (ClassName.depth outer.name) ∧
        (declaration.nesting ≠ .nested → Tallies outer around)))

/-- What a rule inside another adds to the name. -/
theorem depth_of_namedIn {outer : Text} {inner : Declaration}
    (named : inner.NamedIn outer) (unnamed : inner.doc.bind (·.name) = none) :
    (inner.nesting = .element ∧ ClassName.depth outer + 1 ≤
      ClassName.depth inner.name) ∨
      ((inner.nesting = .modifier ∨ inner.nesting = .reopened) ∧
        ClassName.depth outer ≤ ClassName.depth inner.name) ∨
      inner.nesting = .nested := by
  rcases named with ⟨reopened, name⟩ | ⟨nesting, name⟩
  · exact .inr
      (.inl ⟨.inr reopened, Nat.le_of_eq (congrArg ClassName.depth name.symm)⟩)
  · rw [SourceFile.childName, unnamed, Option.none_or] at name
    rw [SourceFile.nestingOf] at nesting
    cases suffix : Selector.suffix? inner.signature with
    | none =>
        rw [suffix] at nesting
        exact .inr (.inr nesting)
    | some added =>
        rw [suffix] at nesting name
        have whole := ClassName.depth_append_le outer added.text
        rw [Option.map_some, Option.some_or, Option.getD_some] at name
        rw [← name] at whole
        cases added with
        | element part =>
            have more := ClassName.depth_element_pos part
            rw [Selector.Suffix.text] at whole
            exact .inl ⟨nesting, by omega⟩
        | modifier part => exact .inr (.inl ⟨.inl nesting, by omega⟩)

/-- The level never exceeds the number of elements, and reaches it just if the
elements tally. -/
theorem level_le_depth {declarations : List Declaration}
    (named : AllNamed declarations) {top inner : Declaration}
    (member : top ∈ declarations) {around : List Declaration}
    (inside : Inside top inner around) :
    inner ∈ walkList declarations ∧ level inner around ≤
      ClassName.depth inner.name ∧
      (level inner around = ClassName.depth inner.name ↔
        Tallies inner around) := by
  induction inside with
  | top =>
      refine ⟨Declaration.mem_walkList member, ?_⟩
      rw [level, Tallies]
      cases top.isAtRule <;> simp [eq_comm]
  | @step inner outer around _ child unnamed ih =>
      obtain ⟨walked, atMost, exactly⟩ := ih
      refine ⟨Declaration.mem_walkList_of_child walked child, ?_⟩
      rw [level, Tallies]
      rcases depth_of_namedIn (named outer walked inner child) unnamed with
        ⟨nesting, least⟩ | ⟨nesting | nesting, least⟩ | nesting
      · simp only [nesting, levelOf, ne_eq, reduceCtorEq, not_false_eq_true,
          true_implies, ← exactly]
        omega
      · simp only [nesting, levelOf, ne_eq, reduceCtorEq, not_false_eq_true,
          true_implies, ← exactly]
        omega
      · simp only [nesting, levelOf, ne_eq, reduceCtorEq, not_false_eq_true,
          true_implies, ← exactly]
        omega
      · simp only [nesting, levelOf, ne_eq, not_true_eq_false,
          false_implies, and_true]
        omega

/-! ## What is reported -/

mutual

/-- The declaration and all inside it, each with its level, if its surroundings
have a level. -/
def levels (outer : Nat) : Declaration → List (Declaration × Nat)
  | ⟨kind, name, signature, location, doc, children, nesting, includes⟩ =>
    (⟨kind, name, signature, location, doc, children, nesting, includes⟩,
      levelOf nesting outer) ::
      levelsList (levelOf nesting outer) children

/-- The declarations and all inside them, each with its level, if their
surroundings have a level. -/
def levelsList (outer : Nat) : List Declaration → List (Declaration × Nat)
  | [] => []
  | declaration :: rest => levels outer declaration ++ levelsList outer rest

end

theorem levels_eq (outer : Nat) (declaration : Declaration) :
    levels outer declaration =
      (declaration, levelOf declaration.nesting outer) ::
      levelsList (levelOf declaration.nesting outer) declaration.children := by
  cases declaration
  rw [levels]

theorem map_fst_levelsList (outer : Nat) (declarations : List Declaration) :
    (levelsList outer declarations).map Prod.fst = walkList declarations := by
  induction declarations
    using Declaration.forest_induction generalizing outer with
  | nil => rw [levelsList, walkList, List.map_nil]
  | cons declaration rest ihInside ihRest =>
      rw [levelsList, levels_eq, walkList, Declaration.walk_eq, List.map_append,
        List.map_cons, ihInside, ihRest]

theorem mem_levelsList {outer : Nat} {declarations : List Declaration}
    {declaration : Declaration} (member : declaration ∈ declarations) :
    (declaration, levelOf declaration.nesting outer) ∈
      levelsList outer declarations := by
  induction declarations with
  | nil => exact (List.not_mem_nil member).elim
  | cons first rest ih =>
      rw [levelsList, levels_eq]
      rcases List.mem_cons.mp member with rfl | later
      · exact List.mem_append_left _ List.mem_cons_self
      · exact List.mem_append_right _ (ih later)

private theorem mem_levelsList_of_child {outer own : Nat}
    {declarations : List Declaration} {declaration inner : Declaration}
    (member : (declaration, own) ∈ levelsList outer declarations)
    (child : inner ∈ declaration.children) :
    (inner, levelOf inner.nesting own) ∈ levelsList outer declarations := by
  induction declarations
    using Declaration.forest_induction generalizing outer with
  | nil =>
      rw [levelsList] at member
      exact (List.not_mem_nil member).elim
  | cons first rest ihInside ihRest =>
      rw [levelsList, levels_eq] at member ⊢
      rcases List.mem_append.mp member with inFirst | inRest
      · apply List.mem_append_left
        rcases List.mem_cons.mp inFirst with same | deeper
        · obtain ⟨rfl, rfl⟩ := Prod.mk.inj same
          exact List.mem_cons_of_mem _ (mem_levelsList child)
        · exact List.mem_cons_of_mem _ (ihInside deeper)
      · exact List.mem_append_right _ (ihRest inRest)

theorem Inside.mem_levelsList {top inner outer : Declaration}
    {around : List Declaration} (inside : Inside top inner (outer :: around)) :
    (inner, level inner (outer :: around)) ∈
      levelsList (level top []) top.children := by
  generalize whole : outer :: around = surroundings at inside
  induction inside generalizing outer around with
  | top => cases whole
  | @step inner middle others deeper child _ ih =>
      rw [level]
      cases deeper with
      | top => exact Naming.mem_levelsList child
      | step _ _ _ => exact mem_levelsList_of_child (ih rfl) child

/-- What is reported about a declaration that has a level. -/
def levelFindings (settings : Settings) (place : Declaration × Nat) :
    List Diagnostic :=
  (levelViolation? settings place.1.name place.1.nesting place.2).toList.map
    (·.toDiagnostic place.1.location)

theorem levelDiagnosticsList_eq (settings : Settings) (outer : Nat)
    (declarations : List Declaration) :
    levelDiagnosticsList settings outer declarations =
      (levelsList outer declarations).flatMap (levelFindings settings) := by
  induction declarations
    using Declaration.forest_induction generalizing outer with
  | nil => rw [levelDiagnosticsList, levelsList, List.flatMap_nil]
  | cons declaration rest ihInside ihRest =>
      have here : levelDiagnostics settings outer declaration =
          levelFindings settings
            (declaration, levelOf declaration.nesting outer) ++
            levelDiagnosticsList settings (levelOf declaration.nesting outer)
              declaration.children := by
        cases declaration
        rw [levelDiagnostics]
        rfl
      rw [levelDiagnosticsList, here, levelsList, levels_eq,
        List.flatMap_append, List.flatMap_cons, ihInside, ihRest]

/-- The declaration is reported to have too many elements, where `top` is
checked. -/
def ReportsDepth (settings : Settings) (top declaration : Declaration) : Prop :=
  ∃ diagnostic ∈ check settings top,
    diagnostic.code = .elementDepth ∧ diagnostic.location = declaration.location

theorem exists_levelViolation?_iff {settings : Settings} {name : Text}
    {own : Nat} :
    (∃ violation, levelViolation? settings name .element own = some violation ∧
      violation.code = .elementDepth) ↔ settings.maxElementDepth < own := by
  rw [levelViolation?]
  simp only [true_and]
  split
  · rename_i exceeded
    refine iff_of_true ?_ exceeded
    split <;> exact ⟨_, rfl, rfl⟩
  · rename_i within
    exact iff_of_false (by simp) within

theorem baseLevel_eq (settings : Settings) (top : Declaration) :
    baseLevel settings top = level top [] := by
  rw [baseLevel, level, ClassName.length_elements_parse]

private theorem exists_part_of_mem_reopenedDiagnostics {settings : Settings}
    {top : Declaration} {diagnostic : Diagnostic}
    (member : diagnostic ∈ reopenedDiagnostics settings top) :
    ∃ part ∈ top.children, part.nesting = .reopened ∧ diagnostic.location =
      part.location := by
  rw [reopenedDiagnostics] at member
  split at member
  · exact (List.not_mem_nil member).elim
  · obtain ⟨part, isPart, reported⟩ := List.mem_flatMap.mp member
    obtain ⟨isChild, reopened⟩ := List.mem_filter.mp isPart
    obtain ⟨violation, -, rfl⟩ := List.mem_map.mp reported
    exact ⟨part, isChild, of_decide_eq_true reopened, rfl⟩

/-- An element is reported just if its level exceeds the limit. -/
theorem reportsDepth_iff {settings : Settings} {top inner outer : Declaration}
    {around : List Declaration} (distinct : (top.walk.map (·.location)).Nodup)
    (inside : Inside top inner (outer :: around))
    (element : inner.nesting = .element) :
    ReportsDepth settings top inner ↔
      settings.maxElementDepth < level inner (outer :: around) := by
  have place := inside.mem_levelsList
  rw [Declaration.walk_eq] at distinct
  obtain ⟨notTop, below⟩ := List.nodup_cons.mp distinct
  have walked : inner ∈ walkList top.children := by
    rw [← map_fst_levelsList (level top [])]
    exact List.mem_map_of_mem place
  rw [← exists_levelViolation?_iff, ← element]
  constructor
  · rintro ⟨diagnostic, member, code, location⟩
    rw [check, baseLevel_eq, levelDiagnosticsList_eq] at member
    rcases List.mem_append.mp member with elsewhere | byLevel
    · rcases List.mem_append.mp elsewhere with own | later
      · obtain ⟨violation, -, rfl⟩ := List.mem_map.mp own
        exact (notTop (List.mem_map.mpr ⟨inner, walked, location.symm⟩)).elim
      · obtain ⟨part, isChild, reopened, same⟩ :=
          exists_part_of_mem_reopenedDiagnostics later
        have isInner := List.inj_on_of_nodup_map below
          (Declaration.mem_walkList isChild) walked (same.symm.trans location)
        rw [isInner, element] at reopened
        cases reopened
    · obtain ⟨found, isPlace, reported⟩ := List.mem_flatMap.mp byLevel
      obtain ⟨violation, isViolation, rfl⟩ := List.mem_map.mp reported
      rw [← map_fst_levelsList (level top []), List.map_map] at below
      have same := List.inj_on_of_nodup_map below isPlace place location
      rw [same] at isViolation
      exact ⟨violation, Option.mem_toList.mp isViolation, code⟩
  · rintro ⟨violation, isViolation, code⟩
    refine ⟨violation.toDiagnostic inner.location, ?_, code, rfl⟩
    rw [check, baseLevel_eq, levelDiagnosticsList_eq]
    apply List.mem_append_right
    refine List.mem_flatMap.mpr ⟨_, place, ?_⟩
    rw [levelFindings, isViolation]
    exact List.mem_singleton_self _

private theorem nodup_walk_of_mem {declarations : List Declaration}
    (distinct : ((walkList declarations).map (·.location)).Nodup)
    {top : Declaration} (member : top ∈ declarations) :
    (top.walk.map (·.location)).Nodup := by
  obtain ⟨front, back, rfl⟩ := List.append_of_mem member
  rw [Declaration.walkList_append, walkList] at distinct
  apply List.Nodup.sublist _ distinct
  exact ((List.sublist_append_left _ _).trans
    (List.sublist_append_right _ _)).map _

/-- An element inside a declaration at the top of a file, in rules that no doc
block names, is reported whenever its name has more elements than allowed, under
all settings, just if every rule on the way down to it adds as many elements as
its place says. -/
theorem reportsDepth_of_exceeded_iff {id text : Text}
    {reading : SourceFile.Reading}
    (done : SourceFile.read id text = .ok reading)
    {top inner outer : Declaration} {around : List Declaration}
    (member : top ∈ reading.file.declarations)
    (inside : Inside top inner (outer :: around))
    (element : inner.nesting = .element) :
    (∀ settings : Settings,
        settings.maxElementDepth <
          (ClassName.parse settings inner.name).elements.length →
          ReportsDepth settings top inner) ↔
      Tallies inner (outer :: around) := by
  have named := Declaration.allNamed_of_built (SourceFile.built_of_read done)
  have distinct := nodup_walk_of_mem (SourceFile.nodup_locations done) member
  obtain ⟨-, atMost, exactly⟩ := level_le_depth named member inside
  rw [← exactly]
  constructor
  · intro reported
    by_contra short
    have exceeded : level inner (outer :: around) <
        ClassName.depth inner.name := by omega
    let settings : Settings :=
      { maxElementDepth := level inner (outer :: around) }
    have missed :=
      (reportsDepth_iff distinct inside element).mp (reported settings (by
      rw [ClassName.length_elements_parse]
      exact exceeded))
    exact Nat.lt_irrefl _ missed
  · intro same settings exceeded
    apply (reportsDepth_iff distinct inside element).mpr
    rwa [same, ← ClassName.length_elements_parse settings]

/-- An element inside a modifier of an element. -/
theorem reportsDepth_of_exceeded_tallied :
    let file := "a.scss".toList
    let source := ".c-a__b \x7b &--m \x7b &__c \x7b\x7d \x7d \x7d".toList
    let inner : Declaration :=
      ⟨.component, "c-a__b--m__c".toList, "&__c".toList,
        ⟨file, ⟨⟨17, 1, 18⟩, ⟨24, 1, 25⟩⟩⟩, none, [], .element, []⟩
    let outer : Declaration := ⟨.component, "c-a__b--m".toList, "&--m".toList,
      ⟨file, ⟨⟨10, 1, 11⟩, ⟨26, 1, 27⟩⟩⟩, none, [inner], .modifier, []⟩
    let top : Declaration := ⟨.component, "c-a__b".toList, ".c-a__b".toList,
      ⟨file, ⟨⟨0, 1, 1⟩, ⟨28, 1, 29⟩⟩⟩, none, [outer], .root, []⟩
    SourceFile.read file source = .ok ⟨⟨file, source, [top], [], []⟩, []⟩ ∧
      Inside top inner [outer, top] ∧ inner.nesting = .element ∧
        ReportsDepth {} top inner := by
  intro file source inner outer top
  have done : SourceFile.read file source =
      .ok ⟨⟨file, source, [top], [], []⟩, []⟩ := by
    decide +kernel
  have inside : Inside top inner [outer, top] :=
    .step (.step .top List.mem_cons_self rfl) List.mem_cons_self rfl
  have tallies : Tallies inner [outer, top] := by decide
  have reported :=
    (reportsDepth_of_exceeded_iff done List.mem_cons_self inside rfl).mpr
      tallies
  exact ⟨done, inside, rfl, reported {} (by decide)⟩

/-- A single rule that adds two elements. -/
theorem not_reportsDepth_double :
    let file := "a.scss".toList
    let source := ".c-a \x7b &__b__c \x7b\x7d \x7d".toList
    let inner : Declaration :=
      ⟨.component, "c-a__b__c".toList, "&__b__c".toList,
        ⟨file, ⟨⟨7, 1, 8⟩, ⟨17, 1, 18⟩⟩⟩, none, [], .element, []⟩
    let top : Declaration := ⟨.component, "c-a".toList, ".c-a".toList,
      ⟨file, ⟨⟨0, 1, 1⟩, ⟨19, 1, 20⟩⟩⟩, none, [inner], .root, []⟩
    SourceFile.read file source = .ok ⟨⟨file, source, [top], [], []⟩, []⟩ ∧
      Inside top inner [top] ∧ inner.nesting = .element ∧
      ({} : Settings).maxElementDepth <
        (ClassName.parse {} inner.name).elements.length ∧
      check {} top = [] ∧ ¬ ReportsDepth {} top inner := by
  intro file source inner top
  have silent : check {} top = [] := by decide +kernel
  refine ⟨by decide +kernel, .step .top List.mem_cons_self rfl,
    rfl, by decide, silent, ?_⟩
  rintro ⟨diagnostic, member, -⟩
  rw [silent] at member
  exact List.not_mem_nil member

end Naming

end StyleAudit
