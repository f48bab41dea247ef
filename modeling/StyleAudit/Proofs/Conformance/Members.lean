import Mathlib.Data.List.Basic
import StyleAudit.Conformance.Check
import StyleAudit.Proofs.Conformance.Contract

/-!
# What an implementer must have

The check of an implementer looks up the names of the contract and of the
modifiers, and nothing else: what an implementer has beyond them does not
matter, however it is ordered, and each member that it lacks is reported once.
An interface, whatever members it repeats, lacks nothing of its own.
-/

namespace StyleAudit

/-! ## Extra items -/

/-- The second list is the first one with extra items put in anywhere. -/
inductive Inserted {α : Type} (Extra : α → Prop) : List α → List α → Prop where
  | nil : Inserted Extra [] []
  | keep {item : α} {old new : List α} : Inserted Extra old new →
      Inserted Extra (item :: old) (item :: new)
  | insert {item : α} {old new : List α} : Extra item → Inserted Extra old new →
      Inserted Extra old (item :: new)

namespace Inserted

variable {α : Type} {Extra : α → Prop} {old new : List α}

theorem refl (items : List α) : Inserted Extra items items := by
  induction items with
  | nil => exact .nil
  | cons item items ih => exact .keep ih

theorem find?_eq (inserted : Inserted Extra old new) {p : α → Bool}
    (ignored : ∀ item, Extra item → p item = false) :
    new.find? p = old.find? p := by
  induction inserted with
  | nil => rfl
  | keep _ ih => rw [List.find?_cons, List.find?_cons, ih]
  | insert extra _ ih => rw [List.find?_cons, ignored _ extra, ih]

theorem mem_map_iff {β : Type} (inserted : Inserted Extra old new) {key : α → β}
    {sought : β} (ignored : ∀ item, Extra item → key item ≠ sought) :
    sought ∈ new.map key ↔ sought ∈ old.map key := by
  induction inserted with
  | nil => rfl
  | keep _ ih =>
      rw [List.map_cons, List.map_cons, List.mem_cons, List.mem_cons, ih]
  | insert extra _ ih =>
      rw [List.map_cons, List.mem_cons, ih, or_iff_right (ignored _ extra).symm]

end Inserted

/-! ## Modifiers -/

namespace Declaration

/-- The modifiers of a declaration are those that its doc block names and those
that its rules add. -/
theorem mem_modifierNames_iff {declaration : Declaration} {name : Text} :
    name ∈ declaration.modifierNames ↔
      (∃ doc ∈ declaration.doc, name ∈ doc.modifiers.map (·.name)) ∨
        name ∈ declaration.blockChildren.filterMap ownModifier? := by
  have step : (fun (names : List Text) name =>
      if names.contains name then names else names ++ [name]) =
        addByKey id := by
    funext names name
    simp [addByKey]
  have kept := @mem_map_foldl_addByKey_iff _ _ _ id _ name
    (declaration.blockChildren.filterMap ownModifier?)
    ((declaration.doc.map (·.modifiers.map (·.name))).getD [])
  rw [List.map_id, List.map_id, List.mem_append] at kept
  rw [modifierNames, step, kept]
  cases declaration.doc with
  | none => simp
  | some doc => simp

end Declaration

namespace Conformance

/-! ## Single findings -/

/-- What is said about a member that the implementer lacks. -/
def missingMember (declaration interface : Declaration) (name : Text)
    (member : Contract.Member) : Diagnostic :=
  { severity := if member.required then .error else .warning,
    code := .interfaceConformance,
    message := s!"missing member: {member.name.shown} " ++
      s!"(`{declaration.name.shown}` implements `{name.shown}`)",
    location := declaration.location,
    related := [interfaceNote interface name] }

/-- What is said about a modifier that the implementer lacks. -/
def missingModifier (declaration interface : Declaration)
    (name modifier : Text) : Diagnostic :=
  { severity := .error, code := .interfaceConformance,
    message := s!"missing modifier: {modifier.shown} " ++
      s!"(`{declaration.name.shown}` implements `{name.shown}`)",
    location := declaration.location,
    related := [interfaceNote interface name] }

section Findings

variable {settings : Settings} {declaration interface : Declaration}
  {doc other : Doc.Block} {name : Text} {member : Contract.Member}
  {modifier : Doc.Modifier}

theorem memberDiagnostic?_of_lacking
    (lacking : doc.hasMember member.name = false) :
    memberDiagnostic? settings declaration doc interface name member =
      some (missingMember declaration interface name member) := by
  rw [memberDiagnostic?, if_pos (by rw [lacking]; rfl)]
  rfl

/-- All that is looked at is the member of the name. -/
theorem memberDiagnostic?_congr
    (same : other.member? member.name = doc.member? member.name) :
    memberDiagnostic? settings { declaration with doc := some other } other
      interface name member =
      memberDiagnostic? settings declaration doc interface name member := by
  rw [memberDiagnostic?, memberDiagnostic?, ← Doc.Block.isSome_member?,
    ← Doc.Block.type_member?, ← Doc.Block.isSome_member?,
    ← Doc.Block.type_member?, same]

theorem memberDiagnostic?_eq_none_iff :
    memberDiagnostic? settings declaration doc interface name member = none ↔
      doc.hasMember member.name = true ∧
        ∀ expected ∈ member.type, ∀ actual ∈ doc.memberType? member.name,
          actual = expected := by
  cases present : doc.hasMember member.name with
  | false => simp [memberDiagnostic?_of_lacking present]
  | true =>
      rw [memberDiagnostic?, if_neg (by simp [present])]
      cases member.type with
      | none => simp
      | some expected =>
          cases doc.memberType? member.name with
          | none => simp
          | some actual => simp [eq_comm]

section Property

variable {property : Doc.Property}

theorem memberDiagnostic?_append_of_ne (apart : member.name ≠ property.name) :
    memberDiagnostic? settings
        { declaration with
          doc := some { doc with properties := doc.properties ++ [property] } }
        { doc with properties := doc.properties ++ [property] } interface
        name member =
      memberDiagnostic? settings declaration doc interface name member := by
  apply memberDiagnostic?_congr
  rw [Doc.Block.member?_append_property, if_neg (by simpa using apart.symm),
    Option.or_none]

theorem memberDiagnostic?_append_self
    (lacking : doc.hasMember member.name = false)
    (named : property.name = member.name)
    (typed : property.type = none ∨ property.type = member.type) :
    memberDiagnostic? settings declaration
      { doc with properties := doc.properties ++ [property] } interface name
      member = none := by
  have absent : doc.member? member.name = none := by
    rw [← Doc.Block.isSome_member?] at lacking
    exact Option.not_isSome_iff_eq_none.mp (by simp [lacking])
  rw [memberDiagnostic?_eq_none_iff, ← Doc.Block.isSome_member?,
    ← Doc.Block.type_member?, Doc.Block.member?_append_property, absent,
    Option.none_or, if_pos (beq_iff_eq.mpr named)]
  refine ⟨rfl, ?_⟩
  intro expected isExpected actual isActual
  change property.type = some actual at isActual
  rcases typed with untyped | same
  · rw [untyped] at isActual
    cases isActual
  · rw [same, isExpected] at isActual
    exact (Option.some.inj isActual).symm

end Property

/-- What is said about a lacking member tells its name. -/
theorem name_eq_of_memberDiagnostic? {lacked : Contract.Member}
    (reported : memberDiagnostic? settings declaration doc interface
      name member =
      some (missingMember declaration interface name lacked)) :
    member.name = lacked.name := by
  cases present : doc.hasMember member.name with
  | false =>
      rw [memberDiagnostic?_of_lacking present] at reported
      have messages := congrArg (fun diagnostic => diagnostic.message.toList)
        (Option.some.inj reported)
      simpa [missingMember, Text.shown, toString] using messages
  | true =>
      rw [memberDiagnostic?, if_neg (by simp [present])] at reported
      split at reported
      · split at reported
        · cases reported
        · have codes := congrArg Diagnostic.code (Option.some.inj reported)
          cases codes
      · cases reported

theorem modifierDiagnostic?_ne_missingMember :
    modifierDiagnostic? declaration interface name modifier ≠
      some (missingMember declaration interface name member) := by
  intro reported
  rw [modifierDiagnostic?] at reported
  split at reported
  · cases reported
  · have messages := congrArg (fun diagnostic => diagnostic.message.toList)
      (Option.some.inj reported)
    simp [missingMember, toString] at messages

theorem memberDiagnostic?_ne_missingModifier {lacked : Text} :
    memberDiagnostic? settings declaration doc interface name member ≠
      some (missingModifier declaration interface name lacked) := by
  intro reported
  rw [memberDiagnostic?] at reported
  split at reported
  · have messages := congrArg (fun diagnostic => diagnostic.message.toList)
      (Option.some.inj reported)
    simp [missingModifier, toString] at messages
  · split at reported
    · split at reported
      · cases reported
      · have codes := congrArg Diagnostic.code (Option.some.inj reported)
        cases codes
    · cases reported

theorem modifierDiagnostic?_congr {other : Option Doc.Block}
    (same : modifier.name ∈ { declaration with doc := other }.modifierNames ↔
      modifier.name ∈ declaration.modifierNames) :
    modifierDiagnostic? { declaration with doc := other } interface
      name modifier =
      modifierDiagnostic? declaration interface name modifier := by
  rw [← List.contains_iff_mem, ← List.contains_iff_mem, ← Bool.eq_iff_iff]
    at same
  rw [modifierDiagnostic?, modifierDiagnostic?, same]

theorem modifierDiagnostic?_eq_none_iff :
    modifierDiagnostic? declaration interface name modifier = none ↔
      modifier.name ∈ declaration.modifierNames := by
  rw [modifierDiagnostic?]
  split <;> simp_all

private theorem modifierDiagnostic?_of_lacking
    (lacking : modifier.name ∉ declaration.modifierNames) :
    modifierDiagnostic? declaration interface name modifier =
      some (missingModifier declaration interface name modifier.name) := by
  rw [modifierDiagnostic?, if_neg (by rwa [List.contains_iff_mem])]
  rfl

/-- A modifier that the implementer has is not reported as lacking. -/
theorem modifierDiagnostic?_ne_missingModifier {present : Text}
    (isPresent : present ∈ declaration.modifierNames) :
    modifierDiagnostic? declaration interface name modifier ≠
      some (missingModifier declaration interface name present) := by
  intro reported
  by_cases lacking : modifier.name ∈ declaration.modifierNames
  · rw [modifierDiagnostic?_eq_none_iff.mpr lacking] at reported
    cases reported
  · rw [modifierDiagnostic?_of_lacking lacking] at reported
    have messages := congrArg (fun diagnostic => diagnostic.message.toList)
      (Option.some.inj reported)
    have same : modifier.name = present := by
      simpa [missingModifier, Text.shown, toString] using messages
    exact lacking (same ▸ isPresent)

end Findings

/-! ## The whole check -/

/-- The declaration claims to implement an interface that the registry knows and
that has a doc block. -/
structure Implements (registry : Registry) (declaration : Declaration)
    (doc : Doc.Block) (name : Text) (interface : Declaration)
    (interfaceDoc : Doc.Block) : Prop where
  documented : declaration.doc = some doc
  claimed : doc.implements = some name
  found : registry.lookup? name = some interface
  isInterface : interface.isInterface = true
  described : interface.doc = some interfaceDoc

namespace Implements

variable {settings : Settings} {registry : Registry}
  {declaration interface : Declaration} {doc interfaceDoc : Doc.Block}
  {name : Text}

theorem check_eq
    (implements : Implements registry declaration doc name interface
      interfaceDoc) :
    check settings registry declaration =
      compare settings declaration doc interface interfaceDoc name := by
  simp [check, implements.documented, implements.claimed, implements.found,
    implements.isInterface, implements.described]

/-- The check of the declaration with other members and modifiers in its doc
block. -/
theorem check_redocumented
    (implements : Implements registry declaration doc name interface
      interfaceDoc)
    (parameters : List Doc.Parameter) (properties : List Doc.Property)
    (modifiers : List Doc.Modifier) :
    let other := { doc with parameters, properties, modifiers }
    check settings registry { declaration with doc := some other } =
      compare settings { declaration with doc := some other } other interface
        interfaceDoc name :=
  check_eq ⟨rfl, implements.claimed, implements.found, implements.isInterface,
    implements.described⟩

theorem mem_modifierNames_iff
    (implements : Implements registry declaration doc name interface
      interfaceDoc)
    {modifier : Text} :
    modifier ∈ declaration.modifierNames ↔
      modifier ∈ doc.modifiers.map (·.name) ∨
        modifier ∈
          declaration.blockChildren.filterMap Declaration.ownModifier? := by
  rw [Declaration.mem_modifierNames_iff, implements.documented]
  simp

theorem check_inserted
    (implements : Implements registry declaration doc name interface
      interfaceDoc)
    {parameters : List Doc.Parameter} {properties : List Doc.Property}
    {modifiers : List Doc.Modifier}
    (moreParameters : Inserted
      (·.name ∉ (Contract.ofBlock interfaceDoc).map (·.name))
      doc.parameters parameters)
    (moreProperties : Inserted
      (·.name ∉ (Contract.ofBlock interfaceDoc).map (·.name))
      doc.properties properties)
    (moreModifiers : Inserted (·.name ∉ interfaceDoc.modifiers.map (·.name))
      doc.modifiers modifiers) :
    check settings registry
        { declaration with
          doc := some { doc with parameters, properties, modifiers } } =
      check settings registry declaration := by
  rw [implements.check_eq, implements.check_redocumented, compare, compare]
  congr 1
  · apply List.filterMap_congr
    intro member inContract
    have named : member.name ∈ (Contract.ofBlock interfaceDoc).map (·.name) :=
      List.mem_map_of_mem inContract
    apply memberDiagnostic?_congr
    rw [Doc.Block.member?_eq, Doc.Block.member?_eq, moreParameters.find?_eq,
      moreProperties.find?_eq]
    · intro property extra
      exact beq_false_of_ne fun same => extra (same ▸ named)
    · intro parameter extra
      exact beq_false_of_ne fun same => extra (same ▸ named)
  · apply List.filterMap_congr
    intro modifier inInterface
    apply modifierDiagnostic?_congr
    rw [Declaration.mem_modifierNames_iff, implements.mem_modifierNames_iff]
    refine or_congr ?_ Iff.rfl
    rw [← moreModifiers.mem_map_iff]
    · simp
    · intro extra isExtra same
      exact isExtra (same ▸ List.mem_map_of_mem inInterface)

/-- A member that is lacking is reported once, and putting it behind the
properties takes this report away and no other. -/
theorem exists_check_eq_append
    (implements : Implements registry declaration doc name interface
      interfaceDoc)
    {member : Contract.Member}
    (inContract : member ∈ Contract.ofBlock interfaceDoc)
    (lacking : doc.hasMember member.name = false) {property : Doc.Property}
    (named : property.name = member.name)
    (typed : property.type = none ∨ property.type = member.type) :
    ∃ front back,
      check settings registry declaration =
          front ++ missingMember declaration interface name member :: back ∧
        missingMember declaration interface name member ∉ front ++ back ∧
        check settings registry
            { declaration with
              doc :=
                some { doc with properties := doc.properties ++ [property] } } =
          front ++ back := by
  obtain ⟨left, right, split, distinct⟩ :=
    Contract.exists_ofBlock_eq_append inContract
  have kept (others : List Contract.Member)
      (apart : ∀ other ∈ others, other.name ≠ member.name) :
      others.filterMap (memberDiagnostic? settings
          { declaration with
            doc :=
              some { doc with properties := doc.properties ++ [property] } }
          { doc with properties := doc.properties ++ [property] }
          interface name) =
        others.filterMap
          (memberDiagnostic? settings declaration doc interface name) := by
    apply List.filterMap_congr
    intro other isOther
    exact memberDiagnostic?_append_of_ne (named ▸ apart other isOther)
  have sameModifiers : { declaration with
      doc :=
        some
          { doc with
            properties := doc.properties ++ [property] } }.modifierNames =
        declaration.modifierNames := by
    rw [Declaration.modifierNames, Declaration.modifierNames,
      implements.documented]
    rfl
  refine ⟨left.filterMap
    (memberDiagnostic? settings declaration doc interface name), right.filterMap
      (memberDiagnostic? settings declaration doc interface name) ++
      interfaceDoc.modifiers.filterMap
        (modifierDiagnostic? declaration interface name),
    ?_, ?_, ?_⟩
  · rw [implements.check_eq, compare, split, List.filterMap_append,
      List.append_assoc, List.filterMap_cons_some
        (memberDiagnostic?_of_lacking lacking), List.cons_append]
  · simp only [List.mem_append, List.mem_filterMap]
    rintro (⟨other, inLeft, reported⟩ | ⟨other, inRight,
      reported⟩ | ⟨modifier, -, reported⟩)
    · exact distinct other (.inl inLeft) (name_eq_of_memberDiagnostic? reported)
    · exact distinct other (.inr inRight)
        (name_eq_of_memberDiagnostic? reported)
    · exact modifierDiagnostic?_ne_missingMember reported
  · rw [implements.check_redocumented, compare, split, List.filterMap_append,
      List.append_assoc, List.filterMap_cons_none
        (memberDiagnostic?_append_self lacking named typed),
      kept left fun other inLeft => distinct other (.inl inLeft),
      kept right fun other inRight => distinct other (.inr inRight)]
    congr 2
    apply List.filterMap_congr
    intro modifier _
    exact modifierDiagnostic?_congr (by rw [sameModifiers])

theorem check_eq_nil_iff
    (implements : Implements registry declaration doc name interface
      interfaceDoc) :
    check settings registry declaration = [] ↔
      (∀ member ∈ Contract.ofBlock interfaceDoc,
        doc.hasMember member.name = true ∧
        ∀ expected ∈ member.type, ∀ actual ∈ doc.memberType? member.name,
          actual = expected) ∧
      ∀ modifier ∈ interfaceDoc.modifiers,
        modifier.name ∈ declaration.modifierNames := by
  rw [implements.check_eq, compare, List.append_eq_nil_iff,
    List.filterMap_eq_nil_iff, List.filterMap_eq_nil_iff]
  simp only [memberDiagnostic?_eq_none_iff, modifierDiagnostic?_eq_none_iff]

/-- A modifier that the implementer has is not reported. -/
theorem missingModifier_not_mem_check
    (implements : Implements registry declaration doc name interface
      interfaceDoc)
    {modifier : Text} (present : modifier ∈ declaration.modifierNames) :
    missingModifier declaration interface name modifier ∉
      check settings registry declaration := by
  rw [implements.check_eq, compare, List.mem_append, List.mem_filterMap,
    List.mem_filterMap]
  rintro (⟨member, -, reported⟩ | ⟨other, -, reported⟩)
  · exact memberDiagnostic?_ne_missingModifier reported
  · exact modifierDiagnostic?_ne_missingModifier present reported

/-- An implementer with the members and the modifiers of its interface lacks
nothing. -/
theorem check_eq_nil_of_same
    (implements : Implements registry declaration doc name interface
      interfaceDoc)
    (parameters : doc.parameters = interfaceDoc.parameters)
    (properties : doc.properties = interfaceDoc.properties)
    (modifiers : doc.modifiers = interfaceDoc.modifiers) :
    check settings registry declaration = [] := by
  have present (sought : Text) : doc.hasMember sought =
      interfaceDoc.hasMember sought := by
    rw [Doc.Block.hasMember, Doc.Block.hasMember, parameters, properties]
  have typed (sought : Text) : doc.memberType? sought =
      interfaceDoc.memberType? sought := by
    rw [Doc.Block.memberType?, Doc.Block.memberType?, parameters, properties]
  refine implements.check_eq_nil_iff.mpr ⟨?_, ?_⟩
  · intro member inContract
    refine ⟨?_, ?_⟩
    · rw [present]
      exact Contract.mem_names_ofBlock_iff.mp (List.mem_map_of_mem inContract)
    · intro expected isExpected actual isActual
      rw [typed, Contract.memberType?_of_mem_ofBlock inContract] at isActual
      exact Option.mem_unique isActual isExpected
  · intro modifier inInterface
    rw [implements.mem_modifierNames_iff, modifiers]
    exact .inl (List.mem_map_of_mem inInterface)

end Implements

/-- Let a declaration implement an interface with a doc block.  Parameters and
properties whose names are not in the contract, and modifiers that the interface
does not have, change nothing, wherever they are put.  A member that is lacking
is reported once; with a property of its name behind the others, of its type or
of none, just this report is gone.  And nothing is reported just if each member
of the contract is there, with the same type if both have one, and each modifier
of the interface is one of the declaration. -/
theorem check_goes_by_contract (settings : Settings) {registry : Registry}
    {declaration interface : Declaration} {doc interfaceDoc : Doc.Block}
    {name : Text}
    (implements : Implements registry declaration doc name interface
      interfaceDoc) :
    (∀ parameters properties modifiers,
      Inserted (·.name ∉ (Contract.ofBlock interfaceDoc).map (·.name))
        doc.parameters parameters →
      Inserted (·.name ∉ (Contract.ofBlock interfaceDoc).map (·.name))
        doc.properties properties →
      Inserted (·.name ∉ interfaceDoc.modifiers.map (·.name))
        doc.modifiers modifiers →
      check settings registry
          { declaration with
            doc := some { doc with parameters, properties, modifiers } } =
        check settings registry declaration) ∧
    (∀ member ∈ Contract.ofBlock interfaceDoc,
      doc.hasMember member.name = false →
      ∀ property : Doc.Property, property.name = member.name →
        property.type = none ∨ property.type = member.type →
        ∃ front back,
          check settings registry declaration =
              front ++ missingMember declaration interface name member :: back ∧
            missingMember declaration interface name member ∉ front ++ back ∧
            check settings registry
                { declaration with
                  doc := some
                    { doc with properties := doc.properties ++ [property] } } =
              front ++ back) ∧
    (check settings registry declaration = [] ↔
      (∀ member ∈ Contract.ofBlock interfaceDoc,
        doc.hasMember member.name = true ∧
        ∀ expected ∈ member.type, ∀ actual ∈ doc.memberType? member.name,
          actual = expected) ∧
      ∀ modifier ∈ interfaceDoc.modifiers,
        modifier.name ∈ declaration.modifierNames) := by
  refine ⟨?_, ?_, implements.check_eq_nil_iff⟩
  · intro parameters properties modifiers moreParameters moreProperties
      moreModifiers
    exact implements.check_inserted moreParameters moreProperties moreModifiers
  · intro member inContract lacking property named typed
    exact implements.exists_check_eq_append inContract lacking named typed

/-- The doc block of an interface that names a member as a parameter and, with
another type, as a property. -/
def panelDoc : Doc.Block :=
  { kind := some .interface,
    parameters := [⟨['a'], some ['t'], true, none, []⟩],
    properties := [⟨['a'], some ['u'], []⟩, ⟨['b'], some ['v'], []⟩],
    modifiers := [⟨['m'], []⟩] }

def panel : Declaration :=
  ⟨.interface, "i-p".toList, ".i-p".toList, ⟨['f'], ⟨⟨0, 1, 1⟩, ⟨7, 1, 8⟩⟩⟩,
    some panelDoc, [], .root, []⟩

/-- A doc block that has one of the two members, twice. -/
def cardDoc : Doc.Block :=
  { implements := some "i-p".toList,
    properties := [⟨['a'], some ['t'], []⟩, ⟨['a'], some ['w'], []⟩] }

/-- An implementer that has the modifier as a rule. -/
def card : Declaration :=
  ⟨.component, "c-c".toList, ".c-c".toList, ⟨['f'], ⟨⟨8, 2, 1⟩, ⟨24, 2, 17⟩⟩⟩,
    some cardDoc,
    [⟨.component, "c-c--m".toList, "&--m".toList,
      ⟨['f'], ⟨⟨15, 2, 8⟩, ⟨22, 2, 15⟩⟩⟩, none, [], .modifier, []⟩], .root, []⟩

def project : Registry :=
  { files := [⟨['f'], [], [panel, card], [], []⟩],
    names := [("c-c".toList, ⟨0, 1⟩), ("i-p".toList, ⟨0, 0⟩)] }

theorem check_goes_by_contract_card :
    Implements project card cardDoc "i-p".toList panel panelDoc ∧
    check {} project
        { card with
          doc :=
            some
              { cardDoc with
                parameters := [⟨['z'], some ['t'], false, none, []⟩],
                modifiers := [⟨['a'], []⟩] } } =
      check {} project card ∧
    (∃ front back,
      check {} project card =
          front ++ missingMember card panel "i-p".toList
            ⟨['b'], some ['v'], true⟩ :: back ∧
        missingMember card panel "i-p".toList ⟨['b'], some ['v'], true⟩ ∉
          front ++ back ∧
        check {} project
            { card with
              doc :=
                some
                  { cardDoc with
                    properties :=
                      cardDoc.properties ++ [⟨['b'], none, ['d']⟩] } } =
          front ++ back) ∧
    check {} project card ≠ [] := by
  have implements : Implements project card cardDoc "i-p".toList
      panel panelDoc :=
    ⟨rfl, rfl, rfl, rfl, rfl⟩
  obtain ⟨ignored, single, silent⟩ := check_goes_by_contract {} implements
  refine ⟨implements, ?_, ?_, ?_⟩
  · exact ignored _ _ _ (.insert (by decide) .nil) (.refl _)
      (.insert (by decide) .nil)
  · exact single _ (by decide) (by decide) ⟨['b'], none, ['d']⟩ rfl (.inl rfl)
  · intro nothing
    have present :=
      ((silent.mp nothing).1 ⟨['b'], some ['v'], true⟩ (by decide)).1
    revert present
    decide

/-! ## Interfaces conform to themselves -/

/-- An interface conforms to itself.  The contract of a doc block has each name
once, it has the names that the block has members of, and each with the type
that the block gives it.  So nothing is reported about a declaration that
implements an interface and has the same parameters, properties and modifiers,
however often the doc block names a member, and as what. -/
theorem conforms_to_itself (block : Doc.Block) :
    ((Contract.ofBlock block).map (·.name)).Nodup ∧
    (∀ name, name ∈ (Contract.ofBlock block).map (·.name) ↔
      block.hasMember name = true) ∧
    (∀ member ∈ Contract.ofBlock block,
      block.memberType? member.name = member.type) ∧
    ∀ (settings : Settings) (registry : Registry)
      (declaration interface : Declaration)
        (doc : Doc.Block) (name : Text),
      Implements registry declaration doc name interface block →
      doc.parameters = block.parameters → doc.properties = block.properties →
      doc.modifiers = block.modifiers →
      check settings registry declaration = [] := by
  refine ⟨Contract.nodup_names_ofBlock block,
    fun _ => Contract.mem_names_ofBlock_iff,
    fun _ => Contract.memberType?_of_mem_ofBlock, ?_⟩
  intro settings registry declaration interface doc name implements
  exact implements.check_eq_nil_of_same

/-- The doc block of an interface that claims to implement itself.  It names one
member as a parameter without a type, as one with a type, and as a property, and
another one twice. -/
def mirrorDoc : Doc.Block :=
  { kind := some .interface, implements := some "i-m".toList,
    parameters :=
      [⟨['a'], none, false, none, []⟩, ⟨['a'], some ['t'], true, none, []⟩],
    properties :=
      [⟨['a'], some ['u'], []⟩, ⟨['b'], some ['v'], []⟩,
        ⟨['b'], some ['w'], []⟩],
    modifiers := [⟨['m'], []⟩, ⟨['m'], ['d']⟩] }

def mirror : Declaration :=
  ⟨.interface, "i-m".toList, ".i-m".toList, ⟨['f'], ⟨⟨0, 1, 1⟩, ⟨7, 1, 8⟩⟩⟩,
    some mirrorDoc, [], .root, []⟩

theorem conforms_to_itself_mirror :
    let registry : Registry :=
      ⟨[⟨['f'], [], [mirror], [], []⟩], [("i-m".toList, ⟨0, 0⟩)]⟩
    Implements registry mirror mirrorDoc "i-m".toList mirror mirrorDoc ∧
      Contract.ofBlock mirrorDoc =
        [⟨['a'], none, true⟩, ⟨['b'], some ['v'], true⟩] ∧
      mirrorDoc.memberType? ['a'] = none ∧ check {} registry mirror = [] := by
  intro registry
  have implements : Implements registry mirror mirrorDoc "i-m".toList mirror
      mirrorDoc :=
    ⟨rfl, rfl, rfl, rfl, rfl⟩
  have contract : Contract.ofBlock mirrorDoc =
      [⟨['a'], none, true⟩, ⟨['b'], some ['v'], true⟩] := by
    decide
  obtain ⟨-, -, typed, silent⟩ := conforms_to_itself mirrorDoc
  refine ⟨implements, contract, ?_, ?_⟩
  · exact typed ⟨['a'], none, true⟩ (contract ▸ List.mem_cons_self)
  · exact silent {} registry mirror mirror mirrorDoc "i-m".toList
      implements rfl rfl rfl

end Conformance

end StyleAudit
