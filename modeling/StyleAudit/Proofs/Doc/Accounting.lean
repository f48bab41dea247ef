import Mathlib.Data.List.Nodup
import StyleAudit.Proofs.Doc.Entries

/-!
# Every tag line is accounted for

A tag line gives the block a value, or replaces one and is reported as repeated,
or is rejected and reported as malformed.  So the tag lines of a comment can be
counted in what is read from it.  All other reports are about text behind tags
that take none, and no two reports are about one line.
-/

namespace StyleAudit

namespace Doc

/-! ## What a block holds -/

theorem Extensions.length_values_add (tag value : Text)
    (extensions : Extensions) :
    ((Extensions.add tag value extensions).flatMap (·.2)).length =
      (extensions.flatMap (·.2)).length + 1 := by
  induction extensions with
  | nil => rfl
  | cons entry rest ih =>
      obtain ⟨key, values⟩ := entry
      rw [add]
      split
      · simp only [List.flatMap_cons, List.length_append, List.length_singleton]
        omega
      · simp only [List.flatMap_cons, List.length_append, List.length_singleton]
        omega
      · simp only [List.flatMap_cons, List.length_append, ih]
        omega

namespace Block

/-- The number of values in a block that come from tags. -/
def tagCount (block : Block) : Nat :=
  block.parameters.length + block.properties.length + block.modifiers.length +
    (block.extensions.flatMap (·.2)).length +
    (block.kind.toList.length + block.name.toList.length +
      block.implements.toList.length + block.returns.toList.length)

/-- A tag adds a value, unless it replaces one. -/
theorem tagCount_add (block : Block) (tag : Tag) :
    (block.add tag).tagCount + (block.replaced? tag).toList.length =
      block.tagCount + 1 := by
  cases tag <;>
    simp only [add, replaced?, tagCount, Option.toList_map, Option.toList_some,
      Option.toList_none, List.length_map, List.length_append,
      List.length_singleton, List.length_nil, Extensions.length_values_add] <;>
    omega

theorem replaced?_foldl_continueWith (block : Block) (tag : Tag)
    (more : List Text) :
    block.replaced? (more.foldl Tag.continueWith tag) =
      block.replaced? tag := by
  induction more generalizing tag with
  | nil => rfl
  | cons text rest ih =>
      rw [List.foldl_cons, ih]
      cases tag <;> rfl

end Block

/-! ## Counting entry by entry -/

/-- Is the issue that a tag line is malformed? -/
def Issue.isRejection (issue : Issue) : Bool :=
  !issue.cause.isRepeated && issue.line.isTag

/-- The entry is made of a tag line and lines that are none. -/
structure Entry.Divided (entry : Entry) : Prop where
  tag : entry.tag.isTag = true
  body : ∀ line ∈ entry.body, line.isTag = false

theorem divided_of_mem_entries {lines : List Line} :
    ∀ entry ∈ (entries lines).2, entry.Divided := fun entry member =>
  ⟨(mem_of_mem_entries.2 entry member).2.1, isTag_of_mem_body member⟩

section Counting

variable {entry : Entry}

private theorem countP_isRepeated_entryIssues (block : Block) (tag : Tag) :
    (Extraction.entryIssues block entry tag).countP (·.cause.isRepeated) =
      (block.replaced? tag).toList.length := by
  have stray (name : Text) : (entry.continuation.map fun line =>
      (⟨.strayText name, line⟩ : Issue)).countP (·.cause.isRepeated) = 0 := by
    simp [List.countP_map, Issue.Cause.isRepeated]
  have repeated : ((block.replaced? tag).toList.map fun name =>
      (⟨.repeated name, entry.tag⟩ : Issue)).countP (·.cause.isRepeated) =
        (block.replaced? tag).toList.length := by
    simp [List.countP_map, Issue.Cause.isRepeated]
  rw [Extraction.entryIssues, List.countP_append, repeated]
  cases tag.closedName? with
  | none => rfl
  | some name => rw [stray, Nat.add_zero]

theorem countP_isRejection_entryIssues (divided : entry.Divided) (block : Block)
    (tag : Tag) :
    (Extraction.entryIssues block entry tag).countP Issue.isRejection = 0 := by
  rw [List.countP_eq_zero]
  intro issue member
  rcases List.mem_append.mp member with repeated | stray
  · obtain ⟨name, -, rfl⟩ := List.mem_map.mp repeated
    exact Bool.noConfusion
  · split at stray
    · obtain ⟨line, continued, rfl⟩ := List.mem_map.mp stray
      rw [Issue.isRejection, divided.body line (List.mem_filter.mp continued).1]
      exact Bool.noConfusion
    · exact (List.not_mem_nil stray).elim

/-- An entry adds a value, or is reported as repeated or as malformed. -/
theorem tagCount_addTo (divided : entry.Divided) (block : Block) :
    (entry.addTo block).tagCount + (entry.issues block).countP
      (·.cause.isRepeated) + (entry.issues block).countP Issue.isRejection =
        block.tagCount + 1 := by
  rw [Entry.addTo, Entry.issues, Entry.reading?]
  cases Tag.parse entry.tag.text with
  | error flaw =>
      have rejected : Issue.isRejection ⟨.malformed flaw, entry.tag⟩ = true :=
        divided.tag
      rw [List.countP_cons_of_pos rejected]
      rfl
  | ok tag =>
      have added := block.tagCount_add
        ((entry.continuation.map (·.text)).foldl Tag.continueWith tag)
      rw [block.replaced?_foldl_continueWith] at added
      rw [countP_isRepeated_entryIssues, countP_isRejection_entryIssues divided]
      exact added

theorem tagCount_foldl_addTo {list : List Entry}
    (divided : ∀ entry ∈ list, entry.Divided) (block : Block) :
    (list.foldl Entry.addTo block).tagCount + (issuesOf block list).countP
      (·.cause.isRepeated) + (issuesOf block list).countP Issue.isRejection =
        block.tagCount + list.length := by
  induction list generalizing block with
  | nil => rfl
  | cons entry rest ih =>
      have here := tagCount_addTo (divided entry List.mem_cons_self) block
      have later :=
        ih (fun other member =>
          divided other (List.mem_cons_of_mem entry member))
        (entry.addTo block)
      rw [List.foldl_cons, issuesOf, List.countP_append, List.countP_append,
        List.length_cons]
      omega

end Counting

/-! ## Text behind tags that take none -/

/-- The word behind the sign of a tag line. -/
def Line.tagWord (line : Line) : Text :=
  (Text.splitWord (line.text.drop 1)).1

/-- The names of the tags that take no further text. -/
def Tag.closedNames : List Text :=
  ["type".toList, "name".toList, "implements".toList]

/-- The tag line is accepted, and its tag takes no further text. -/
def Line.IsClosed (line : Line) : Prop :=
  line.isTag = true ∧ line.tagWord ∈ Tag.closedNames ∧ ∃ tag,
    Tag.parse line.text = .ok tag

/-- The line holds some text, and the last tag line in front of it is closed. -/
def Line.IsStray (lines : List Line) (line : Line) : Prop :=
  line.isTag = false ∧ line.text ≠ [] ∧
    ∃ front tag between back,
      lines = front ++ tag :: (between ++ line :: back) ∧
      tag.IsClosed ∧ ∀ other ∈ between, other.isTag = false

namespace Tag

/-- A tag that was read takes no further text just if its name is one of the
closed names. -/
theorem closedName?_eq_some_iff {tag : Tag} (legible : tag.Legible)
    {name : Text} :
    tag.closedName? = some name ↔ tag.parts.1 = name ∧ name ∈ closedNames := by
  have closed (own : Text) (member : own ∈ closedNames) :
      some own = some name ↔ own = name ∧ name ∈ closedNames := by
    rw [Option.some_inj]
    exact ⟨fun same => ⟨same, same ▸ member⟩, And.left⟩
  have opened (own : Text) (absent : own ∉ closedNames) :
      none = some name ↔ own = name ∧ name ∈ closedNames := by
    constructor
    · intro same
      cases same
    · rintro ⟨rfl, member⟩
      exact (absent member).elim
  cases tag with
  | kind it => exact closed "type".toList (by decide)
  | name it => exact closed "name".toList (by decide)
  | implements it => exact closed "implements".toList (by decide)
  | returns it => exact opened "returns".toList (by decide)
  | parameter it => exact opened "param".toList (by decide)
  | property it => exact opened "prop".toList (by decide)
  | modifier it => exact opened "modifier".toList (by decide)
  | extension key value =>
      exact opened key fun member =>
        legible.1.2.2 (List.mem_append_left _ member)

end Tag

theorem closedName?_of_parse {line : Line} {tag : Tag}
    (parsed : Tag.parse line.text = .ok tag) {name : Text} :
    tag.closedName? = some name ↔ line.tagWord = name ∧
      name ∈ Tag.closedNames := by
  rw [Tag.closedName?_eq_some_iff (Tag.legible_parse parsed).1,
    (Tag.readAs_of_ofParts parsed).parts_fst]
  rfl

theorem isStray_iff {lines : List Line} {line : Line} :
    line.IsStray lines ↔
      ∃ entry ∈ (entries lines).2,
        entry.tag.IsClosed ∧ line ∈ entry.continuation := by
  constructor
  · rintro ⟨noTag, filled, front, tag, between, back, rfl, closed, plain⟩
    have begins : ∀ other ∈ (tag :: (between ++ line :: back)).head?,
        other.isTag = true := by
      simp [closed.1]
    rw [entries_append_of_isTag front begins, entries_cons_of_isTag closed.1,
      entries_append plain, entries_cons_of_plain noTag]
    refine ⟨_, List.mem_append_right _ List.mem_cons_self, closed, ?_⟩
    exact List.mem_filter.mpr
      ⟨List.mem_append_right _ List.mem_cons_self, by simpa using filled⟩
  · rintro ⟨entry, member, closed, continued⟩
    obtain ⟨inBody, filled⟩ := List.mem_filter.mp continued
    have plain := isTag_of_mem_body member
    have whole := append_lines_entries lines
    obtain ⟨before, after, split⟩ := List.append_of_mem member
    obtain ⟨between, back, body⟩ := List.append_of_mem inBody
    rw [body] at plain
    refine ⟨plain line
      (List.mem_append_right _ List.mem_cons_self), by simpa using filled,
      (entries lines).1 ++ before.flatMap Entry.lines, entry.tag, between,
      back ++ after.flatMap Entry.lines, ?_, closed,
      fun other inside => plain other (List.mem_append_left _ inside)⟩
    rw [split, List.flatMap_append, List.flatMap_cons, Entry.lines, body]
      at whole
    exact whole.symm.trans (by simp)

section Stray

variable {issue : Issue}

/-- What is wrong with a line of an entry that is no tag line. -/
theorem mem_issues_iff {entry : Entry} (divided : entry.Divided) (block : Block)
    (noTag : issue.line.isTag = false) :
    issue ∈ entry.issues block ↔
      entry.tag.IsClosed ∧ issue.line ∈ entry.continuation ∧
        issue.cause = .strayText entry.tag.tagWord := by
  have other : issue.line ≠ entry.tag := by
    intro same
    rw [same, divided.tag] at noTag
    cases noTag
  rw [Entry.issues]
  cases parsed : Tag.parse entry.tag.text with
  | error flaw =>
      constructor
      · intro member
        exact (other (congrArg Issue.line (List.mem_singleton.mp member))).elim
      · rintro ⟨⟨-, -, tag, accepted⟩, -⟩
        rw [parsed] at accepted
        cases accepted
  | ok tag =>
      have notRepeated : issue ∉ (block.replaced? tag).toList.map fun name =>
          (⟨.repeated name, entry.tag⟩ : Issue) := by
        intro member
        obtain ⟨name, -, rfl⟩ := List.mem_map.mp member
        exact other rfl
      simp only [Extraction.entryIssues, List.mem_append, notRepeated, false_or]
      constructor
      · intro member
        split at member
        · rename_i name closed
          obtain ⟨line, continued, rfl⟩ := List.mem_map.mp member
          obtain ⟨rfl, isClosed⟩ := (closedName?_of_parse parsed).mp closed
          exact ⟨⟨divided.tag, isClosed, tag, parsed⟩, continued, rfl⟩
        · exact (List.not_mem_nil member).elim
      · rintro ⟨⟨-, isClosed, -⟩, continued, cause⟩
        rw [(closedName?_of_parse parsed).mpr ⟨rfl, isClosed⟩]
        exact List.mem_map.mpr ⟨issue.line, continued, by rw [← cause]⟩

theorem mem_issuesOf_iff {list : List Entry}
    (divided : ∀ entry ∈ list, entry.Divided) (block : Block)
    (noTag : issue.line.isTag = false) :
    issue ∈ issuesOf block list ↔
      ∃ entry ∈ list, entry.tag.IsClosed ∧ issue.line ∈ entry.continuation ∧
        issue.cause = .strayText entry.tag.tagWord := by
  induction list generalizing block with
  | nil => simp [issuesOf]
  | cons entry rest ih =>
      have later :=
        ih (fun other member =>
          divided other (List.mem_cons_of_mem entry member))
        (entry.addTo block)
      rw [issuesOf, List.mem_append, later,
        mem_issues_iff (divided entry List.mem_cons_self) block noTag]
      simp

end Stray

/-! ## The whole comment -/

/-- Issues follow each other down the lines of a comment. -/
theorem pairwise_line_issues (comment : Text) :
    (extract comment).issues.Pairwise fun earlier later => earlier.line.line <
      later.line.line := by
  have numbers : (Line.all comment).Pairwise fun earlier later => earlier.line <
      later.line := by
    rw [← List.pairwise_map (f := Line.line), Line.all, map_line_ofRaws]
    exact List.pairwise_lt_range'
  have inOrder : ((extract comment).issues.map (·.line)).Sublist
      (Line.all comment) := by
    rw [extract_eq]
    exact (map_line_issuesOf_sublist _ _).trans
      (flatMap_lines_sublist (Line.all comment))
  have kept := numbers.sublist inOrder
  rwa [List.pairwise_map] at kept

/-- There are as many tag lines in a comment as there are values from tags in
its block, repeated tags and malformed tags together.  Any other issue is about
stray text, and for each line of stray text there is one.  No two issues are
about one line, and they are in the order of the lines. -/
theorem tag_lines_accounted (comment : Text) :
    (Line.all comment).countP Line.isTag =
        (extract comment).block.tagCount +
          (extract comment).issues.countP (·.cause.isRepeated) +
          (extract comment).issues.countP Issue.isRejection ∧
      (∀ issue ∈ (extract comment).issues, issue.line.isTag = false →
        issue.cause.isRepeated = false ∧
        issue.line.IsStray (Line.all comment)) ∧
      (∀ line : Line, line.IsStray (Line.all comment) →
        ∃! issue, issue ∈ (extract comment).issues ∧ issue.line = line) ∧
      (extract comment).issues.Pairwise fun earlier later =>
        earlier.line.line < later.line.line := by
  have ascending := pairwise_line_issues comment
  have divided := @divided_of_mem_entries (Line.all comment)
  refine ⟨?_, ?_, ?_, ascending⟩
  · have counted := tagCount_foldl_addTo divided {}
    have tags := congrArg List.length (map_tag_entries (Line.all comment))
    rw [List.length_map] at tags
    rw [extract_eq, List.countP_eq_length_filter, ← tags]
    exact (counted.trans (Nat.zero_add _)).symm
  · intro issue member noTag
    rw [extract_eq] at member
    obtain ⟨entry, inEntries, closed, continued, cause⟩ :=
      (mem_issuesOf_iff divided {} noTag).mp member
    exact ⟨by rw [cause]; rfl,
      isStray_iff.mpr ⟨entry, inEntries, closed, continued⟩⟩
  · intro line stray
    obtain ⟨entry, inEntries, closed, continued⟩ := isStray_iff.mp stray
    have reported : ⟨.strayText entry.tag.tagWord, line⟩ ∈
        (extract comment).issues := by
      rw [extract_eq]
      exact (mem_issuesOf_iff divided {} stray.1).mpr
        ⟨entry, inEntries, closed, continued, rfl⟩
    refine ⟨_, ⟨reported, rfl⟩, ?_⟩
    rintro other ⟨member, rfl⟩
    have distinct : ((extract comment).issues.map (·.line.line)).Nodup :=
      List.pairwise_map.mpr (ascending.imp Nat.ne_of_lt)
    exact List.inj_on_of_nodup_map distinct member reported rfl

end Doc

end StyleAudit
