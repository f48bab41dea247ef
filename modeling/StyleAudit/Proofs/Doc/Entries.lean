import StyleAudit.Proofs.Doc.Extracted

/-!
# Reading entry by entry

The content lines of a comment are those of its description and then those of
its entries.  An entry adds its tag to the block, or nothing if it is malformed,
and it adds its issues behind those that are already there.  What is wrong with
an entry depends on the block in one way only: a tag can be repeated.
-/

namespace StyleAudit

namespace Doc

/-! ## Dividing the lines -/

/-- The lines of an entry. -/
def Entry.lines (entry : Entry) : List Line :=
  entry.tag :: entry.body

theorem entries_cons_of_isTag {line : Line} (isTag : line.isTag = true)
    (rest : List Line) :
    entries (line :: rest) =
      ([], ⟨line, (entries rest).1⟩ :: (entries rest).2) := by
  rw [entries]
  exact if_pos isTag

theorem entries_cons_of_plain {line : Line} (noTag : line.isTag = false)
    (rest : List Line) :
    entries (line :: rest) = (line :: (entries rest).1, (entries rest).2) := by
  rw [entries]
  exact if_neg (ne_true_of_eq_false noTag)

/-- The description and the entries hold all lines, in their order. -/
theorem append_lines_entries (lines : List Line) :
    (entries lines).1 ++ (entries lines).2.flatMap Entry.lines = lines := by
  induction lines with
  | nil => rfl
  | cons line rest ih =>
      cases isTag : line.isTag with
      | true =>
          rw [entries_cons_of_isTag isTag, List.nil_append, List.flatMap_cons,
            Entry.lines, List.cons_append, ih]
      | false => rw [entries_cons_of_plain isTag, List.cons_append, ih]

theorem flatMap_lines_sublist (lines : List Line) :
    ((entries lines).2.flatMap Entry.lines).Sublist lines := by
  have behind := List.sublist_append_right (entries lines).1
    ((entries lines).2.flatMap Entry.lines)
  rwa [append_lines_entries] at behind

/-- Each tag line begins an entry. -/
theorem map_tag_entries (lines : List Line) :
    (entries lines).2.map (·.tag) = lines.filter Line.isTag := by
  induction lines with
  | nil => rfl
  | cons line rest ih =>
      cases isTag : line.isTag with
      | true =>
          rw [entries_cons_of_isTag isTag, List.map_cons, ih,
            List.filter_cons_of_pos isTag]
      | false =>
          rw [entries_cons_of_plain isTag, ih,
            List.filter_cons_of_neg (ne_true_of_eq_false isTag)]

theorem isTag_of_mem_body {lines : List Line} {entry : Entry}
    (member : entry ∈ (entries lines).2) :
    ∀ line ∈ entry.body, line.isTag = false := by
  induction lines with
  | nil => exact (List.not_mem_nil member).elim
  | cons line rest ih =>
      cases isTag : line.isTag with
      | true =>
          rw [entries_cons_of_isTag isTag] at member
          rcases List.mem_cons.mp member with rfl | later
          · exact isTag_of_mem_description
          · exact ih later
      | false =>
          rw [entries_cons_of_plain isTag] at member
          exact ih member

/-- Lines that begin with a tag line, if there are any, add entries of their
own. -/
theorem entries_append_of_isTag (front : List Line) {back : List Line}
    (begins : ∀ line ∈ back.head?, line.isTag = true) :
    entries (front ++ back) =
      ((entries front).1, (entries front).2 ++ (entries back).2) := by
  induction front with
  | nil =>
      cases back with
      | nil => rfl
      | cons line rest =>
          have isTag := begins line rfl
          rw [List.nil_append, entries_cons_of_isTag isTag]
          rfl
  | cons line front ih =>
      rw [List.cons_append]
      cases isTag : line.isTag with
      | true =>
          rw [entries_cons_of_isTag isTag, entries_cons_of_isTag isTag, ih,
            List.cons_append]
      | false =>
          rw [entries_cons_of_plain isTag, entries_cons_of_plain isTag, ih]

/-! ## What is wrong with entries -/

/-- What is wrong with an entry that is read into a block. -/
def Entry.issues (block : Block) (entry : Entry) : List Issue :=
  match Tag.parse entry.tag.text with
  | .error flaw => [⟨.malformed flaw, entry.tag⟩]
  | .ok tag => Extraction.entryIssues block entry tag

/-- The block with the tag of an entry. -/
def Entry.addTo (block : Block) (entry : Entry) : Block :=
  entry.reading?.elim block block.add

/-- What is wrong with entries that are read into a block one after the
other. -/
def issuesOf (block : Block) : List Entry → List Issue
  | [] => []
  | entry :: rest => entry.issues block ++ issuesOf (entry.addTo block) rest

private theorem add_eq (extraction : Extraction) (entry : Entry) :
    extraction.add entry =
      ⟨entry.addTo extraction.block,
        extraction.issues ++ entry.issues extraction.block⟩ := by
  rw [Extraction.add, Entry.addTo, Entry.issues, Entry.reading?]
  cases Tag.parse entry.tag.text <;> rfl

/-- What is read from entries is told entry by entry. -/
theorem foldl_add_eq (extraction : Extraction) (list : List Entry) :
    list.foldl Extraction.add extraction =
      ⟨list.foldl Entry.addTo extraction.block,
        extraction.issues ++ issuesOf extraction.block list⟩ := by
  induction list generalizing extraction with
  | nil => rw [List.foldl_nil, List.foldl_nil, issuesOf, List.append_nil]
  | cons entry rest ih =>
      rw [List.foldl_cons, ih, add_eq, List.foldl_cons, issuesOf,
        List.append_assoc]

/-- What is read from content lines. -/
def extractLines (lines : List Line) : Extraction :=
  { block :=
      { (entries lines).2.foldl Entry.addTo {} with
        description := descriptionOf (entries lines).1 },
    issues := issuesOf {} (entries lines).2 }

theorem extract_eq (comment : Text) :
    extract comment = extractLines (Line.all comment) := by
  have folded := foldl_add_eq {} (entries (Line.all comment)).2
  rw [List.nil_append] at folded
  rw [extract]
  simp only [folded, extractLines]

theorem issuesOf_append (block : Block) (front back : List Entry) :
    issuesOf block (front ++ back) =
      issuesOf block front ++
        issuesOf (front.foldl Entry.addTo block) back := by
  induction front generalizing block with
  | nil => rfl
  | cons entry front ih =>
      rw [List.cons_append, issuesOf, issuesOf, ih, List.foldl_cons,
        List.append_assoc]

private theorem map_line_entryIssues_sublist (block : Block) (entry : Entry)
    (tag : Tag) :
    ((Extraction.entryIssues block entry tag).map (·.line)).Sublist
      entry.lines := by
  have repeated : (((block.replaced? tag).toList.map fun name =>
      (⟨.repeated name, entry.tag⟩ : Issue)).map (·.line)).Sublist
        [entry.tag] := by
    cases block.replaced? tag with
    | none => exact List.nil_sublist _
    | some name => exact List.Sublist.refl _
  rw [Extraction.entryIssues, List.map_append]
  refine repeated.append ?_
  split
  · rename_i name _
    have stray : (entry.continuation.map fun line =>
        (⟨.strayText name, line⟩ : Issue)).map (·.line) =
          entry.continuation := by
      rw [List.map_map]
      exact List.map_id _
    rw [stray]
    exact List.filter_sublist
  · exact List.nil_sublist _

/-- Issues are about lines of the entries, in their order, and about each line
once at most. -/
theorem map_line_issuesOf_sublist (block : Block) (list : List Entry) :
    ((issuesOf block list).map (·.line)).Sublist
      (list.flatMap Entry.lines) := by
  induction list generalizing block with
  | nil => exact List.nil_sublist _
  | cons entry rest ih =>
      rw [issuesOf, List.map_append, List.flatMap_cons]
      refine List.Sublist.append ?_ (ih _)
      rw [Entry.issues]
      split
      · exact (List.nil_sublist _).cons_cons _
      · exact map_line_entryIssues_sublist block entry _

/-! ## Where lines stand

Reading looks at the texts of lines only.  Lines with the same texts elsewhere
say the same, and what is wrong with them is wrong elsewhere. -/

/-- The entry with its lines elsewhere. -/
def Entry.moved (move : Line → Line) (entry : Entry) : Entry :=
  ⟨move entry.tag, entry.body.map move⟩

/-- The issue with its line elsewhere. -/
def Issue.moved (move : Line → Line) (issue : Issue) : Issue :=
  ⟨issue.cause, move issue.line⟩

section Moved

variable {move : Line → Line} (keeps : ∀ line, (move line).text = line.text)
include keeps

theorem map_text_map (lines : List Line) :
    (lines.map move).map (·.text) = lines.map (·.text) := by
  rw [List.map_map]
  exact List.map_congr_left fun line _ => keeps line

theorem entries_map (lines : List Line) :
    entries (lines.map move) =
      ((entries lines).1.map move,
        (entries lines).2.map (Entry.moved move)) := by
  induction lines with
  | nil => rfl
  | cons line rest ih =>
      have sameTag : (move line).isTag = line.isTag := by
        rw [Line.isTag, keeps, Line.isTag]
      rw [List.map_cons]
      cases isTag : line.isTag with
      | true =>
          rw [entries_cons_of_isTag isTag,
            entries_cons_of_isTag (sameTag.trans isTag), ih]
          rfl
      | false =>
          rw [entries_cons_of_plain isTag,
            entries_cons_of_plain (sameTag.trans isTag), ih]
          rfl

theorem continuation_moved (entry : Entry) :
    (entry.moved move).continuation = entry.continuation.map move := by
  have same : (fun line : Line => !line.text.isEmpty) ∘ move =
      fun line => !line.text.isEmpty := by
    funext line
    rw [Function.comp_apply, keeps]
  rw [Entry.continuation, Entry.moved, List.filter_map, same,
    Entry.continuation]

theorem addTo_moved (entry : Entry) (block : Block) :
    (entry.moved move).addTo block = entry.addTo block := by
  have tag : (entry.moved move).tag.text = entry.tag.text := keeps entry.tag
  rw [Entry.addTo, Entry.addTo, Entry.reading?, Entry.reading?, tag,
    continuation_moved keeps, map_text_map keeps]

private theorem issues_moved (entry : Entry) (block : Block) :
    (entry.moved move).issues block =
      (entry.issues block).map (Issue.moved move) := by
  have sameTag : (entry.moved move).tag.text = entry.tag.text := keeps entry.tag
  rw [Entry.issues, Entry.issues, sameTag]
  cases Tag.parse entry.tag.text with
  | error flaw => rfl
  | ok tag =>
      simp only [Extraction.entryIssues, List.map_append, List.map_map,
        continuation_moved keeps]
      cases tag.closedName? with
      | none => rfl
      | some name => simp only [List.map_map]; rfl

private theorem issuesOf_moved (block : Block) (list : List Entry) :
    issuesOf block (list.map (Entry.moved move)) =
      (issuesOf block list).map (Issue.moved move) := by
  induction list generalizing block with
  | nil => rfl
  | cons entry rest ih =>
      rw [List.map_cons, issuesOf, issuesOf, issues_moved keeps,
        addTo_moved keeps, ih, List.map_append]

/-- What lines say does not depend on where they stand. -/
theorem extractLines_map (lines : List Line) :
    extractLines (lines.map move) =
      ⟨(extractLines lines).block,
        (extractLines lines).issues.map (Issue.moved move)⟩ := by
  simp only [extractLines, entries_map keeps, List.foldl_map, addTo_moved keeps,
    issuesOf_moved keeps, descriptionOf, map_text_map keeps]

end Moved

end Doc

end StyleAudit
