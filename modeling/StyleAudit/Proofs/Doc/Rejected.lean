import StyleAudit.Proofs.Doc.Accounting

/-!
# Malformed tags change nothing

A tag line that is malformed is reported, and this is all that comes of it.  The
lines that continue it are dropped with it, so a comment without these lines
says the same.  Both comments are read from the same content lines, apart from
where these stand, and reading looks at their texts only.
-/

namespace StyleAudit

namespace Doc

/-! ## Where lines stand -/

/-- The line as if it stood at the front of a comment. -/
def Line.unplaced (line : Line) : Line :=
  ⟨line.text, 0, 1, 0⟩

/-- The issue as if its line stood at the front of a comment. -/
def Issue.unplaced (issue : Issue) : Issue :=
  ⟨issue.cause, issue.line.unplaced⟩

theorem extractLines_unplaced (lines : List Line) :
    extractLines (lines.map Line.unplaced) =
      ⟨(extractLines lines).block,
        (extractLines lines).issues.map Issue.unplaced⟩ := by
  have keeps : ∀ line : Line, line.unplaced.text = line.text := fun _ => rfl
  exact extractLines_map keeps lines

/-- Lines with the same texts say the same. -/
theorem extractLines_congr {lines others : List Line}
    (texts : lines.map (·.text) = others.map (·.text)) :
    (extractLines lines).block = (extractLines others).block ∧
      (extractLines lines).issues.map Issue.unplaced =
        (extractLines others).issues.map Issue.unplaced := by
  have moved : lines.map Line.unplaced = others.map Line.unplaced := by
    have placed :=
      congrArg (List.map fun text => (⟨text, 0, 1, 0⟩ : Line)) texts
    rwa [List.map_map, List.map_map] at placed
  have same := extractLines_unplaced lines
  rw [moved, extractLines_unplaced others] at same
  obtain ⟨block, issues⟩ := Extraction.mk.inj same
  exact ⟨block.symm, issues.symm⟩

/-- A comment put together from lines says what these lines say. -/
theorem extract_join {raws : List Text} (oneLine : ∀ raw ∈ raws, '\n' ∉ raw)
    {lines : List Line}
    (texts : lines.map (·.text) = raws.map fun raw => (content raw).rest) :
    (extract (Text.join ['\n'] raws)).block = (extractLines lines).block ∧
      (extract (Text.join ['\n'] raws)).issues.map Issue.unplaced =
        (extractLines lines).issues.map Issue.unplaced := by
  by_cases none : raws = []
  · subst none
    obtain rfl := List.map_eq_nil_iff.mp texts
    exact ⟨by decide, by decide⟩
  · rw [extract_eq]
    refine extractLines_congr ?_
    rw [Line.all, map_text_ofRaws, Text.splitOn_join none oneLine, texts]

/-! ## Leaving out an entry -/

private theorem entries_of_plain {lines : List Line}
    (plain : ∀ line ∈ lines, line.isTag = false) :
    entries lines = (lines, []) := by
  have whole := entries_append plain []
  rw [List.append_nil, entries, List.append_nil] at whole
  exact whole

/-- A rejected tag line is malformed. -/
theorem exists_flaw_of_isRejection {list : List Entry}
    (divided : ∀ entry ∈ list, entry.Divided) {block : Block} {issue : Issue}
    (member : issue ∈ issuesOf block list)
    (rejected : issue.isRejection = true) :
    ∃ flaw, Tag.parse issue.line.text = .error flaw ∧
      issue.cause = .malformed flaw := by
  induction list generalizing block with
  | nil => exact (List.not_mem_nil member).elim
  | cons entry rest ih =>
      rw [issuesOf] at member
      rcases List.mem_append.mp member with here | later
      · rw [Entry.issues] at here
        split at here
        · rename_i flaw malformed
          obtain rfl := List.mem_singleton.mp here
          exact ⟨flaw, malformed, rfl⟩
        · rename_i tag _
          have none := countP_isRejection_entryIssues
            (divided entry List.mem_cons_self) block tag
          exact (List.countP_eq_zero.mp none issue here rejected).elim
      · exact ih
          (fun other member =>
            divided other (List.mem_cons_of_mem entry member)) later

section Removal

variable {back : List Line} {entry : Entry}

private theorem entries_around (front : List Line) (divided : entry.Divided)
    (next : ∀ line ∈ back.head?, line.isTag = true) :
    entries (front ++ (entry.lines ++ back)) =
      ((entries front).1, (entries front).2 ++ entry :: (entries back).2) := by
  have own : entries entry.lines = ([], [entry]) := by
    rw [Entry.lines, entries_cons_of_isTag divided.tag,
      entries_of_plain divided.body]
  have begins : ∀ line ∈ (entry.lines ++ back).head?, line.isTag = true := by
    intro line first
    obtain rfl := Option.mem_some.mp first
    exact divided.tag
  rw [entries_append_of_isTag front begins,
    entries_append_of_isTag entry.lines next, own]
  rfl

/-- Lines without those of a malformed entry say the same, and only its issue is
gone. -/
theorem extractLines_without (front : List Line) (divided : entry.Divided)
    (next : ∀ line ∈ back.head?, line.isTag = true) {flaw : Tag.Flaw}
    (malformed : Tag.parse entry.tag.text = .error flaw) :
    (extractLines (front ++ back)).block =
      (extractLines (front ++ (entry.lines ++ back))).block ∧
      ∃ earlier later,
        (extractLines (front ++ (entry.lines ++ back))).issues =
          earlier ++ ⟨.malformed flaw, entry.tag⟩ :: later ∧
        (extractLines (front ++ back)).issues = earlier ++ later := by
  have unchanged : ∀ block, entry.addTo block = block := by
    intro block
    rw [Entry.addTo, Entry.reading?, malformed]
    rfl
  have reported : ∀ block,
      entry.issues block = [⟨.malformed flaw, entry.tag⟩] := by
    intro block
    rw [Entry.issues, malformed]
  simp only [extractLines, entries_around front divided next,
    entries_append_of_isTag front next, List.foldl_append, List.foldl_cons,
    issuesOf_append, issuesOf, unchanged, reported]
  exact ⟨trivial, _, _, rfl, rfl⟩

end Removal

/-! ## The whole comment -/

/-- Does a line of a comment begin a tag? -/
def beginsTag (raw : Text) : Bool :=
  Text.beginsWith ['@'] (content raw).rest

theorem map_isTag_eq {lines : List Line} {raws : List Text}
    (texts : lines.map (·.text) = raws.map fun raw => (content raw).rest) :
    lines.map Line.isTag = raws.map beginsTag := by
  have own : lines.map Line.isTag =
      (lines.map (·.text)).map (Text.beginsWith ['@']) := by
    rw [List.map_map]
    rfl
  rw [own, texts, List.map_map]
  refine List.map_congr_left fun raw _ => ?_
  rw [beginsTag, Function.comp_apply]

/-- The content lines of a comment are divided as its lines are. -/
theorem exists_lines_of_splitOn {comment : Text} {before body after : List Text}
    {raw : Text}
    (split : Text.splitOn '\n' comment = before ++ raw :: (body ++ after))
    (continued : ∀ other ∈ body, beginsTag other = false)
    (next : ∀ other ∈ after.head?, beginsTag other = true) :
    ∃ front entry back,
      Line.all comment = front ++ (Entry.lines entry ++ back) ∧
      front.length = before.length ∧
      (∀ line ∈ entry.body, line.isTag = false) ∧
      (∀ line ∈ back.head?, line.isTag = true) ∧
      (front ++ back).map (·.text) = (before ++ after).map fun other =>
        (content other).rest := by
  have texts := map_text_ofRaws 0 0 (Text.splitOn '\n' comment)
  rw [split, List.map_append, List.map_cons, List.map_append] at texts
  obtain ⟨front, lines, whole, inFront, texts⟩ :=
    List.map_eq_append_iff.mp texts
  obtain ⟨line, lines, rfl, -, texts⟩ := List.map_eq_cons_iff.mp texts
  obtain ⟨behind, back, rfl, inBody, inBack⟩ := List.map_eq_append_iff.mp texts
  refine ⟨front, ⟨line, behind⟩, back, ?_, ?_, ?_, ?_, ?_⟩
  · rw [Line.all, split, whole]
    rfl
  · have lengths := congrArg List.length inFront
    rwa [List.length_map, List.length_map] at lengths
  · intro other isBehind
    have member := List.mem_map_of_mem (f := Line.isTag) isBehind
    rw [map_isTag_eq inBody] at member
    obtain ⟨piece, isPiece, same⟩ := List.mem_map.mp member
    rw [← same, continued piece isPiece]
  · intro other isFirst
    have first : (back.map Line.isTag).head? = some other.isTag := by
      rw [List.head?_map, Option.mem_def.mp isFirst, Option.map_some]
    rw [map_isTag_eq inBack, List.head?_map] at first
    obtain ⟨piece, isPiece, same⟩ := Option.map_eq_some_iff.mp first
    rw [← same, next piece isPiece]
  · rw [List.map_append, List.map_append, inFront, inBack]

theorem map_cause_text_unplaced (issues : List Issue) :
    (issues.map Issue.unplaced).map
      (fun issue => (issue.cause, issue.line.text)) =
      issues.map fun issue => (issue.cause, issue.line.text) := by
  rw [List.map_map]
  rfl

/-- A malformed tag has no effect beyond its issue.  Let a tag line of a comment
be rejected, and let it be left out, with the lines behind it up to the next tag
line.  Then the block stays as it is, and so do the issues, apart from the one
about this line. -/
theorem malformed_tag_only_reported {comment : Text}
    {before body after : List Text} {raw : Text} {issue : Issue}
    (split : Text.splitOn '\n' comment = before ++ raw :: (body ++ after))
    (member : issue ∈ (extract comment).issues)
    (here : issue.line.line = before.length)
    (rejected : issue.isRejection = true)
    (continued : ∀ other ∈ body, beginsTag other = false)
    (next : ∀ other ∈ after.head?, beginsTag other = true) :
    (extract (Text.join ['\n'] (before ++ after))).block =
      (extract comment).block ∧
      ∃ earlier later, (extract comment).issues = earlier ++ issue :: later ∧
        (extract (Text.join ['\n'] (before ++ after))).issues.map
            (fun other => (other.cause, other.line.text)) =
          (earlier ++ later).map fun other =>
            (other.cause, other.line.text) := by
  obtain ⟨front, entry, back, lines, length, plain, nextTag, kept⟩ :=
    exists_lines_of_splitOn split continued next
  have isTagLine : entry.tag = issue.line := by
    have numbered := Line.getElem?_all (line_of_mem_issues member).1
    rw [here, ← length, lines, List.getElem?_append_right (Nat.le_refl _),
      Nat.sub_self] at numbered
    exact Option.some.inj numbered
  have divided : entry.Divided :=
    ⟨isTagLine ▸ (Bool.and_eq_true_iff.mp rejected).2, plain⟩
  have oneLine : ∀ piece ∈ before ++ after, '\n' ∉ piece := by
    intro piece isPiece
    have inComment : piece ∈ Text.splitOn '\n' comment := by
      have shorter :=
        ((List.sublist_append_right body after).cons raw).append_left before
      rw [split]
      exact shorter.subset isPiece
    exact Text.not_mem_of_mem_splitOn inComment
  rw [extract_eq comment] at member ⊢
  obtain ⟨flaw, malformed, cause⟩ :=
    exists_flaw_of_isRejection divided_of_mem_entries member rejected
  obtain ⟨sameBlock, earlier, later, issues, others⟩ :=
    extractLines_without front divided nextTag (isTagLine ▸ malformed)
  obtain ⟨shorterBlock, shorterIssues⟩ := extract_join oneLine kept
  rw [isTagLine, ← cause] at issues
  rw [lines]
  refine ⟨shorterBlock.trans sameBlock, earlier, later, issues, ?_⟩
  rw [← map_cause_text_unplaced, shorterIssues, others, map_cause_text_unplaced]

theorem malformed_tag_only_reported_between :
    let before := ["/** Shown.".toList, " * @param a first".toList]
    let after :=
      [" * @name x".toList, " * @name y".toList, " * stray */".toList]
    let comment :=
      Text.join ['\n']
        (before ++ " * @type nope".toList :: (" * lost".toList :: after))
    (extract comment).issues.map (·.line.line) = [2, 5, 6] ∧
      (extract (Text.join ['\n'] (before ++ after))).block =
        (extract comment).block := by
  intro before after comment
  have malformed : (⟨.malformed (.unknownKind "nope".toList),
      ⟨"@type nope".toList, 2, 4, 32⟩⟩ : Issue) ∈ (extract comment).issues := by
    decide +kernel
  have split : Text.splitOn '\n' comment =
      before ++ " * @type nope".toList :: ([" * lost".toList] ++ after) := by
    decide +kernel
  refine ⟨by decide +kernel, ?_⟩
  exact (malformed_tag_only_reported split malformed rfl (by decide +kernel)
    (by decide +kernel) (by decide +kernel)).1

end Doc

end StyleAudit
