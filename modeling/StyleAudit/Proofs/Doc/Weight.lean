import StyleAudit.Proofs.Doc.Extracted

/-!
# Reading adds nothing

Reading takes texts apart, and puts some of them together again with a space
between them.  So of all characters but those that writing itself uses, a block
that was read holds no more than the lines of the comment.
-/

namespace StyleAudit

namespace Doc

open Text (weight weight_cons weight_append weight_sublist)

/-! ## Reading a tag -/

section Plain

variable {test : Char → Bool} (plain : ∀ c ∈ Tag.frame, test c = false)
include plain

theorem Tag.countP_join (text more : Text) :
    (join text more).countP test = text.countP test + more.countP test := by
  have space : test ' ' = false := plain _ (by decide)
  rw [join]
  split
  · rename_i empty
    rw [List.isEmpty_iff.mp empty, List.countP_nil, Nat.zero_add]
  · rw [List.countP_append, List.countP_cons_of_neg (by simp [space])]

theorem Tag.weight_continueWith (tag : Tag) (more : Text) :
    weight test (tag.continueWith more).texts ≤ weight test tag.texts +
      more.countP test := by
  rcases texts_continueWith tag more with same | ⟨front, last, before, after⟩
  · rw [same]
    exact Nat.le_add_right _ _
  · rw [before, after, weight_append, weight_append, weight_cons, weight_cons,
      countP_join plain]
    omega

theorem Tag.weight_foldl_continueWith (tag : Tag) (lines : List Text) :
    weight test (lines.foldl continueWith tag).texts ≤
      weight test tag.texts + weight test lines := by
  induction lines generalizing tag with
  | nil => exact Nat.le_add_right _ _
  | cons line rest ih =>
      have later := ih (tag.continueWith line)
      have here := weight_continueWith plain tag line
      rw [List.foldl_cons, weight_cons]
      omega

/-! ## Reading the entries -/

def Entry.texts (entry : Entry) : List Text :=
  entry.tag.text :: entry.body.map (·.text)

private theorem weight_reading {entry : Entry} {tag : Tag}
    (found : entry.reading? = some tag) :
    weight test tag.texts ≤ weight test entry.texts := by
  rw [Entry.reading?] at found
  split at found
  · cases found
  · rename_i own parsed
    obtain rfl := Option.some.inj found
    have ownWeight : weight test own.texts ≤ entry.tag.text.countP test :=
      Nat.le_trans ((Tag.legible_parse parsed).2.countP_le test)
        (List.drop_sublist 1 entry.tag.text).countP_le
    have continued : (entry.continuation.map (·.text)).Sublist
        (entry.body.map (·.text)) :=
      List.filter_sublist.map _
    have bodyWeight : weight test _ ≤ weight test _ := weight_sublist continued
    have whole :=
      Tag.weight_foldl_continueWith plain own (entry.continuation.map (·.text))
    rw [Entry.texts, weight_cons]
    omega

theorem weight_readings (list : List Entry) :
    weight test ((list.filterMap Entry.reading?).flatMap Tag.texts) ≤
      weight test (list.flatMap Entry.texts) := by
  induction list with
  | nil => exact Nat.le_refl _
  | cons entry rest ih =>
      rw [List.flatMap_cons, weight_append]
      cases found : entry.reading? with
      | none =>
          rw [List.filterMap_cons_none found]
          omega
      | some tag =>
          have here := weight_reading plain found
          rw [List.filterMap_cons_some found, List.flatMap_cons, weight_append]
          omega

end Plain

/-! ## Adding tags to a block -/

section Tags

variable (test : Char → Bool)

theorem Extensions.weight_add (tag value : Text) (extensions : Extensions) :
    weight test
      (((Extensions.add tag value extensions).flatMap entryTags).flatMap
        Tag.texts) =
      weight test ((extensions.flatMap entryTags).flatMap Tag.texts) +
        weight test (Tag.extension tag value).texts := by
  induction extensions with
  | nil => simp [Extensions.add, entryTags, Text.weight_nil]
  | cons entry rest ih =>
      obtain ⟨own, held⟩ := entry
      rw [Extensions.add]
      split
      · simp only [List.flatMap_cons, List.flatMap_append, weight_append,
          entryTags, List.map_cons, List.map_nil, List.flatMap_nil,
          List.append_nil]
        omega
      · rename_i same
        obtain rfl := Text.compare_eq_eq_iff.mp same
        simp only [List.flatMap_cons, List.flatMap_append, weight_append,
          entryTags, List.map_cons, List.map_append, List.map_nil,
          List.flatMap_nil, List.append_nil]
        omega
      · simp only [List.flatMap_cons, List.flatMap_append, weight_append, ih]
        omega

theorem Block.weight_add (block : Block) (tag : Tag) :
    weight test ((block.add tag).tags.flatMap Tag.texts) ≤
      weight test (block.tags.flatMap Tag.texts) + weight test tag.texts := by
  have extended := Extensions.weight_add test
  cases tag <;>
    simp only [add, tags, extended, List.map_append, List.flatMap_append,
      weight_append, Option.toList_some, List.map_cons, List.map_nil,
      List.flatMap_cons, List.flatMap_nil, List.append_nil] <;> omega

theorem Block.weight_foldl_add (block : Block) (list : List Tag) :
    weight test ((list.foldl Block.add block).tags.flatMap Tag.texts) ≤
      weight test (block.tags.flatMap Tag.texts) +
        weight test (list.flatMap Tag.texts) := by
  induction list generalizing block with
  | nil => exact Nat.le_add_right _ _
  | cons tag rest ih =>
      have later := ih (block.add tag)
      have here := weight_add test block tag
      rw [List.foldl_cons, List.flatMap_cons, weight_append]
      omega

end Tags

/-! ## Reading a comment -/

theorem trimLines_sublist (lines : List Text) :
    (trimLines lines).Sublist lines := by
  have back := (List.dropWhile_sublist (·.isEmpty) :
    ((lines.dropWhile (·.isEmpty)).reverse.dropWhile _).Sublist _).reverse
  rw [List.reverse_reverse] at back
  exact back.trans (List.dropWhile_sublist _)

/-- Every line belongs to the description or to an entry. -/
theorem texts_entries (lines : List Line) :
    lines.map (·.text) =
      (entries lines).1.map (·.text) ++ (entries lines).2.flatMap
        Entry.texts := by
  induction lines with
  | nil => rfl
  | cons line rest ih =>
      rw [entries]
      cases line.isTag with
      | true => simp [ih, Entry.texts]
      | false => simp [ih]

private theorem weight_written {test : Char → Bool}
    (plain : ∀ c ∈ Tag.frame, test c = false) (noSign : test '@' = false)
    (tags : List Tag) :
    weight test (tags.map Tag.written) =
      weight test (tags.flatMap Tag.texts) := by
  have unsigned : ['@'].countP test = 0 := by simp [noSign]
  induction tags with
  | nil => rfl
  | cons tag rest ih =>
      rw [List.map_cons, List.flatMap_cons, weight_cons, weight_append, ih,
        Tag.countP_written plain, unsigned, Nat.zero_add]

private theorem weight_contentLines {test : Char → Bool}
    (plain : ∀ c ∈ Tag.frame, test c = false) (noSign : test '@' = false)
    (block : Block) :
    weight test block.contentLines =
      weight test block.descriptionLines +
        weight test (block.tags.flatMap Tag.texts) := by
  obtain ⟨gap, empty, whole⟩ := block.contentLines_eq_written
  have nothing : weight test gap = 0 := by
    apply Text.weight_eq_zero
    intro line member
    rw [empty line member, List.countP_nil]
  rw [whole, weight_append, weight_append, nothing, Nat.add_zero,
    weight_written plain noSign]

/-- What is read holds no more characters of a kind than the lines that it is
read from. -/
theorem weight_extract {test : Char → Bool}
    (plain : ∀ c ∈ Tag.frame, test c = false) (noSign : test '@' = false)
    (comment : Text) :
    weight test (extract comment).block.contentLines ≤
      weight test ((Line.all comment).map (·.text)) := by
  have described : weight test (describing comment) ≤
      weight test ((entries (Line.all comment)).1.map (·.text)) :=
    weight_sublist (trimLines_sublist _)
  have tagged : weight test ((extract comment).block.tags.flatMap Tag.texts) ≤
      weight test ((readings comment).flatMap Tag.texts) := by
    have added := Block.weight_foldl_add test {} (readings comment)
    have empty : weight test ((Block.tags {}).flatMap Tag.texts) = 0 := rfl
    rw [empty, Nat.zero_add] at added
    rw [block_extract]
    exact added
  have read := weight_readings plain (entries (Line.all comment)).2
  rw [weight_contentLines plain noSign, descriptionLines_extract, texts_entries,
    weight_append]
  exact Nat.add_le_add described (Nat.le_trans tagged read)

end Doc

end StyleAudit
