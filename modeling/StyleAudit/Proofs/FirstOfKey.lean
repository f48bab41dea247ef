/-!
# The first of each key

Several lists are made by adding items one after another, each unless an earlier
one has its key: the members of a contract by their names, the violations of a
selector by their codes, and the modifiers of a declaration by themselves.
-/

namespace StyleAudit

variable {α β : Type} [BEq β] (key : α → β)

/-- Adds an item unless another one has its key. -/
def addByKey (kept : List α) (item : α) : List α :=
  if kept.any (key · == key item) then kept else kept ++ [item]

variable [LawfulBEq β]

/-- A key is looked up as its first item. -/
theorem find?_foldl_addByKey (sought : β) (items kept : List α) :
    (items.foldl (addByKey key) kept).find? (key · == sought) =
      (kept ++ items).find? (key · == sought) := by
  induction items generalizing kept with
  | nil => rw [List.foldl_nil, List.append_nil]
  | cons item items ih =>
      rw [List.foldl_cons, ih, addByKey]
      split
      · rename_i known
        rw [List.find?_append, List.find?_append, List.find?_cons]
        split
        · rename_i isSought
          rw [← List.isSome_find?, eq_of_beq isSought] at known
          rw [Option.or_of_isSome known, Option.or_of_isSome known]
        · rfl
      · rw [List.append_assoc, List.singleton_append]

/-- No key is lost. -/
theorem mem_map_foldl_addByKey_iff {sought : β} (items kept : List α) :
    sought ∈ (items.foldl (addByKey key) kept).map key ↔
      sought ∈ (kept ++ items).map key := by
  have lookup (list : List α) :
      sought ∈ list.map key ↔ (list.find? (key · == sought)).isSome = true := by
    rw [List.find?_isSome, List.mem_map]
    simp only [beq_iff_eq]
  rw [lookup, lookup, find?_foldl_addByKey]

theorem nodup_foldl_addByKey (items kept : List α)
    (distinct : (kept.map key).Nodup) :
    ((items.foldl (addByKey key) kept).map key).Nodup := by
  induction items generalizing kept with
  | nil => exact distinct
  | cons item items ih =>
      rw [List.foldl_cons, addByKey]
      split
      · exact ih kept distinct
      · rename_i unknown
        apply ih
        rw [List.map_append, List.nodup_append]
        refine ⟨distinct, by simp, ?_⟩
        rintro _ inKept _ isItem rfl
        obtain ⟨other, member, same⟩ := List.mem_map.mp inKept
        rw [List.map_singleton, List.mem_singleton] at isItem
        exact unknown
          (List.any_eq_true.mpr
            ⟨other, member, by rw [same, isItem, beq_self_eq_true]⟩)

/-- Where no key comes twice, the items are those that their keys are looked up
as. -/
theorem find?_eq_some_iff_mem {items : List α}
    (distinct : (items.map key).Nodup) {item : α} :
    items.find? (key · == key item) = some item ↔ item ∈ items := by
  constructor
  · exact List.mem_of_find?_eq_some
  · intro member
    obtain ⟨front, back, rfl⟩ := List.append_of_mem member
    rw [List.map_append, List.nodup_append] at distinct
    refine List.find?_eq_some_iff_append.mpr
      ⟨beq_self_eq_true _, front, back, rfl, ?_⟩
    intro other inFront
    have different : key other ≠ key item :=
      distinct.2.2 _ (List.mem_map_of_mem inFront) _ (by simp)
    simpa using different

/-- What is kept is the first item of its key. -/
theorem mem_foldl_addByKey_iff {items : List α} {item : α} :
    item ∈ items.foldl (addByKey key) [] ↔ items.find? (key · == key item) =
      some item := by
  rw [← find?_eq_some_iff_mem key
    (nodup_foldl_addByKey key items [] List.nodup_nil), find?_foldl_addByKey,
    List.nil_append]

end StyleAudit
