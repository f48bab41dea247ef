import StyleAudit.Text.Order

/-!
# The order of texts is linear

Comparing a text with itself finds them equal, comparing in the other direction
turns the answer around, and what stands before a text stands before all that
follow it.
-/

namespace StyleAudit

open Std (TransCmp)

theorem transCmp_on {α β : Type} {cmp : β → β → Ordering} (trans : TransCmp cmp)
    (key : α → β) :
    TransCmp fun left right => cmp (key left) (key right) where
  eq_swap := trans.eq_swap
  isLE_trans := trans.isLE_trans

theorem transCmp_nat {α : Type} (key : α → Nat) :
    TransCmp fun left right => Ord.compare (key left) (key right) :=
  transCmp_on inferInstance key

namespace Text

theorem compare_self (text : Text) : compare text text = .eq := by
  induction text with
  | nil => rfl
  | cons c rest ih =>
      have same : Ord.compare c.toNat c.toNat = .eq := Nat.compare_eq_eq.mpr rfl
      rw [compare, ih, same]
      rfl

theorem swap_compare (left right : Text) :
    (compare left right).swap = compare right left := by
  fun_induction compare left right with
  | case1 => rfl
  | case2 => rfl
  | case3 => rfl
  | case4 a left b right ih =>
      rw [Ordering.swap_then, ih, ← Std.OrientedCmp.eq_swap, compare]

theorem compare_eq_gt_of_lt {left right : Text}
    (before : compare left right = .lt) :
    compare right left = .gt := by
  rw [← swap_compare, before]
  rfl

theorem compare_eq_eq_iff {left right : Text} : compare left right = .eq ↔
    left = right := by
  constructor
  · intro same
    fun_induction compare left right with
    | case1 => rfl
    | case2 => cases same
    | case3 => cases same
    | case4 a left b right ih =>
        obtain ⟨first, later⟩ := Ordering.then_eq_eq.mp same
        rw [ih later, Char.toNat_inj.mp (Nat.compare_eq_eq.mp first)]
  · rintro rfl
    exact compare_self left

theorem transCmp_compare : TransCmp compare := by
  have lexicographic : compare =
      List.compareLex fun left right => Ord.compare left.toNat right.toNat := by
    funext left right
    fun_induction compare left right with
    | case1 => rfl
    | case2 => rfl
    | case3 => rfl
    | case4 a left b right ih => rw [ih, List.compareLex_cons_cons]
  rw [lexicographic]
  have characters := transCmp_nat Char.toNat
  infer_instance

theorem compare_lt_trans {first second third : Text}
    (before : compare first second = .lt) (after : compare second third = .lt) :
    compare first third = .lt :=
  have := transCmp_compare
  Std.TransCmp.lt_trans before after

/-! ## Sorted entries -/

section Entries

variable {α : Type}

/-- Each key is in front of those that follow it. -/
def Ascending (entries : List (Text × α)) : Prop :=
  entries.Pairwise fun left right => compare left.1 right.1 = .lt

instance (entries : List (Text × α)) : Decidable (Ascending entries) :=
  inferInstanceAs (Decidable (entries.Pairwise _))

private theorem insertEntry_of_last {key : Text} {value : α}
    {list : List (Text × α)}
    (last : ∀ entry ∈ list, compare entry.1 key = .lt) :
    insertEntry key value list = list ++ [(key, value)] := by
  induction list with
  | nil => rfl
  | cons entry rest ih =>
      obtain ⟨other, kept⟩ := entry
      have behind : compare key other = .gt :=
        compare_eq_gt_of_lt (last _ List.mem_cons_self)
      rw [insertEntry, behind]
      exact congrArg _
        (ih fun entry member => last entry (List.mem_cons_of_mem _ member))

private theorem foldl_insertEntry_of_ascending {front back : List (Text × α)}
    (ascending : Ascending (front ++ back)) :
    back.foldl (fun sorted entry => insertEntry entry.1 entry.2 sorted) front =
      front ++ back := by
  induction back generalizing front with
  | nil => rw [List.foldl_nil, List.append_nil]
  | cons entry rest ih =>
      have last : ∀ other ∈ front, compare other.1 entry.1 = .lt :=
        fun other member => (List.pairwise_append.mp ascending).2.2 other
          member entry List.mem_cons_self
      rw [List.append_cons] at ascending
      rw [List.foldl_cons, insertEntry_of_last last, ih ascending,
        ← List.append_cons]

theorem sortedEntries_of_ascending {entries : List (Text × α)}
    (ascending : Ascending entries) : sortedEntries entries = entries :=
  @foldl_insertEntry_of_ascending α [] entries ascending

end Entries

end Text

end StyleAudit
