import Mathlib.Data.List.Chain
import StyleAudit.Proofs.Diagnostic.Order

/-!
# Findings that the order does not tell apart

The order does not look at all there is to a finding, so two different findings
may be tied.  Sorting leaves tied findings in the order in which they were
collected.  A report then shows that order, and a repeat stays in it if a tied
finding was collected in between, since only neighbours are compared.
-/

namespace StyleAudit

/-! ## Repeats that are no neighbours -/

theorem nodup_of_isChain {α : Type} {list : List α}
    (changes : list.IsChain (· ≠ ·))
    (never : ∀ a b, [a, b, a].Sublist list → a = b) : list.Nodup := by
  induction list with
  | nil => exact List.nodup_nil
  | cons first rest ih =>
      refine List.nodup_cons.mpr ⟨?_, ?_⟩
      · intro again
        cases rest with
        | nil => exact List.not_mem_nil again
        | cons second rest =>
            have different : first ≠ second :=
              (List.isChain_cons.mp changes).1 second rfl
            rcases List.mem_cons.mp again with same | later
            · exact different same
            · have returns : [first].Sublist rest :=
                List.singleton_sublist.mpr later
              exact different
                (never first second
                  ((returns.cons_cons second).cons_cons first))
      · apply ih changes.tail
        intro a b within
        exact never a b (within.cons first)

section Repeats

variable {α : Type} [DecidableEq α]

theorem dropRepeats_sublist (list : List α) :
    (dropRepeats list).Sublist list := by
  fun_induction dropRepeats list with
  | case1 => exact List.Sublist.refl []
  | case2 only => exact List.Sublist.refl [only]
  | case3 first rest ih => exact ih.cons first
  | case4 first second rest _ ih => exact ih.cons_cons first

theorem find?_dropRepeats (found : α → Bool) (list : List α) :
    (dropRepeats list).find? found = list.find? found := by
  fun_induction dropRepeats list with
  | case1 => rfl
  | case2 only => rfl
  | case3 first rest ih =>
      rw [ih]
      cases here : found first with
      | true => rw [List.find?_cons_of_pos here, List.find?_cons_of_pos here]
      | false => exact (List.find?_cons_of_neg (ne_true_of_eq_false here)).symm
  | case4 first second rest _ ih => rw [List.find?_cons, List.find?_cons, ih]

private theorem head?_dropRepeats (list : List α) :
    (dropRepeats list).head? = list.head? := by
  fun_induction dropRepeats list with
  | case1 => rfl
  | case2 only => rfl
  | case3 first rest ih => exact ih
  | case4 first second rest _ ih => rfl

theorem isChain_dropRepeats (list : List α) :
    (dropRepeats list).IsChain (· ≠ ·) := by
  fun_induction dropRepeats list with
  | case1 => exact List.isChain_nil
  | case2 only => exact List.isChain_singleton only
  | case3 first rest ih => exact ih
  | case4 first second rest different ih =>
      refine List.isChain_cons.mpr ⟨?_, ih⟩
      intro next isNext
      rw [head?_dropRepeats] at isNext
      obtain rfl : second = next := Option.some.inj isNext
      exact different

/-- What never stays the same from one member to the next loses nothing when
repeats are dropped. -/
theorem sublist_dropRepeats {changing list : List α}
    (changes : changing.IsChain (· ≠ ·)) (within : changing.Sublist list) :
    changing.Sublist (dropRepeats list) := by
  fun_induction dropRepeats list generalizing changing with
  | case1 => exact within
  | case2 only => exact within
  | case3 first rest ih =>
      apply ih changes
      cases within with
      | cons _ later => exact later
      | cons_cons _ later =>
          apply List.Sublist.cons_cons
          cases later with
          | cons _ further => exact further
          | cons_cons _ further =>
              exact absurd rfl ((List.isChain_cons.mp changes).1 first rfl)
  | case4 first second rest _ ih =>
      cases within with
      | cons _ later => exact (ih changes later).cons first
      | cons_cons _ later => exact (ih changes.tail later).cons_cons first

/-- A repeat is left just if something else stands between it and the first. -/
theorem nodup_dropRepeats_iff {list : List α} :
    (dropRepeats list).Nodup ↔ ∀ a b, [a, b, a].Sublist list → a = b := by
  constructor
  · intro nodup a b within
    apply Decidable.by_contra
    intro different
    have changes : [a, b, a].IsChain (· ≠ ·) := by
      simp [different, Ne.symm different]
    have kept := (sublist_dropRepeats changes within).nodup nodup
    simp at kept
  · intro never
    apply nodup_of_isChain (isChain_dropRepeats list)
    intro a b within
    exact never a b (within.trans (dropRepeats_sublist list))

end Repeats

namespace Diagnostic

/-! ## Ties -/

theorem Alike.compare_eq {left right : Diagnostic} (alike : Alike left right) :
    compare left right = .eq := by
  have places : Location.compare left.location right.location = .eq := by
    rw [Location.compare, alike.file, alike.line, alike.column,
      Text.compare_self, Nat.compare_eq_eq.mpr rfl, Nat.compare_eq_eq.mpr rfl]
    rfl
  have suggestions : compareSuggestion left.suggestion right.suggestion =
      .eq := by
    have trans := transCmp_compareSuggestion
    rw [alike.suggestion]
    exact Std.ReflCmp.compare_self
  rw [compare, places, alike.severity, alike.code, alike.message, alike.stop,
    suggestions, alike.related, Text.compare_self, Nat.compare_eq_eq.mpr rfl,
    Nat.compare_eq_eq.mpr rfl, Nat.compare_eq_eq.mpr rfl]
  rfl

private theorem alike_iff_compare {left right : Diagnostic} :
    Alike left right ↔ compare left right = .eq :=
  ⟨Alike.compare_eq, alike_of_compare⟩

/-- Is the other finding tied with this one? -/
def isTied (diagnostic other : Diagnostic) : Bool :=
  compare diagnostic other == .eq

theorem isTied_iff {diagnostic other : Diagnostic} :
    diagnostic.isTied other = true ↔ Alike diagnostic other := by
  rw [isTied, beq_iff_eq, alike_iff_compare]

theorem isTied_self (diagnostic : Diagnostic) :
    diagnostic.isTied diagnostic = true := by
  rw [isTied, compare_self]
  rfl

theorem le_of_isTied {diagnostic left right : Diagnostic}
    (leftTied : diagnostic.isTied left = true)
    (rightTied : diagnostic.isTied right = true) :
    left.le right = true := by
  have trans := transCmp_compare
  rw [isTied, beq_iff_eq] at leftTied rightTied
  have back : compare left diagnostic = .eq := Std.OrientedCmp.eq_symm leftTied
  rw [le, Std.TransCmp.congr_left back, rightTied]
  rfl

/-- Sorting leaves tied findings as they were collected. -/
theorem filter_isTied_mergeSort (diagnostic : Diagnostic)
    (found : List Diagnostic) :
    (found.mergeSort le).filter diagnostic.isTied =
      found.filter diagnostic.isTied := by
  have ties : (found.filter diagnostic.isTied).Pairwise fun left right =>
      left.le right = true := by
    apply List.pairwise_of_forall_mem_list
    intro left inLeft right inRight
    exact le_of_isTied (List.mem_filter.mp inLeft).2
      (List.mem_filter.mp inRight).2
  have kept :=
    (List.sublist_mergeSort (@le_trans) le_total ties
      List.filter_sublist).filter
    diagnostic.isTied
  simp only [List.filter_filter, Bool.and_self] at kept
  have length :=
    ((List.mergeSort_perm found le).filter diagnostic.isTied).length_eq
  exact (kept.eq_of_length length.symm).symm

theorem find?_isTied_finish (diagnostic : Diagnostic)
    (found : List Diagnostic) :
    (finish found).find? diagnostic.isTied = found.find? diagnostic.isTied := by
  rw [finish, find?_dropRepeats, ← List.head?_filter, filter_isTied_mergeSort,
    List.head?_filter]

/-- A report without ties lists its findings in one way only. -/
theorem finish_eq_of_perm {found other : List Diagnostic}
    (perm : other.Perm found)
    (apart : ∀ left ∈ found, ∀ right ∈ found, Alike left right → left = right) :
    finish other = finish found := by
  have separated : ∀ left ∈ found,
      ∀ right ∈ found, compare left right = .eq → left = right :=
    fun left inLeft right inRight same =>
      apart left inLeft right inRight (alike_of_compare same)
  have increasing := pairwise_finish separated
  have otherIncreasing : (finish other).Pairwise fun left right =>
      compare left right = .lt := by
    apply pairwise_finish
    intro left inLeft right inRight
    exact separated left (perm.subset inLeft) right (perm.subset inRight)
  have ne : ∀ {left right : Diagnostic}, compare left right = .lt →
      left ≠ right := by
    rintro left right before rfl
    rw [compare_self] at before
    cases before
  have members : (finish other).Perm (finish found) := by
    apply (List.perm_ext_iff_of_nodup (otherIncreasing.imp ne)
      (increasing.imp ne)).mpr
    intro diagnostic
    rw [mem_finish, mem_finish, perm.mem_iff]
  refine List.Perm.eq_of_pairwise ?_ otherIncreasing increasing members
  intro left right _ _ before after
  have trans := transCmp_compare
  exact absurd (Std.OrientedCmp.gt_of_lt after) (by rw [before]; exact nofun)

/-- Of two tied findings a report shows first the one that was collected
first. -/
theorem finish_ne_of_swapped {left right : Diagnostic}
    (alike : Alike left right) (different : left ≠ right)
    (rest : List Diagnostic) :
    finish (left :: right :: rest) ≠ finish (right :: left :: rest) := by
  intro same
  have found := find?_isTied_finish left (left :: right :: rest)
  rw [same, find?_isTied_finish, List.find?_cons_of_pos (isTied_iff.mpr alike),
    List.find?_cons_of_pos (isTied_self left)] at found
  exact different (Option.some.inj found).symm

/-- A repeat stays in a report just if a tied finding was collected in
between. -/
theorem nodup_finish_iff {found : List Diagnostic} :
    (finish found).Nodup ↔
      ∀ left right, [left, right, left].Sublist found → Alike left right →
        left = right := by
  rw [finish, nodup_dropRepeats_iff]
  constructor
  · intro never left right within alike
    apply never left right
    have leftTied := isTied_self left
    have rightTied := isTied_iff.mpr alike
    refine List.sublist_mergeSort (@le_trans) le_total ?_ within
    simp [le_of_isTied leftTied rightTied, le_of_isTied rightTied leftTied,
      le_of_isTied leftTied leftTied]
  · intro never left right within
    have sorted :=
      (List.pairwise_mergeSort (@le_trans) le_total found).sublist within
    obtain ⟨below, above⟩ : left.le right = true ∧ right.le left = true := by
      simp only [List.pairwise_cons, List.mem_cons] at sorted
      exact ⟨sorted.1 right (.inl rfl), sorted.2.1 left (.inl rfl)⟩
    have trans := transCmp_compare
    have alike : Alike left right :=
      alike_of_compare (Std.OrientedCmp.isLE_antisymm below above)
    refine never left right ?_ alike
    have tied := within.filter left.isTied
    rw [filter_isTied_mergeSort] at tied
    simp only [List.filter_cons, isTied_self left, isTied_iff.mpr alike,
      if_true, List.filter_nil] at tied
    exact tied.trans List.filter_sublist

private theorem exists_perm_cons_cons {left right : Diagnostic}
    {found : List Diagnostic} (inLeft : left ∈ found) (inRight : right ∈ found)
    (different : left ≠ right) :
    ∃ rest, (left :: right :: rest).Perm found := by
  have first := List.perm_cons_erase inLeft
  have later : right ∈ found.erase left :=
    (List.mem_erase_of_ne (Ne.symm different)).mpr inRight
  have second := (List.perm_cons_erase later).cons left
  exact ⟨_, (first.trans second).symm⟩

/-- All orders of collection give the same report just if no two different
findings are tied.  And a report has no finding twice just if, between a finding
and its repeat, no other finding was collected that is tied with it. -/
theorem finish_independent_iff (found : List Diagnostic) :
    ((∀ other : List Diagnostic, other.Perm found →
      finish other = finish found) ↔
      ∀ left ∈ found, ∀ right ∈ found, Alike left right → left = right) ∧
    ((finish found).Nodup ↔
      ∀ left right, [left, right, left].Sublist found → Alike left right →
        left = right) := by
  refine ⟨⟨?_, ?_⟩, nodup_finish_iff⟩
  · intro independent left inLeft right inRight alike
    apply Decidable.by_contra
    intro different
    obtain ⟨rest, perm⟩ := exists_perm_cons_cons inLeft inRight different
    apply finish_ne_of_swapped alike different rest
    rw [independent _ perm,
      independent _ ((List.Perm.swap left right rest).trans perm)]
  · intro apart other perm
    exact finish_eq_of_perm perm apart

/-- The finding that a rule lacks a member of an interface, which ends at the
given offset of its file. -/
def lackOf (stop : Nat) : Diagnostic :=
  { severity := .error, code := .interfaceConformance,
    message := "missing member: size",
    location := ⟨"b.scss".toList, ⟨⟨0, 1, 1⟩, ⟨7, 1, 8⟩⟩⟩,
    related :=
      [⟨⟨"a.scss".toList, ⟨⟨0, 1, 1⟩, ⟨stop, 1, stop + 1⟩⟩⟩, "declared here"⟩] }

/-- The order looks at the beginning of a note only, so these findings come out
as they were collected, and the repeat is not dropped. -/
theorem finish_dependent_lack :
    [lackOf 7, lackOf 9].Perm [lackOf 9, lackOf 7] ∧
    finish [lackOf 7, lackOf 9] ≠ finish [lackOf 9, lackOf 7] ∧
    finish [lackOf 7, lackOf 9, lackOf 7] = [lackOf 7, lackOf 9, lackOf 7] := by
  refine ⟨List.Perm.swap _ _ _, ?_, ?_⟩
  · have alike : Alike (lackOf 7) (lackOf 9) := alike_of_compare (by decide)
    exact finish_ne_of_swapped alike (by decide) []
  · rw [finish, List.mergeSort_of_pairwise (by decide)]
    decide

end Diagnostic

end StyleAudit
