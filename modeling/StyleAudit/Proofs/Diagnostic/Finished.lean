import StyleAudit.Proofs.Diagnostic.Ties

/-!
# A finished list stays as it is

Findings are put in order and repeats that stand side by side are dropped.  The
tied findings of a sorted list stand together, so dropping repeats among all
findings drops the same repeats among those that are tied, and nothing is left
to do when a finished list is finished again.
-/

namespace StyleAudit

section Repeats

variable {α : Type} [DecidableEq α]

theorem dropRepeats_of_isChain {list : List α}
    (changes : list.IsChain (· ≠ ·)) :
    dropRepeats list = list :=
  (dropRepeats_sublist list).antisymm
    (sublist_dropRepeats changes (List.Sublist.refl list))

private theorem dropRepeats_cons_self (first : α) (rest : List α) :
    dropRepeats (first :: first :: rest) = dropRepeats (first :: rest) :=
  if_pos rfl

private theorem dropRepeats_cons_of_ne {first second : α}
    (different : first ≠ second) (rest : List α) :
    dropRepeats (first :: second :: rest) =
      first :: dropRepeats (second :: rest) :=
  if_neg different

/-- Where the selected members stand together, repeats may be dropped before or
after the selection.  A selected member in front of one that is not is the last
of them. -/
theorem filter_dropRepeats {selected : α → Bool} {list : List α}
    (together : ∀ a b c, [a, b, c].Sublist list → selected a = true →
      selected c = true →
      selected b = true) :
    (dropRepeats list).filter selected =
      dropRepeats (list.filter selected) := by
  fun_induction dropRepeats list with
  | case1 => rfl
  | case2 only =>
      rw [List.filter_singleton]
      cases selected only <;> rfl
  | case3 first rest ih =>
      have later := ih fun a b c within => together a b c (within.cons first)
      rw [later]
      cases here : selected first with
      | true => simp only [List.filter_cons_of_pos here, dropRepeats_cons_self]
      | false => simp only [List.filter_cons_of_neg (ne_true_of_eq_false here)]
  | case4 first second rest different ih =>
      have later := ih fun a b c within => together a b c (within.cons first)
      cases here : selected first with
      | false =>
          rw [List.filter_cons_of_neg (ne_true_of_eq_false here),
            List.filter_cons_of_neg (ne_true_of_eq_false here), later]
      | true =>
          rw [List.filter_cons_of_pos here, List.filter_cons_of_pos here, later]
          cases next : selected second with
          | true =>
              rw [List.filter_cons_of_pos next,
                dropRepeats_cons_of_ne different]
          | false =>
              have none : rest.filter selected = [] := by
                apply List.filter_eq_nil_iff.mpr
                intro third inRest chosen
                have between : selected second = true :=
                  together first second third
                    (((List.singleton_sublist.mpr inRest).cons_cons
                      second).cons_cons first)
                    here chosen
                rw [next] at between
                cases between
              rw [List.filter_cons_of_neg (ne_true_of_eq_false next), none]
              rfl

end Repeats

namespace Diagnostic

/-- The findings of one list as another one shows them in the end. -/
structure Finished (found listed : List Diagnostic) : Prop where
  /-- The findings are in order. -/
  ascending : listed.Pairwise fun left right => (compare left right).isLE = true
  /-- No finding is lost, and none is added. -/
  same : ∀ diagnostic, diagnostic ∈ listed ↔ diagnostic ∈ found
  /-- Tied findings are shown as they were collected, each run of equal ones as
  one. -/
  ties : ∀ diagnostic : Diagnostic,
    listed.filter diagnostic.isTied =
      dropRepeats (found.filter diagnostic.isTied)
  /-- No finding is followed by itself. -/
  changing : listed.IsChain (· ≠ ·)

private theorem isTied_of_between {diagnostic first second third : Diagnostic}
    (below : first.le second = true) (above : second.le third = true)
    (firstTied : diagnostic.isTied first = true)
    (thirdTied : diagnostic.isTied third = true) :
    diagnostic.isTied second = true := by
  have self := isTied_self diagnostic
  have upward : diagnostic.le second = true :=
    le_trans (le_of_isTied self firstTied) below
  have downward : second.le diagnostic = true :=
    le_trans above (le_of_isTied thirdTied self)
  have trans := transCmp_compare
  rw [isTied, beq_iff_eq]
  exact Std.OrientedCmp.isLE_antisymm upward downward

private theorem filter_isTied_finish (diagnostic : Diagnostic)
    (found : List Diagnostic) :
    (finish found).filter diagnostic.isTied =
      dropRepeats (found.filter diagnostic.isTied) := by
  rw [finish, filter_dropRepeats, filter_isTied_mergeSort]
  intro first second third within firstTied thirdTied
  have sorted :=
    (List.pairwise_mergeSort (@le_trans) le_total found).sublist within
  simp only [List.pairwise_cons, List.mem_cons] at sorted
  exact isTied_of_between (sorted.1 second (.inl rfl))
    (sorted.2.1 third (.inl rfl)) firstTied thirdTied

theorem ascending_finish (found : List Diagnostic) :
    (finish found).Pairwise fun left right => left.le right = true :=
  (List.pairwise_mergeSort (@le_trans) le_total found).sublist
    (dropRepeats_sublist _)

private theorem finished_finish (found : List Diagnostic) :
    Finished found (finish found) where
  ascending := ascending_finish found
  same := fun _ => mem_finish
  ties := fun diagnostic => filter_isTied_finish diagnostic found
  changing := isChain_dropRepeats _

theorem finish_finish (found : List Diagnostic) :
    finish (finish found) = finish found := by
  have sorted := List.mergeSort_of_pairwise (ascending_finish found)
  rw [finish, sorted]
  exact dropRepeats_of_isChain (isChain_dropRepeats _)

/-- Findings are compared consistently, and finished once and for all.
Comparing in the other direction turns the answer around, and what comes before
a finding comes before all that follow it, whatever notes they have.  So a list
can be put in order, with tied findings as they were collected and no finding
twice in a row, and a report of a finished list is the report of the list. -/
theorem finish_final :
    (∀ left right, compare left right = (compare right left).swap) ∧
    (∀ left middle right, (compare left middle).isLE = true →
      (compare middle right).isLE = true → (compare left right).isLE = true) ∧
    ∀ found, Finished found (finish found) ∧ finish (finish found) =
      finish found ∧
      ∀ registry, Report.ofFindings registry (finish found) =
        Report.ofFindings registry found := by
  refine ⟨?_, ?_, ?_⟩
  · intro left right
    exact transCmp_compare.eq_swap
  · intro left middle right before after
    exact transCmp_compare.isLE_trans before after
  · intro found
    refine ⟨finished_finish found, finish_finish found, ?_⟩
    intro registry
    rw [Report.ofFindings, finish_finish]
    rfl

/-- A finding without a note, a repeated one with one note and one that is tied
with it, and a finding with two notes. -/
theorem finish_final_notes :
    let bare := { lackOf 7 with related := [] }
    let twice :=
      { lackOf 7 with related := (lackOf 7).related ++ (lackOf 9).related }
    let found := [bare, lackOf 9, lackOf 9, lackOf 7, twice]
    compare bare (lackOf 7) = .lt ∧ compare (lackOf 7) twice = .lt ∧
      (compare bare twice).isLE = true ∧ compare twice bare =
        (compare bare twice).swap ∧
      Finished found (finish found) ∧
      finish found = [bare, lackOf 9, lackOf 7, twice] ∧
      finish (finish found) = finish found := by
  intro bare twice found
  obtain ⟨swapped, transitive, finished⟩ := finish_final
  have first : compare bare (lackOf 7) = .lt := by decide
  have second : compare (lackOf 7) twice = .lt := by decide
  have both :=
    transitive bare (lackOf 7) twice (by rw [first]; rfl) (by rw [second]; rfl)
  have shown : finish found = [bare, lackOf 9, lackOf 7, twice] := by
    rw [finish, List.mergeSort_of_pairwise (by decide)]
    decide
  exact ⟨first, second, both, swapped twice bare, (finished found).1, shown,
    (finished found).2.1⟩

end Diagnostic

end StyleAudit
