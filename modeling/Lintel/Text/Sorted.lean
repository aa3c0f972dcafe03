/-!
# Sorted sets of texts

Names and paths are listed in the order of their code points, each once.
-/

namespace Lintel

/-- Texts in order, each once. -/
def sortedSet (xs : List String) : List String :=
  xs.mergeSort.eraseDups

/-- **Nothing is lost or added**: a sorted set has the elements it was made from. -/
theorem mem_sortedSet {x : String} {xs : List String} : x ∈ sortedSet xs ↔ x ∈ xs := by
  simp [sortedSet]

/-- No text is left that stood before. -/
theorem nodup_eraseDups (xs : List String) : xs.eraseDups.Nodup := by
  induction hn : xs.length using Nat.strongRecOn generalizing xs with
  | _ n ih =>
    cases xs with
    | nil => exact List.Pairwise.nil
    | cons x xs =>
      have hless : (xs.filter fun y => !y == x).length < n := by
        rw [← hn]
        exact Nat.lt_succ_of_le (List.length_filter_le _ _)
      rw [List.eraseDups_cons, List.nodup_cons, List.mem_eraseDups]
      refine ⟨fun hmem => ?_, ih _ hless _ rfl⟩
      have hne := (List.mem_filter.mp hmem).2
      rw [beq_self_eq_true] at hne
      cases hne

/-- **Nothing comes twice.** -/
theorem nodup_sortedSet (xs : List String) : (sortedSet xs).Nodup := nodup_eraseDups _

/-- What is left stands in the order in which it stood before. -/
theorem eraseDups_sublist (xs : List String) : xs.eraseDups.Sublist xs := by
  induction hn : xs.length using Nat.strongRecOn generalizing xs with
  | _ n ih =>
    cases xs with
    | nil => exact List.Sublist.slnil
    | cons x xs =>
      have hless : (xs.filter fun y => !y == x).length < n := by
        rw [← hn]
        exact Nat.lt_succ_of_le (List.length_filter_le _ _)
      rw [List.eraseDups_cons]
      exact ((ih _ hless _ rfl).trans List.filter_sublist).cons_cons x

/-- **Each text comes before those after it.** -/
theorem pairwise_sortedSet (xs : List String) : (sortedSet xs).Pairwise (· < ·) := by
  have hsorted : xs.mergeSort.Pairwise (· ≤ ·) := by
    refine (List.pairwise_mergeSort (fun a b c hab hbc => ?_) (fun a b => ?_) xs).imp
      fun h => of_decide_eq_true h
    · exact decide_eq_true (String.le_trans (of_decide_eq_true hab) (of_decide_eq_true hbc))
    · rw [Bool.or_eq_true, decide_eq_true_eq, decide_eq_true_eq]
      exact String.le_total a b
  have hle : (sortedSet xs).Pairwise (· ≤ ·) := hsorted.sublist (eraseDups_sublist _)
  exact (hle.and (nodup_sortedSet xs)).imp fun h => Std.lt_of_le_of_ne h.1 h.2

end Lintel
