import ContextFree.Distinct

namespace ContextFree

namespace Names

-- Sorted by code points; repetitions stay.
def sort (names : List String) : List String := names.mergeSort

-- The set of the given names, in order of code points.
def sortedSet (names : List String) : List String := sort (distinct names)

theorem pairwise_sort (names : List String) : (sort names).Pairwise (· ≤ ·) := by
  have htrans (a b c : String) (hab : decide (a ≤ b) = true) (hbc : decide (b ≤ c) = true) :
      decide (a ≤ c) = true := by
    simp only [decide_eq_true_eq] at *
    exact String.le_trans hab hbc
  have htotal (a b : String) : (decide (a ≤ b) || decide (b ≤ a)) = true := by
    simpa using String.le_total a b
  simpa [sort] using List.pairwise_mergeSort htrans htotal names

theorem mem_sortedSet (names : List String) (name : String) :
    name ∈ sortedSet names ↔ name ∈ names := by
  rw [sortedSet, sort, List.mem_mergeSort, mem_distinct]

theorem length_sortedSet (names : List String) :
    (sortedSet names).length = (distinct names).length :=
  List.length_mergeSort _

theorem nodup_sortedSet (names : List String) : (sortedSet names).Nodup :=
  (List.mergeSort_perm _ _).nodup_iff.mpr (nodup_distinct names)

-- There is one way to put the names in order.
theorem sortedSet_eq_of_perm {names sorted : List String} (hperm : sorted.Perm (distinct names))
    (hsorted : sorted.Pairwise (· ≤ ·)) : sortedSet names = sorted := by
  have h : (sortedSet names).Perm sorted := (List.mergeSort_perm _ _).trans hperm.symm
  exact h.eq_of_pairwise (fun _ _ _ _ => String.le_antisymm) (pairwise_sort _) hsorted

end Names

end ContextFree
