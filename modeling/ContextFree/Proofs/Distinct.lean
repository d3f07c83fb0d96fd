import ContextFree.Distinct
import Mathlib.Data.List.Basic
import Mathlib.Data.List.Induction

namespace ContextFree

variable {α : Type} [DecidableEq α]

theorem merge_append (items others more : List α) :
    merge items (others ++ more) = merge (merge items others) more := by
  induction others generalizing items with
  | nil => rfl
  | cons other others ih => rw [List.cons_append, merge, ih, merge]

-- The last one is added if it did not occur before.
theorem distinct_append_singleton (items : List α) (a : α) :
    distinct (items ++ [a]) = if a ∈ items then distinct items else distinct items ++ [a] := by
  rw [distinct, merge_append]
  simp only [merge, ← distinct.eq_1, mem_distinct]

-- Those of a list that are kept come in the order in which they occur in it for the first time.
theorem pairwise_idxOf_distinct_filter (keep : α → Bool) (items : List α) :
    (distinct (items.filter keep)).Pairwise fun a b => items.idxOf a < items.idxOf b := by
  induction items using List.reverseRecOn with
  | nil => exact .nil
  | append_singleton items last ih =>
      have hmem : ∀ a ∈ distinct (items.filter keep), a ∈ items := fun a ha =>
        (List.mem_filter.mp ((mem_distinct _ a).mp ha)).1
      -- one more at the end does not move those in front of it
      have hbefore : (distinct (items.filter keep)).Pairwise fun a b =>
          (items ++ [last]).idxOf a < (items ++ [last]).idxOf b := by
        refine ih.imp_of_mem fun ha hb hlt => ?_
        rwa [List.idxOf_append_of_mem (hmem _ ha), List.idxOf_append_of_mem (hmem _ hb)]
      rw [List.filter_append]
      cases hkeep : keep last with
      | false => simpa [hkeep] using hbefore
      | true =>
          simp only [List.filter_cons, hkeep, if_true, List.filter_nil, distinct_append_singleton]
          split
          · exact hbefore
          · rename_i hnew
            have hlast : last ∉ items := fun hm => hnew (List.mem_filter.mpr ⟨hm, hkeep⟩)
            refine List.pairwise_append.mpr ⟨hbefore, List.pairwise_singleton _ _, ?_⟩
            intro a ha b hb
            rw [List.mem_singleton.mp hb, List.idxOf_append_of_mem (hmem a ha),
              List.idxOf_append_of_notMem hlast]
            have := List.idxOf_lt_length_of_mem (hmem a ha)
            omega

end ContextFree
