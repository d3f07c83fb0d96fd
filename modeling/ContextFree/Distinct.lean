namespace ContextFree

-- Finite sets kept as lists without repetitions, in order of arrival.

-- The members of `items`, then those of `others` that are new.
def merge [DecidableEq α] (items : List α) : List α → List α
  | [] => items
  | other :: others => merge (if other ∈ items then items else items ++ [other]) others

-- Each member once, at its first occurrence.
def distinct [DecidableEq α] (items : List α) : List α := merge [] items

theorem mem_merge [DecidableEq α] (items others : List α) (a : α) :
    a ∈ merge items others ↔ a ∈ items ∨ a ∈ others := by
  induction others generalizing items with
  | nil => simp [merge]
  | cons other others ih =>
    rw [merge, ih]
    split
    · rename_i h
      simp only [List.mem_cons]
      constructor
      · rintro (h' | h') <;> simp [h']
      · rintro (h' | rfl | h')
        · exact .inl h'
        · exact .inl h
        · exact .inr h'
    · simp only [List.mem_append, List.mem_cons, List.not_mem_nil, or_false, or_assoc]

theorem nodup_merge [DecidableEq α] (items others : List α) (h : items.Nodup) :
    (merge items others).Nodup := by
  induction others generalizing items with
  | nil => exact h
  | cons other others ih =>
    rw [merge]
    apply ih
    split
    · exact h
    · rename_i hn
      rw [List.nodup_append]
      refine ⟨h, by simp, ?_⟩
      intro a ha b hb
      simp only [List.mem_cons, List.not_mem_nil, or_false] at hb
      subst hb
      rintro rfl
      exact hn ha

-- Merging only ever appends.
theorem exists_merge_eq_append [DecidableEq α] (items others : List α) :
    ∃ added, merge items others = items ++ added := by
  induction others generalizing items with
  | nil => exact ⟨[], by simp [merge]⟩
  | cons other others ih =>
    rw [merge]
    split
    · exact ih items
    · obtain ⟨added, h⟩ := ih (items ++ [other])
      exact ⟨other :: added, by rw [h]; simp⟩

theorem mem_distinct [DecidableEq α] (items : List α) (a : α) : a ∈ distinct items ↔ a ∈ items := by
  simp [distinct, mem_merge]

theorem nodup_distinct [DecidableEq α] (items : List α) : (distinct items).Nodup :=
  nodup_merge [] items List.nodup_nil

end ContextFree
