import ContextFree.Family
import ContextFree.Analysis.Settle
import Mathlib.Logic.Function.Iterate

namespace ContextFree

-- A state that every changing round makes larger, up to a bound, is settled before
-- the rounds run out: each of them makes it larger but the last, which keeps it.
theorem settle_eq_iterate_of_growth [DecidableEq α] (round : α → α) (Holds : α → Prop)
    (size : α → Nat) (bound : Nat) (keeps : ∀ s, Holds s → Holds (round s))
    (grows : ∀ s, Holds s → round s = s ∨ size s < size (round s))
    (bounded : ∀ s, Holds s → size s ≤ bound) (fuel : Nat) (s : α) (hs : Holds s)
    (hfuel : bound < size s + fuel) :
    ∃ rounds, settle round fuel s = (round^[rounds] s, rounds + 1) ∧
      round (round^[rounds] s) = round^[rounds] s ∧
      ∀ earlier < rounds, size (round^[earlier] s) < size (round^[earlier + 1] s) := by
  induction fuel generalizing s with
  | zero =>
      have := bounded s hs
      omega
  | succ fuel ih =>
      rw [settle]
      split
      · rename_i heq
        exact ⟨0, rfl, heq, fun _ h => absurd h (Nat.not_lt_zero _)⟩
      · rename_i hne
        have hlt := (grows s hs).resolve_left hne
        obtain ⟨rounds, hsettle, hfixed, hearlier⟩ := ih (round s) (keeps s hs) (by omega)
        refine ⟨rounds + 1, by rw [hsettle]; rfl, hfixed, fun earlier he => ?_⟩
        cases earlier with
        | zero => exact hlt
        | succ earlier => exact hearlier earlier (by omega)

theorem settle_fixed_of_growth [DecidableEq α] (round : α → α) (Holds : α → Prop)
    (size : α → Nat) (bound : Nat) (keeps : ∀ s, Holds s → Holds (round s))
    (grows : ∀ s, Holds s → round s = s ∨ size s < size (round s))
    (bounded : ∀ s, Holds s → size s ≤ bound) (fuel : Nat) (s : α) (hs : Holds s)
    (hfuel : bound < size s + fuel) :
    round (settle round fuel s).1 = (settle round fuel s).1 := by
  obtain ⟨rounds, hsettle, hfixed, _⟩ :=
    settle_eq_iterate_of_growth round Holds size bound keeps grows bounded fuel s hs hfuel
  rw [hsettle, hfixed]

-- What every step keeps is kept by all of them together.
theorem foldl_keeps (Holds : α → Prop) {act : α → β → α} {steps : List β}
    (h : ∀ b ∈ steps, ∀ s, Holds s → Holds (act s b)) (s : α) (hs : Holds s) :
    Holds (steps.foldl act s) := by
  induction steps generalizing s with
  | nil => exact hs
  | cons b rest ih => exact ih (fun c hc => h c (by simp [hc])) (act s b) (h b (by simp) s hs)

-- Steps that each keep the state or make it larger do so one after the other. They
-- keep it together only if every one of them keeps it.
theorem foldl_eq_or_size_lt {act : α → β → α} {steps : List β} {size : α → Nat} {Holds : α → Prop}
    (h : ∀ b ∈ steps, ∀ s, Holds s → Holds (act s b) ∧ (act s b = s ∨ size s < size (act s b)))
    (s : α) (hs : Holds s) :
    Holds (steps.foldl act s) ∧
      ((steps.foldl act s = s ∧ ∀ b ∈ steps, act s b = s) ∨
        size s < size (steps.foldl act s)) := by
  induction steps generalizing s with
  | nil => exact ⟨hs, .inl ⟨rfl, by simp⟩⟩
  | cons b rest ih =>
      obtain ⟨hb, hw⟩ := h b (by simp) s hs
      obtain ⟨hr, hrest⟩ := ih (fun c hc => h c (by simp [hc])) (act s b) hb
      refine ⟨hr, ?_⟩
      simp only [List.foldl_cons, List.mem_cons, forall_eq_or_imp]
      rcases hw with hw | hw
      · rw [hw] at hrest ⊢
        rcases hrest with ⟨heq, hall⟩ | hlt
        · exact .inl ⟨heq, rfl, hall⟩
        · exact .inr hlt
      · rcases hrest with ⟨heq, _⟩ | hlt
        · rw [heq]
          exact .inr hw
        · exact .inr (by omega)

namespace Family

-- The sum of the sizes of all values.
def total (size : α → Nat) : Family α → Nat
  | [] => 0
  | (_, value) :: rest => size value + total size rest

theorem total_le (size : α → Nat) (bound : Nat) (family : Family α)
    (h : ∀ entry ∈ family, size entry.2 ≤ bound) :
    family.total size ≤ family.length * bound := by
  induction family with
  | nil => simp [total]
  | cons entry rest ih =>
      have hfirst := h entry (by simp)
      have hrest := ih fun e he => h e (by simp [he])
      simp only [total, List.length_cons, Nat.add_mul, Nat.one_mul]
      omega

-- Changing one value keeps the family or makes it larger, if it does so with the value.
theorem change_eq_or_total_lt (size : α → Nat) (family : Family α) (name : String) (f : α → α)
    (h : ∀ entry ∈ family, f entry.2 = entry.2 ∨ size entry.2 < size (f entry.2)) :
    family.change name f = family ∨ family.total size < (family.change name f).total size := by
  induction family with
  | nil => exact .inl rfl
  | cons entry rest ih =>
      obtain ⟨other, value⟩ := entry
      rw [change]
      split
      · rcases h (other, value) (by simp) with hf | hf
        · exact .inl (by simp only at hf; rw [hf])
        · right
          simp only [total] at hf ⊢
          omega
      · rcases ih fun e he => h e (by simp [he]) with hr | hr
        · exact .inl (by rw [hr])
        · right
          simp only [total]
          omega

theorem mem_change {family : Family α} {name : String} {f : α → α} {entry : String × α}
    (h : entry ∈ family.change name f) :
    entry ∈ family ∨ ∃ value, (name, value) ∈ family ∧ entry = (name, f value) := by
  induction family with
  | nil => simp [change] at h
  | cons first rest ih =>
      obtain ⟨other, value⟩ := first
      rw [change] at h
      split at h
      · rename_i heq
        subst heq
        rcases List.mem_cons.mp h with rfl | h
        · exact .inr ⟨value, by simp, rfl⟩
        · exact .inl (by simp [h])
      · rcases List.mem_cons.mp h with rfl | h
        · exact .inl (by simp)
        · rcases ih h with h | ⟨value, hv, rfl⟩
          · exact .inl (by simp [h])
          · exact .inr ⟨value, by simp [hv], rfl⟩

theorem change_of_not_mem (family : Family α) (name : String) (f : α → α)
    (h : name ∉ family.names) : family.change name f = family := by
  induction family with
  | nil => rfl
  | cons entry rest ih =>
      simp only [names, List.map_cons, List.mem_cons, not_or] at h ih
      rw [change, if_neg (Ne.symm h.1), ih h.2]

-- The value of a name is one of its entries.
theorem mem_of_value? {family : Family α} {name : String} {value : α}
    (h : family.value? name = some value) : (name, value) ∈ family := by
  induction family with
  | nil => simp [value?] at h
  | cons entry rest ih =>
      obtain ⟨other, first⟩ := entry
      simp only [value?, List.lookup_cons] at h ih
      split at h
      · rename_i heq
        have : name = other := by simpa using heq
        subst this
        simp only [Option.some.injEq] at h
        simp [h]
      · simp [ih h]

theorem value?_eq_some_iff {family : Family α} (hnodup : family.names.Nodup) {name : String}
    {value : α} : family.value? name = some value ↔ (name, value) ∈ family := by
  refine ⟨mem_of_value?, fun hm => ?_⟩
  induction family with
  | nil => simp at hm
  | cons entry rest ih =>
      obtain ⟨other, first⟩ := entry
      simp only [names, List.map_cons, List.nodup_cons] at hnodup
      simp only [value?, List.lookup_cons] at ih ⊢
      rcases List.mem_cons.mp hm with heq | hrest
      · obtain ⟨rfl, rfl⟩ := Prod.mk.inj heq
        simp
      · have hne : (name == other) = false := by
          refine beq_false_of_ne ?_
          rintro rfl
          exact hnodup.1 (List.mem_map_of_mem hrest)
        rw [hne]
        exact ih hnodup.2 hrest

theorem exists_value?_of_mem {family : Family α} {name : String} (h : name ∈ family.names) :
    ∃ value, family.value? name = some value := by
  induction family with
  | nil => simp [names] at h
  | cons entry rest ih =>
      obtain ⟨other, first⟩ := entry
      simp only [names, List.map_cons, List.mem_cons] at h ih
      simp only [value?, List.lookup_cons] at ih ⊢
      split
      · exact ⟨first, rfl⟩
      · rename_i hne
        rcases h with rfl | h
        · simp at hne
        · exact ih h

theorem getD_change_self {family : Family α} {name : String} (h : name ∈ family.names) (f : α → α)
    (other : α) :
    ((family.change name f).value? name).getD other = f ((family.value? name).getD other) := by
  obtain ⟨value, hv⟩ := exists_value?_of_mem h
  simp [value?_change_self, hv]

-- What is looked up is one of the entries, or it is made up.
theorem mem_or_getD_eq (family : Family α) (name : String) (other : α) :
    (name, (family.value? name).getD other) ∈ family ∨ (family.value? name).getD other = other := by
  cases h : family.value? name with
  | none => exact .inr rfl
  | some value => exact .inl (mem_of_value? h)

end Family

end ContextFree
