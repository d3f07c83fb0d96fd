import ContextFree.Chart.ItemSet

namespace ContextFree

namespace ItemSet

-- Each item is there once and has its own list of edges.
structure Aligned (s : ItemSet) : Prop where
  size_eq : s.edges.size = s.items.size
  nodup : s.items.toList.Nodup

theorem aligned_initial : Aligned initial := ⟨rfl, List.nodup_nil⟩

theorem index?_eq_none_iff (s : ItemSet) (x : Item) : s.index? x = none ↔ x ∉ s.items := by
  simp [index?]

theorem Aligned.index?_eq_some_iff {s : ItemSet} (h : s.Aligned) (x : Item) (index : Nat) :
    s.index? x = some index ↔ s.items[index]? = some x := by
  obtain ⟨⟨items⟩, edges, waiting, empty⟩ := s
  have hnodup : items.Nodup := h.nodup
  simp only [index?, List.idxOf?_toArray, List.getElem?_toArray, List.idxOf?_eq_some_iff]
  constructor
  · rintro ⟨hlt, heq, _⟩
    rw [List.getElem?_eq_getElem hlt, heq]
  · intro hx
    obtain ⟨hlt, heq⟩ := List.getElem?_eq_some_iff.mp hx
    refine ⟨hlt, heq, fun j hj hjx => ?_⟩
    have := (List.getElem_inj hnodup).mp (hjx.trans heq.symm)
    omega

-- An item is at one index only.
theorem Aligned.index_unique {s : ItemSet} (h : s.Aligned) {x : Item} {i j : Nat}
    (hi : s.items[i]? = some x) (hj : s.items[j]? = some x) : i = j := by
  have h₁ := (h.index?_eq_some_iff x i).mpr hi
  have h₂ := (h.index?_eq_some_iff x j).mpr hj
  exact Option.some.inj (h₁.symm.trans h₂)

-- The edges to an item, wherever it is in the set.
def edgesTo (s : ItemSet) (x : Item) : List Edge := ((s.index? x).map s.edgesOf).getD []

theorem Aligned.edgesOf_eq_edgesTo {s : ItemSet} (h : s.Aligned) {x : Item} {index : Nat}
    (hx : s.items[index]? = some x) : s.edgesOf index = s.edgesTo x := by
  rw [edgesTo, (h.index?_eq_some_iff x index).mpr hx]
  rfl

theorem mem_items_of_mem_edgesTo {s : ItemSet} {x : Item} {e : Edge} (h : e ∈ s.edgesTo x) :
    x ∈ s.items := by
  by_cases hx : x ∈ s.items
  · exact hx
  · simp [edgesTo, (index?_eq_none_iff s x).mpr hx] at h

@[simp] theorem edgesTo_initial (x : Item) : initial.edgesTo x = [] := by
  have : initial.index? x = none := (index?_eq_none_iff _ _).mpr (by simp [initial])
  simp [edgesTo, this]

theorem items_insert (s : ItemSet) (x : Item) :
    (s.insert x).items = if x ∈ s.items then s.items else s.items.push x := by
  unfold insert add
  split
  · rename_i index hi
    have : x ∈ s.items := by
      by_cases hx : x ∈ s.items
      · exact hx
      · simp [(index?_eq_none_iff s x).mpr hx] at hi
    simp [this]
  · rename_i hi
    simp [(index?_eq_none_iff s x).mp hi]

theorem Aligned.insert {s : ItemSet} (h : s.Aligned) (x : Item) : (s.insert x).Aligned := by
  constructor
  · unfold ItemSet.insert add
    split
    · exact h.size_eq
    · simp [h.size_eq]
  · rw [items_insert]
    split
    · exact h.nodup
    · rename_i hx
      rw [Array.toList_push, List.nodup_append]
      refine ⟨h.nodup, by simp, ?_⟩
      rintro a ha b hb rfl
      simp only [List.mem_singleton] at hb
      exact hx (by simpa [hb] using ha)

theorem edgesOf_insert (s : ItemSet) (x : Item) (index : Nat) :
    (s.insert x).edgesOf index = s.edgesOf index := by
  unfold insert add
  split
  · rfl
  · simp only [edgesOf, Array.getD_eq_getD_getElem?, Array.getElem?_push]
    split
    · rename_i hi
      simp [hi]
    · rfl

-- The items of the one set keep their places in the other.
def Extends (s t : ItemSet) : Prop :=
  ∀ (index : Nat) (x : Item), s.items[index]? = some x → t.items[index]? = some x

theorem Extends.refl (s : ItemSet) : s.Extends s := fun _ _ h => h

theorem Extends.trans {s t u : ItemSet} (first : s.Extends t) (second : t.Extends u) :
    s.Extends u := fun index x h => second index x (first index x h)

theorem Extends.mem {s t : ItemSet} (h : s.Extends t) {x : Item} (hx : x ∈ s.items) :
    x ∈ t.items := by
  obtain ⟨index, hi⟩ := Array.mem_iff_getElem?.mp hx
  exact Array.mem_iff_getElem?.mpr ⟨index, h index x hi⟩

theorem extends_insert (s : ItemSet) (x : Item) : s.Extends (s.insert x) := by
  intro index y h
  rw [items_insert]
  split
  · exact h
  · have hlt := (Array.getElem?_eq_some_iff.mp h).1
    rw [Array.getElem?_push]
    simpa [show index ≠ s.items.size by omega] using h

theorem mem_insert (s : ItemSet) (x y : Item) :
    y ∈ (s.insert x).items ↔ y ∈ s.items ∨ y = x := by
  rw [items_insert]
  split
  · rename_i hx
    constructor
    · exact .inl
    · rintro (hy | rfl)
      · exact hy
      · exact hx
  · simp

-- A new item has no edges.
theorem edgesTo_insert {s : ItemSet} (h : s.Aligned) (x y : Item) :
    (s.insert x).edgesTo y = s.edgesTo y := by
  by_cases hy : y ∈ s.items
  · obtain ⟨index, hi⟩ := Array.mem_iff_getElem?.mp hy
    rw [← h.edgesOf_eq_edgesTo hi, ← (h.insert x).edgesOf_eq_edgesTo (extends_insert s x index y hi),
      edgesOf_insert]
  · have hnone := (index?_eq_none_iff s y).mpr hy
    cases hi : (s.insert x).index? y with
    | none => simp [edgesTo, hi, hnone]
    | some index =>
        have hnew := ((h.insert x).index?_eq_some_iff y index).mp hi
        have hle : s.edges.size ≤ index := by
          rw [h.size_eq]
          refine Nat.le_of_not_lt fun hlt => hy ?_
          have hold := extends_insert s x index _ (Array.getElem?_eq_getElem hlt)
          rw [hnew] at hold
          rw [Option.some.inj hold]
          exact Array.getElem_mem hlt
        have hnil : (s.insert x).edgesOf index = [] := by
          rw [edgesOf_insert]
          simp [edgesOf, hle]
        simp [edgesTo, hi, hnone, hnil]

theorem insertVia_eq {s : ItemSet} (h : s.Aligned) (x : Item) (e : Edge) :
    ∃ index, (s.insert x).items[index]? = some x ∧
      s.insertVia x e =
        { s.insert x with edges := (s.insert x).edges.modify index (· ++ [e]) } := by
  refine ⟨(s.add x).2.1, ?_, rfl⟩
  unfold insert add
  split
  · rename_i index hi
    exact (h.index?_eq_some_iff x index).mp hi
  · simp

theorem items_insertVia (s : ItemSet) (x : Item) (e : Edge) :
    (s.insertVia x e).items = (s.insert x).items := rfl

theorem Aligned.insertVia {s : ItemSet} (h : s.Aligned) (x : Item) (e : Edge) :
    (s.insertVia x e).Aligned := by
  obtain ⟨index, _, heq⟩ := insertVia_eq h x e
  have := h.insert x
  rw [heq]
  exact ⟨by simpa using this.size_eq, this.nodup⟩

-- One edge more for the item, and none for others.
theorem edgesTo_insertVia {s : ItemSet} (h : s.Aligned) (x y : Item) (e : Edge) :
    (s.insertVia x e).edgesTo y = if x = y then s.edgesTo y ++ [e] else s.edgesTo y := by
  obtain ⟨index, hindex, heq⟩ := insertVia_eq h x e
  have hx := (h.insert x).index?_eq_some_iff x index |>.mpr hindex
  rw [← edgesTo_insert h x y, heq]
  simp only [edgesTo]
  rw [show ItemSet.index? { s.insert x with
    edges := (s.insert x).edges.modify index (· ++ [e]) } y = (s.insert x).index? y from rfl]
  cases hy : (s.insert x).index? y with
  | none =>
      have hne : x ≠ y := by
        rintro rfl
        simp [hx] at hy
      simp [hne]
  | some other =>
      have hother := (h.insert x).index?_eq_some_iff y other |>.mp hy
      have hlt : other < (s.insert x).edges.size := by
        rw [(h.insert x).size_eq]
        exact (Array.getElem?_eq_some_iff.mp hother).1
      simp only [edgesOf, Option.map_some, Option.getD_some, Array.getD_eq_getD_getElem?,
        Array.getElem?_modify]
      by_cases hxy : x = y
      · subst hxy
        obtain rfl := (h.insert x).index_unique hindex hother
        simp [hlt]
      · have hne : index ≠ other := by
          rintro rfl
          exact hxy (Option.some.inj (hindex.symm.trans hother))
        simp [hxy, hne]

-- Several items arrive at once, each over an edge.
def arrive (s : ItemSet) (arrivals : List (Item × Edge)) : ItemSet :=
  arrivals.foldl (fun s a => s.insertVia a.1 a.2) s

@[simp] theorem arrive_nil (s : ItemSet) : s.arrive [] = s := rfl

theorem arrive_cons (s : ItemSet) (a : Item × Edge) (arrivals : List (Item × Edge)) :
    s.arrive (a :: arrivals) = (s.insertVia a.1 a.2).arrive arrivals := rfl

theorem Aligned.arrive {s : ItemSet} (h : s.Aligned) (arrivals : List (Item × Edge)) :
    (s.arrive arrivals).Aligned := by
  induction arrivals generalizing s with
  | nil => exact h
  | cons a arrivals ih => exact ih (h.insertVia a.1 a.2)

theorem extends_arrive (s : ItemSet) (arrivals : List (Item × Edge)) :
    s.Extends (s.arrive arrivals) := by
  induction arrivals generalizing s with
  | nil => exact .refl s
  | cons a arrivals ih => exact (extends_insert s a.1).trans (ih (s.insertVia a.1 a.2))

theorem mem_arrive (s : ItemSet) (arrivals : List (Item × Edge)) (x : Item) :
    x ∈ (s.arrive arrivals).items ↔ x ∈ s.items ∨ ∃ e, (x, e) ∈ arrivals := by
  induction arrivals generalizing s with
  | nil => simp
  | cons a arrivals ih =>
      rw [arrive_cons, ih, items_insertVia, mem_insert, or_assoc]
      refine or_congr_right ?_
      simp only [List.mem_cons]
      constructor
      · rintro (rfl | ⟨e, he⟩)
        · exact ⟨a.2, .inl rfl⟩
        · exact ⟨e, .inr he⟩
      · rintro ⟨e, rfl | he⟩
        · exact .inl rfl
        · exact .inr ⟨e, he⟩

-- The new edges of an item come in the order of the arrivals.
theorem edgesTo_arrive {s : ItemSet} (h : s.Aligned) (arrivals : List (Item × Edge)) (x : Item) :
    (s.arrive arrivals).edgesTo x =
      s.edgesTo x ++ (arrivals.filter fun a => a.1 = x).map Prod.snd := by
  induction arrivals generalizing s with
  | nil => simp
  | cons a arrivals ih =>
      rw [arrive_cons, ih (h.insertVia a.1 a.2), edgesTo_insertVia h, List.filter_cons]
      by_cases hax : a.1 = x <;> simp [hax]

@[simp] theorem waiting_insert (s : ItemSet) (x : Item) : (s.insert x).waiting = s.waiting := by
  unfold insert add
  split <;> rfl

@[simp] theorem empty_insert (s : ItemSet) (x : Item) : (s.insert x).empty = s.empty := by
  unfold insert add
  split <;> rfl

theorem waiting_arrive (s : ItemSet) (arrivals : List (Item × Edge)) :
    (s.arrive arrivals).waiting = s.waiting := by
  induction arrivals generalizing s with
  | nil => rfl
  | cons a arrivals ih =>
      rw [arrive_cons, ih]
      exact waiting_insert s a.1

theorem empty_arrive (s : ItemSet) (arrivals : List (Item × Edge)) :
    (s.arrive arrivals).empty = s.empty := by
  induction arrivals generalizing s with
  | nil => rfl
  | cons a arrivals ih =>
      rw [arrive_cons, ih]
      exact empty_insert s a.1

-- What is new in a set after an item was processed.
structure News where
  predictions : List Item := []
  waiting : List (String × Nat) := []
  empty : List (String × Nat) := []
  arrivals : List (Item × Edge) := []

def predictAll (s : ItemSet) (predictions : List Item) : ItemSet := predictions.foldl insert s

-- Predicted items come without an edge.
theorem predictAll_spec {s : ItemSet} (h : s.Aligned) (predictions : List Item) :
    (s.predictAll predictions).Aligned ∧ s.Extends (s.predictAll predictions) ∧
      (∀ x, x ∈ (s.predictAll predictions).items ↔ x ∈ s.items ∨ x ∈ predictions) ∧
      (∀ x, (s.predictAll predictions).edgesTo x = s.edgesTo x) ∧
      (s.predictAll predictions).waiting = s.waiting ∧
      (s.predictAll predictions).empty = s.empty := by
  induction predictions generalizing s with
  | nil => exact ⟨h, .refl s, by simp [predictAll], fun _ => rfl, rfl, rfl⟩
  | cons p predictions ih =>
      obtain ⟨ha, he, hm, hedges, hw, hempty⟩ := ih (h.insert p)
      refine ⟨ha, (extends_insert s p).trans he, fun x => ?_, fun x => ?_, ?_, ?_⟩
      · rw [show s.predictAll (p :: predictions) = (s.insert p).predictAll predictions from rfl, hm,
          mem_insert, List.mem_cons, or_assoc]
      · exact (hedges x).trans (edgesTo_insert h p x)
      · exact hw.trans (waiting_insert s p)
      · exact hempty.trans (empty_insert s p)

-- Remembers processed items: those that wait, and those that matched nothing.
def note (s : ItemSet) (waiting empty : List (String × Nat)) : ItemSet :=
  { s with waiting := s.waiting ++ waiting, empty := s.empty ++ empty }

theorem Aligned.note {s : ItemSet} (h : s.Aligned) (waiting empty : List (String × Nat)) :
    (s.note waiting empty).Aligned := ⟨h.size_eq, h.nodup⟩

def absorb (s : ItemSet) (news : News) : ItemSet :=
  ((s.predictAll news.predictions).note news.waiting news.empty).arrive news.arrivals

section Absorb

variable {s : ItemSet} (h : s.Aligned) (news : News)

include h

theorem Aligned.absorb : (s.absorb news).Aligned :=
  ((predictAll_spec h news.predictions).1.note news.waiting news.empty).arrive news.arrivals

theorem extends_absorb : s.Extends (s.absorb news) :=
  (predictAll_spec h news.predictions).2.1.trans
    (extends_arrive ((s.predictAll news.predictions).note news.waiting news.empty) news.arrivals)

theorem mem_absorb (x : Item) :
    x ∈ (s.absorb news).items ↔
      (x ∈ s.items ∨ x ∈ news.predictions) ∨ ∃ e, (x, e) ∈ news.arrivals := by
  rw [absorb, mem_arrive]
  exact or_congr_left ((predictAll_spec h news.predictions).2.2.1 x)

theorem edgesTo_absorb (x : Item) :
    (s.absorb news).edgesTo x =
      s.edgesTo x ++ (news.arrivals.filter fun a => a.1 = x).map Prod.snd := by
  have hp := predictAll_spec h news.predictions
  rw [absorb, edgesTo_arrive (hp.1.note news.waiting news.empty)]
  exact congrArg (· ++ _) (hp.2.2.2.1 x)

theorem waiting_absorb : (s.absorb news).waiting = s.waiting ++ news.waiting := by
  rw [absorb, waiting_arrive]
  exact congrArg (· ++ _) (predictAll_spec h news.predictions).2.2.2.2.1

theorem empty_absorb : (s.absorb news).empty = s.empty ++ news.empty := by
  rw [absorb, empty_arrive]
  exact congrArg (· ++ _) (predictAll_spec h news.predictions).2.2.2.2.2

end Absorb

end ItemSet

end ContextFree
