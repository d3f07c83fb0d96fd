import ContextFree.Predictive.Forest
import ContextFree.Proofs.Derivation.Trees

namespace ContextFree

namespace Forest

mutual

-- Hangs a tree into a child list. Every node opens a list of its own, in preorder.
def plant (forest : Forest) (list : Nat) : Tree → Forest
  | .leaf terminal => forest.addTo list (.leaf terminal)
  | .node symbol children =>
    plantAll (addTo (forest.push []) list (.node symbol forest.size)) forest.size children

def plantAll (forest : Forest) (list : Nat) : List Tree → Forest
  | [] => forest
  | t :: ts => plantAll (plant forest list t) list ts

end

-- Hangs each tree into the child list that it comes with.
def plantEach (forest : Forest) (trees : List (Nat × Tree)) : Forest :=
  trees.foldl (fun forest tree => forest.plant tree.1 tree.2) forest

theorem plantAll_eq_plantEach (forest : Forest) (list : Nat) (ts : List Tree) :
    plantAll forest list ts = plantEach forest (ts.map (list, ·)) := by
  induction ts generalizing forest with
  | nil => rfl
  | cons t ts ih =>
      rw [plantAll, ih]
      rfl

theorem plantEach_append (forest : Forest) (trees others : List (Nat × Tree)) :
    plantEach forest (trees ++ others) = plantEach (plantEach forest trees) others :=
  List.foldl_append

mutual

-- The number of nodes, leaves not counted.
def nodes : Tree → Nat
  | .leaf _ => 0
  | .node _ children => nodesAll children + 1

def nodesAll : List Tree → Nat
  | [] => 0
  | t :: ts => nodes t + nodesAll ts

end

-- What stands for a tree in the list it hangs in, when `next` is the next free index.
def branchAt (next : Nat) : Tree → Branch
  | .leaf terminal => .leaf terminal
  | .node symbol _ => .node symbol next

def branches (next : Nat) : List Tree → List Branch
  | [] => []
  | t :: ts => branchAt next t :: branches (next + nodes t) ts

mutual

-- The child lists that a tree takes up from index `next` on.
def lists (next : Nat) : Tree → List (List Branch)
  | .leaf _ => []
  | .node _ children => branches (next + 1) children :: listsAll (next + 1) children

def listsAll (next : Nat) : List Tree → List (List Branch)
  | [] => []
  | t :: ts => lists next t ++ listsAll (next + nodes t) ts

end

theorem length_listsAll (ts : List Tree)
    (h : ∀ t ∈ ts, ∀ next, (lists next t).length = nodes t) (next : Nat) :
    (listsAll next ts).length = nodesAll ts := by
  induction ts generalizing next with
  | nil => rfl
  | cons t ts ih =>
      have hrest := ih (fun u hu => h u (by simp [hu])) (next + nodes t)
      simp only [listsAll, List.length_append, nodesAll, hrest, h t (by simp)]

@[simp] theorem length_lists (next : Nat) (t : Tree) : (lists next t).length = nodes t := by
  induction t generalizing next with
  | leaf terminal => rfl
  | node symbol children ih =>
      simp only [lists, List.length_cons, nodes]
      rw [length_listsAll children fun t ht next => ih t ht next]

theorem modify_append (forest : Forest) (others : List (List Branch)) (list : Nat)
    (f : List Branch → List Branch) (h : list < forest.size) :
    (forest ++ others.toArray).modify list f = forest.modify list f ++ others.toArray := by
  apply Array.ext_getElem?
  intro i
  simp only [Array.getElem?_modify, Array.getElem?_append, Array.size_modify]
  by_cases hi : list = i
  · subst hi
    simp [h]
  · simp [hi]

theorem modify_modify (forest : Forest) (list : Nat) (f f' : List Branch → List Branch) :
    (forest.modify list f).modify list f' = forest.modify list (f' ∘ f) := by
  apply Array.ext_getElem?
  intro i
  simp only [Array.getElem?_modify]
  by_cases hi : list = i <;> simp [hi]

theorem modify_push (forest : Forest) (last : List Branch) (f : List Branch → List Branch) :
    (forest.push last).modify forest.size f = forest.push (f last) := by
  apply Array.ext_getElem?
  intro i
  simp only [Array.getElem?_modify, Array.getElem?_push]
  by_cases hi : forest.size = i
  · subst hi
    simp
  · simp [hi, Ne.symm hi]

theorem plantAll_eq_append (ts : List Tree)
    (h : ∀ t ∈ ts, ∀ (forest : Forest) list, list < forest.size →
      plant forest list t =
        forest.modify list (· ++ [branchAt forest.size t]) ++ (lists forest.size t).toArray)
    (forest : Forest) (list : Nat) (hlist : list < forest.size) :
    plantAll forest list ts =
      forest.modify list (· ++ branches forest.size ts) ++ (listsAll forest.size ts).toArray := by
  induction ts generalizing forest with
  | nil =>
      simp only [plantAll, branches, listsAll, List.append_nil]
      apply Array.ext_getElem?
      intro i
      by_cases hi : list = i <;> simp [Array.getElem?_modify, hi]
  | cons t ts ih =>
      have hfirst := h t (by simp) forest list hlist
      have hsize : (plant forest list t).size = forest.size + nodes t := by simp [hfirst]
      rw [plantAll, ih (fun u hu => h u (by simp [hu])) _ (by omega), hsize, hfirst,
        modify_append _ _ _ _ (by simpa using hlist), modify_modify]
      simp only [Array.append_assoc, List.append_toArray, listsAll, branches]
      congr 2
      funext branches
      simp

-- The lists of a planted tree stand at the end in one piece.
theorem plant_eq_append (t : Tree) (forest : Forest) (list : Nat) (h : list < forest.size) :
    plant forest list t =
      forest.modify list (· ++ [branchAt forest.size t]) ++ (lists forest.size t).toArray := by
  induction t generalizing forest list with
  | leaf terminal => simp [plant, addTo, branchAt, lists]
  | node symbol children ih =>
      have hopened : addTo (forest.push []) list (.node symbol forest.size) =
          (addTo forest list (.node symbol forest.size)).push [] := by
        simpa only [Array.append_singleton, addTo] using
          modify_append forest [[]] list (· ++ [.node symbol forest.size]) h
      have hsize : ((addTo forest list (.node symbol forest.size)).push []).size =
          forest.size + 1 := by simp [addTo]
      rw [plant, hopened, plantAll_eq_append children (fun t ht f l hl => ih t ht f l hl) _ _
        (by omega), hsize]
      have hpush := modify_push (addTo forest list (.node symbol forest.size)) []
        (· ++ branches (forest.size + 1) children)
      rw [show (addTo forest list (.node symbol forest.size)).size = forest.size by
        simp [addTo]] at hpush
      rw [hpush]
      apply Array.ext'
      simp [branchAt, lists, addTo]

-- Every branch leads to a newer list than the one it is in.
def Ordered (forest : Forest) : Prop :=
  ∀ list symbol child, .node symbol child ∈ forest.getD list [] → list < child

-- From index `next` on stand these lists.
def HoldsAt (forest : Forest) (next : Nat) (ls : List (List Branch)) : Prop :=
  ∀ k l, ls[k]? = some l → forest[next + k]? = some l

theorem HoldsAt.head {forest : Forest} {next : Nat} {l : List Branch} {ls : List (List Branch)}
    (h : HoldsAt forest next (l :: ls)) : forest[next]? = some l := h 0 l rfl

theorem HoldsAt.tail {forest : Forest} {next : Nat} {l : List Branch} {ls : List (List Branch)}
    (h : HoldsAt forest next (l :: ls)) : HoldsAt forest (next + 1) ls := by
  intro k found hk
  rw [show next + 1 + k = next + (k + 1) by omega]
  exact h (k + 1) found hk

theorem HoldsAt.left {forest : Forest} {next : Nat} {ls others : List (List Branch)}
    (h : HoldsAt forest next (ls ++ others)) : HoldsAt forest next ls := by
  intro k found hk
  apply h k found
  rw [List.getElem?_append_left (List.getElem?_eq_some_iff.mp hk).1]
  exact hk

theorem HoldsAt.right {forest : Forest} {next : Nat} {ls others : List (List Branch)}
    (h : HoldsAt forest next (ls ++ others)) : HoldsAt forest (next + ls.length) others := by
  intro k found hk
  rw [Nat.add_assoc]
  apply h (ls.length + k) found
  rw [List.getElem?_append_right (by omega)]
  simpa using hk

-- A list whose branches are newer is resolved by the trees of newer lists only.
theorem resolveBelow_getD (forest : Forest) (h : Ordered forest) (count : Nat)
    (children : Array (List Tree)) (hsize : children.size = forest.size)
    (hcount : count ≤ forest.size)
    (hdone : ∀ i, count ≤ i → i < forest.size →
      children.getD i [] = (forest.getD i []).map (resolve children)) (i : Nat)
    (hi : i < forest.size) :
    (resolveBelow forest count children).getD i [] =
      (forest.getD i []).map (resolve (resolveBelow forest count children)) := by
  induction count generalizing children with
  | zero => exact hdone i (Nat.zero_le i) hi
  | succ count ih =>
      rw [resolveBelow]
      apply ih
      · simpa using hsize
      · omega
      · intro j hj hjs
        -- changing list `count` does not touch what newer branches lead to
        have hsame : ∀ b ∈ forest.getD j [], resolve (children.setIfInBounds count
            ((forest.getD count []).map (resolve children))) b = resolve children b := by
          intro b hb
          cases b with
          | leaf terminal => rfl
          | node symbol child =>
              have hlt := h j symbol child hb
              have hne : count ≠ child := by omega
              simp [resolve, hne]
        rw [List.map_congr_left hsame]
        by_cases hjc : j = count
        · subst hjc
          have : j < children.size := by omega
          simp [this]
        · rw [← hdone j (by omega) hjs]
          simp [Ne.symm hjc]

-- The trees of a child list are those of its branches.
theorem trees_getD (forest : Forest) (h : Ordered forest) (list : Nat)
    (hlist : list < forest.size) :
    forest.trees.getD list [] = (forest.getD list []).map (resolve forest.trees) := by
  apply resolveBelow_getD forest h
  · simp
  · exact Nat.le_refl _
  · intro i hi hlt
    omega
  · exact hlist

theorem map_resolve_branches {forest : Forest} (ts : List Tree) {next : Nat}
    (ih : ∀ t ∈ ts, ∀ next, HoldsAt forest next (lists next t) →
      resolve forest.trees (branchAt next t) = t)
    (h : HoldsAt forest next (listsAll next ts)) :
    (branches next ts).map (resolve forest.trees) = ts := by
  induction ts generalizing next with
  | nil => rfl
  | cons t ts ihr =>
      have hright := h.right
      rw [length_lists] at hright
      simp only [branches, List.map_cons, List.cons.injEq]
      exact ⟨ih t (by simp) next h.left, ihr (fun u hu => ih u (by simp [hu])) hright⟩

-- What stands for a tree is resolved to it.
theorem resolve_branchAt {forest : Forest} (hordered : Ordered forest) (t : Tree) (next : Nat)
    (h : HoldsAt forest next (lists next t)) :
    resolve forest.trees (branchAt next t) = t := by
  induction t generalizing next with
  | leaf terminal => rfl
  | node symbol children ih =>
      simp only [branchAt, resolve, Tree.node.injEq, true_and]
      obtain ⟨hsize, hhead⟩ := Array.getElem?_eq_some_iff.mp h.head
      rw [trees_getD forest hordered next hsize]
      simp only [Array.getD_eq_getD_getElem?, h.head, Option.getD_some]
      exact map_resolve_branches children (fun t ht n hn => ih t ht n hn) h.tail

theorem le_of_mem_branches {ts : List Tree} {next child : Nat} {symbol : String}
    (h : .node symbol child ∈ branches next ts) : next ≤ child := by
  induction ts generalizing next with
  | nil => simp [branches] at h
  | cons t ts ih =>
      rcases List.mem_cons.mp h with h | h
      · cases t with
        | leaf terminal => simp [branchAt] at h
        | node name children =>
            simp only [branchAt, Branch.node.injEq] at h
            omega
      · have := ih h
        omega

-- In the lists from `next` on, every branch leads to a newer list.
def OrderedFrom (next : Nat) (ls : List (List Branch)) : Prop :=
  ∀ k l, ls[k]? = some l → ∀ symbol child, .node symbol child ∈ l → next + k < child

theorem OrderedFrom.cons {next : Nat} {l : List Branch} {ls : List (List Branch)}
    (hl : ∀ symbol child, .node symbol child ∈ l → next < child)
    (hls : OrderedFrom (next + 1) ls) : OrderedFrom next (l :: ls) := by
  intro k found hk symbol child hc
  cases k with
  | zero =>
      obtain rfl : l = found := by simpa using hk
      exact hl symbol child hc
  | succ k =>
      have := hls k found (by simpa using hk) symbol child hc
      omega

theorem OrderedFrom.append {next : Nat} {ls others : List (List Branch)}
    (h : OrderedFrom next ls) (h' : OrderedFrom (next + ls.length) others) :
    OrderedFrom next (ls ++ others) := by
  intro k found hk symbol child hc
  by_cases hlt : k < ls.length
  · rw [List.getElem?_append_left hlt] at hk
    exact h k found hk symbol child hc
  · rw [List.getElem?_append_right (by omega)] at hk
    have := h' (k - ls.length) found hk symbol child hc
    omega

theorem orderedFrom_listsAll {ts : List Tree}
    (h : ∀ t ∈ ts, ∀ next, OrderedFrom next (lists next t)) (next : Nat) :
    OrderedFrom next (listsAll next ts) := by
  induction ts generalizing next with
  | nil => simp [listsAll, OrderedFrom]
  | cons t ts ih =>
      apply (h t (by simp) next).append
      rw [length_lists]
      exact ih (fun u hu => h u (by simp [hu])) (next + nodes t)

theorem orderedFrom_lists (t : Tree) (next : Nat) : OrderedFrom next (lists next t) := by
  induction t generalizing next with
  | leaf terminal => simp [lists, OrderedFrom]
  | node symbol children ih =>
      exact .cons (fun _ _ hc => le_of_mem_branches hc)
        (orderedFrom_listsAll (fun t ht n => ih t ht n) (next + 1))

theorem plant_initial (t : Tree) :
    plant initial 0 t = ([branchAt 1 t] :: lists 1 t).toArray := by
  rw [plant_eq_append t initial 0 (by simp [initial])]
  apply Array.ext'
  simp [initial]

theorem ordered_plant_initial (t : Tree) : Ordered (plant initial 0 t) := by
  have h : OrderedFrom 0 ([branchAt 1 t] :: lists 1 t) := by
    refine .cons ?_ (orderedFrom_lists t 1)
    intro symbol child hc
    have hb : .node symbol child ∈ branches 1 [t] := hc
    exact le_of_mem_branches hb
  intro list symbol child hc
  rw [plant_initial] at hc
  simp only [Array.getD_eq_getD_getElem?, List.getElem?_toArray] at hc
  cases hl : ([branchAt 1 t] :: lists 1 t)[list]? with
  | none => simp [hl] at hc
  | some l =>
      have := h list l hl symbol child (by simpa [hl] using hc)
      omega

-- A forest into which one tree was planted is resolved to that tree.
theorem trees_plant_initial (t : Tree) : (plant initial 0 t).trees.getD 0 [] = [t] := by
  have hordered := ordered_plant_initial t
  have hheld : HoldsAt (plant initial 0 t) 1 (lists 1 t) := by
    intro k l hk
    rw [plant_initial, Nat.add_comm]
    simpa using hk
  rw [trees_getD _ hordered 0 (by simp [plant_initial])]
  have hroot : (plant initial 0 t).getD 0 [] = [branchAt 1 t] := by simp [plant_initial]
  rw [hroot, List.map_cons, resolve_branchAt hordered t 1 hheld]
  rfl

theorem root?_plant_initial (symbol : String) (children : List Tree) :
    (plant initial 0 (.node symbol children)).root? = some (.node symbol children) := by
  rw [root?, trees_plant_initial]

end Forest

end ContextFree
