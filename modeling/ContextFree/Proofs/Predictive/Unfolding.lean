import ContextFree.Proofs.Predictive.Soundness
import ContextFree.Proofs.Predictive.Safety
import Mathlib.Data.List.Nodup

namespace ContextFree

-- The child list that a branch leads to.
def Branch.list? : Branch → Option Nat
  | .leaf _ => none
  | .node _ list => some list

namespace Forest

-- The lists that the branches of a list lead to, once for each branch.
def links (forest : Forest) (list : Nat) : List Nat :=
  (forest.getD list []).filterMap Branch.list?

-- Every list but the first is where one branch leads to, and that branch is in an older list. No
-- branch leads anywhere else.
structure Treelike (forest : Forest) : Prop where
  later : ∀ list, ∀ child ∈ forest.links list, list < child ∧ child < forest.size
  once : ∀ child, 0 < child → child < forest.size → ∃ parent < child,
    ∀ list, (forest.links list).count child = if list = parent then 1 else 0

-- The trees that branches stand for when each is replaced by the list it leads to, over and over
-- again, and the lists that are met on the way, in preorder.
inductive Unfolds (forest : Forest) : List Branch → List Tree → List Nat → Prop where
  | nil : Unfolds forest [] [] []
  | leaf (terminal : String) {branches : List Branch} {trees : List Tree} {met : List Nat}
      (rest : Unfolds forest branches trees met) :
      Unfolds forest (.leaf terminal :: branches) (.leaf terminal :: trees) met
  | node (symbol : String) {list : Nat} {inner branches : List Branch}
      {children trees : List Tree} {inside met : List Nat} (found : forest[list]? = some inner)
      (unfolds : Unfolds forest inner children inside) (rest : Unfolds forest branches trees met) :
      Unfolds forest (.node symbol list :: branches) (.node symbol children :: trees)
        (list :: inside ++ met)

-- The tree of a branch, if the trees of the list it leads to are built.
def resolve? (built : Array (Option (List Tree))) : Branch → Option Tree
  | .leaf terminal => some (.leaf terminal)
  | .node symbol list => (built.getD list none).map (.node symbol)

-- The lists below `count` are turned into trees, the last one first. Nothing is taken for granted:
-- it is known which lists are built, and one that is not must not be read.
def buildBelow? (forest : Forest) :
    Nat → Array (Option (List Tree)) → Option (Array (Option (List Tree)))
  | 0, built => some built
  | list + 1, built => do
    let trees ← (forest.getD list []).mapM (resolve? built)
    buildBelow? forest list (built.setIfInBounds list (some trees))

def build? (forest : Forest) : Option (Array (Option (List Tree))) :=
  buildBelow? forest forest.size (Array.replicate forest.size none)

section Linking

variable {forest : Forest} {list : Nat}

theorem mem_links_iff (forest : Forest) (list child : Nat) :
    child ∈ forest.links list ↔ ∃ symbol, .node symbol child ∈ forest.getD list [] := by
  simp only [links, List.mem_filterMap]
  constructor
  · rintro ⟨branch, hm, hbranch⟩
    cases branch with
    | leaf terminal => simp [Branch.list?] at hbranch
    | node symbol list =>
        obtain rfl : list = child := by simpa [Branch.list?] using hbranch
        exact ⟨symbol, hm⟩
  · rintro ⟨symbol, hm⟩
    exact ⟨_, hm, rfl⟩

theorem links_of_getElem? {branches : List Branch} (h : forest[list]? = some branches) :
    forest.links list = branches.filterMap Branch.list? := by
  simp [links, h]

theorem links_push (forest : Forest) (list : Nat) :
    links (forest.push []) list = forest.links list := by
  simp only [links, Array.getD_eq_getD_getElem?, Array.getElem?_push]
  split
  · rename_i hlist
    simp [hlist]
  · rfl

theorem links_addTo (h : list < forest.size) (branch : Branch) (other : Nat) :
    (forest.addTo list branch).links other =
      forest.links other ++ if other = list then branch.list?.toList else [] := by
  simp only [links, addTo, Array.getD_eq_getD_getElem?, Array.getElem?_modify]
  by_cases ho : other = list
  · subst ho
    cases branch <;> simp [h, Branch.list?]
  · simp [ho, Ne.symm ho]

-- A new list is empty, and the one branch to it is the one that is added with it.
theorem links_opened (h : list < forest.size) (symbol : String) (other : Nat) :
    links (addTo (forest.push []) list (.node symbol forest.size)) other =
      forest.links other ++ if other = list then [forest.size] else [] := by
  rw [links_addTo (by simpa using Nat.lt_succ_of_lt h), links_push]
  rfl

theorem treelike_initial : initial.Treelike := by
  constructor
  case later =>
    intro list child hm
    cases list <;> simp [links, initial] at hm
  case once =>
    intro child hpos hlt
    simp only [initial, List.size_toArray, List.length_singleton] at hlt
    omega

-- A leaf leads nowhere.
theorem Treelike.add_leaf (h : forest.Treelike) (hlist : list < forest.size) (terminal : String) :
    (forest.addTo list (.leaf terminal)).Treelike := by
  have hlinks (other : Nat) : (forest.addTo list (.leaf terminal)).links other =
      forest.links other := by
    rw [links_addTo hlist, Branch.list?, Option.toList_none, ite_self, List.append_nil]
  constructor
  case later =>
    intro other child hm
    rw [hlinks] at hm
    rw [size_addTo]
    exact h.later other child hm
  case once =>
    intro child hpos hlt
    rw [size_addTo] at hlt
    simpa only [hlinks] using h.once child hpos hlt

-- The list that is added is where the branch leads to that is added with it, and no other.
theorem Treelike.add_node (h : forest.Treelike) (hlist : list < forest.size) (symbol : String) :
    (addTo (forest.push []) list (.node symbol forest.size)).Treelike := by
  have hsize : (addTo (forest.push []) list (.node symbol forest.size)).size =
      forest.size + 1 := by simp
  constructor
  case later =>
    intro other child hm
    rw [links_opened hlist] at hm
    rw [hsize]
    rcases List.mem_append.mp hm with hm | hm
    · obtain ⟨hlater, hlt⟩ := h.later other child hm
      exact ⟨hlater, Nat.lt_succ_of_lt hlt⟩
    · obtain ⟨rfl, rfl⟩ : other = list ∧ child = forest.size := by simpa using hm
      exact ⟨hlist, Nat.lt_succ_self _⟩
  case once =>
    intro child hpos hlt
    rw [hsize] at hlt
    by_cases hnew : child = forest.size
    · subst hnew
      refine ⟨list, hlist, fun other => ?_⟩
      have hold : forest.size ∉ forest.links other := fun hm =>
        Nat.lt_irrefl _ (h.later other _ hm).2
      rw [links_opened hlist, List.count_append, List.count_eq_zero_of_not_mem hold]
      by_cases ho : other = list <;> simp [ho]
    · obtain ⟨parent, hparent, honce⟩ := h.once child hpos (by omega)
      refine ⟨parent, hparent, fun other => ?_⟩
      rw [links_opened hlist, List.count_append, honce]
      by_cases ho : other = list <;> simp [ho, Ne.symm hnew]

end Linking

-- If the lists that branches lead to are unfolded to their trees, so are the branches.
theorem exists_unfolds_resolve {forest : Forest} {branches : List Branch}
    (hchildren : ∀ child ∈ branches.filterMap Branch.list?, ∃ inner inside,
      forest[child]? = some inner ∧ forest.Unfolds inner (forest.trees.getD child []) inside) :
    ∃ met, forest.Unfolds branches (branches.map (resolve forest.trees)) met := by
  induction branches with
  | nil => exact ⟨[], .nil⟩
  | cons branch branches ih =>
      cases branch with
      | leaf terminal =>
          obtain ⟨met, hrest⟩ := ih hchildren
          exact ⟨met, .leaf terminal hrest⟩
      | node symbol list =>
          simp only [List.filterMap_cons, Branch.list?, List.forall_mem_cons] at hchildren
          obtain ⟨⟨inner, inside, found, hunfolds⟩, hrest⟩ := hchildren
          obtain ⟨met, hrest⟩ := ih hrest
          exact ⟨_, .node symbol found hunfolds hrest⟩

theorem Treelike.ordered {forest : Forest} (h : forest.Treelike) : forest.Ordered :=
  fun list symbol child hm =>
    (h.later list child ((mem_links_iff forest list child).mpr ⟨symbol, hm⟩)).1

-- The trees of a list are what it is unfolded to. The induction is on how many lists are newer.
theorem Treelike.exists_unfolds {forest : Forest} (h : forest.Treelike) (list : Nat)
    (hlist : list < forest.size) :
    ∃ met, forest.Unfolds (forest.getD list []) (forest.trees.getD list []) met := by
  induction hnewer : forest.size - list using Nat.strongRecOn generalizing list with
  | _ newer ih =>
      rw [trees_getD forest h.ordered list hlist]
      refine exists_unfolds_resolve fun child hm => ?_
      obtain ⟨hlater, hchild⟩ := h.later list child hm
      obtain ⟨inside, hunfolds⟩ := ih _ (by omega) child hchild rfl
      refine ⟨forest[child], inside, Array.getElem?_eq_getElem hchild, ?_⟩
      simpa [hchild] using hunfolds

namespace Unfolds

variable {forest : Forest} {branches : List Branch} {trees : List Tree} {met : List Nat}

-- Branches are unfolded in one way.
theorem eq (h : forest.Unfolds branches trees met) {others : List Tree} {passed : List Nat}
    (h' : forest.Unfolds branches others passed) : others = trees ∧ passed = met := by
  induction h generalizing others passed with
  | nil =>
      cases h'
      exact ⟨rfl, rfl⟩
  | leaf terminal _ ih =>
      cases h' with
      | leaf _ rest =>
          obtain ⟨rfl, rfl⟩ := ih rest
          exact ⟨rfl, rfl⟩
  | node symbol found _ _ ihinner ihrest =>
      cases h' with
      | node _ found' unfolds rest =>
          obtain rfl := Option.some.inj (found.symm.trans found')
          obtain ⟨rfl, rfl⟩ := ihinner unfolds
          obtain ⟨rfl, rfl⟩ := ihrest rest
          exact ⟨rfl, rfl⟩

-- A list is met where a branch leads to it, and again whenever the list of such a branch is met.
theorem count_met (h : forest.Unfolds branches trees met) {child parent : Nat}
    (hparent : ∀ list, (forest.links list).count child = if list = parent then 1 else 0) :
    met.count child = (branches.filterMap Branch.list?).count child + met.count parent := by
  induction h with
  | nil => simp
  | leaf terminal _ ih => simpa only [List.filterMap_cons, Branch.list?] using ih
  | @node symbol list inner branches children trees inside met found _ _ ihinner ihrest =>
      have hinner := hparent list
      rw [links_of_getElem? found] at hinner
      simp only [List.filterMap_cons, Branch.list?, List.cons_append, List.count_cons,
        List.count_append, ihinner, ihrest, hinner, beq_iff_eq]
      omega

-- Branches lead to all that is met.
theorem exists_mem_links (h : forest.Unfolds branches trees met) {list : Nat} (hm : list ∈ met) :
    list ∈ branches.filterMap Branch.list? ∨ ∃ parent, list ∈ forest.links parent := by
  induction h with
  | nil => simp at hm
  | leaf _ _ ih => exact ih hm
  | @node symbol child _ _ _ _ _ _ found _ _ ihinner ihrest =>
      rcases List.mem_append.mp hm with hm | hm
      · rcases List.mem_cons.mp hm with rfl | hm
        · exact .inl (by simp [Branch.list?])
        · refine .inr ((ihinner hm).elim (fun hm => ⟨child, ?_⟩) id)
          rwa [links_of_getElem? found]
      · exact (ihrest hm).imp_left fun hm => by simp [Branch.list?, hm]

end Unfolds

section Meeting

variable {forest : Forest} {trees : List Tree} {met : List Nat} (h : forest.Treelike)
  (hunfolds : forest.Unfolds (forest.getD 0 []) trees met)

include h hunfolds

theorem Treelike.lt_of_mem_met {list : Nat} (hm : list ∈ met) : 0 < list ∧ list < forest.size := by
  obtain ⟨parent, hlinks⟩ : ∃ parent, list ∈ forest.links parent :=
    (hunfolds.exists_mem_links hm).elim (fun hm => ⟨0, hm⟩) id
  obtain ⟨hlater, hlt⟩ := h.later parent list hlinks
  exact ⟨Nat.zero_lt_of_lt hlater, hlt⟩

-- The induction goes from the list that a branch is in to the list it leads to.
theorem Treelike.count_met (list : Nat) (hpos : 0 < list) (hlt : list < forest.size) :
    met.count list = 1 := by
  induction list using Nat.strongRecOn with
  | _ list ih =>
      obtain ⟨parent, hparent, honce⟩ := h.once list hpos hlt
      have hcount := hunfolds.count_met honce
      rw [show ((forest.getD 0 []).filterMap Branch.list?).count list = _ from honce 0] at hcount
      rcases Nat.eq_zero_or_pos parent with rfl | hpos'
      · have hzero : 0 ∉ met := fun hm => (Nat.lt_irrefl 0) (h.lt_of_mem_met hunfolds hm).1
        rw [hcount, List.count_eq_zero_of_not_mem hzero, if_pos rfl]
      · rw [hcount, ih parent hparent hpos' (by omega), if_neg (by omega)]

-- From the first list on, all others are met, and each once.
theorem Treelike.met_perm : met.Perm (List.range' 1 (forest.size - 1)) := by
  have hnodup : met.Nodup := by
    refine List.nodup_iff_count_eq_one.mpr fun list hm => ?_
    obtain ⟨hpos, hlt⟩ := h.lt_of_mem_met hunfolds hm
    exact h.count_met hunfolds list hpos hlt
  refine (List.perm_ext_iff_of_nodup hnodup List.nodup_range').mpr fun list => ?_
  rw [List.mem_range'_1]
  constructor
  · intro hm
    obtain ⟨hpos, hlt⟩ := h.lt_of_mem_met hunfolds hm
    omega
  · intro hlist
    have hone := h.count_met hunfolds list (by omega) (by omega)
    exact List.count_pos_iff.mp (by omega)

end Meeting

theorem mapM_resolve? {built : Array (Option (List Tree))} {children : Array (List Tree)}
    {branches : List Branch}
    (h : ∀ branch ∈ branches, resolve? built branch = some (resolve children branch)) :
    branches.mapM (resolve? built) = some (branches.map (resolve children)) := by
  induction branches with
  | nil => rfl
  | cons branch branches ih =>
      rw [List.mapM_cons, h branch (by simp), ih fun other hm => h other (by simp [hm])]
      rfl

section Building

variable {forest : Forest} (h : forest.Treelike)

include h

-- If the lists from `count` on are built, none of the others is read before it is.
theorem Treelike.buildBelow?_eq (count : Nat) (children : Array (List Tree))
    (built : Array (Option (List Tree))) (hcount : count ≤ forest.size)
    (hsize : children.size = forest.size) (hsame : built.size = forest.size)
    (hbuilt : ∀ list, count ≤ list → built[list]? = (children[list]?).map some) :
    forest.buildBelow? count built = some ((forest.resolveBelow count children).map some) := by
  induction count generalizing children built with
  | zero =>
      rw [buildBelow?, resolveBelow, Option.some.injEq]
      apply Array.ext_getElem?
      intro list
      rw [hbuilt list (Nat.zero_le list), Array.getElem?_map]
  | succ list ih =>
      have hread : ∀ branch ∈ forest.getD list [],
          resolve? built branch = some (resolve children branch) := by
        intro branch hm
        cases branch with
        | leaf terminal => rfl
        | node symbol child =>
            obtain ⟨hlater, hlt⟩ :=
              h.later list child ((mem_links_iff forest list child).mpr ⟨symbol, hm⟩)
            have hchild : child < children.size := by omega
            simp [resolve?, resolve, hbuilt child hlater, hchild]
      rw [buildBelow?, mapM_resolve? hread, resolveBelow]
      refine ih _ _ (by omega) (by simpa using hsize) (by simpa using hsame) fun other hother => ?_
      by_cases ho : list = other
      · subst ho
        simp [hsize, hsame, show list < forest.size by omega]
      · simp [ho, hbuilt other (by omega)]

theorem Treelike.build?_eq : forest.build? = some (forest.trees.map some) := by
  refine h.buildBelow?_eq forest.size _ _ (Nat.le_refl _) (by simp) (by simp) fun list hlist => ?_
  simp [Nat.not_lt.mpr hlist]

end Building

theorem trees_of_root? {forest : Forest} {tree : Tree} (h : forest.root? = some tree) :
    forest.trees.getD 0 [] = [tree] := by
  unfold root? at h
  split at h
  · rename_i htrees
    rw [htrees, Option.some.inj h]
  · simp at h

end Forest

namespace Table

variable {t : Table} {start : String} {tokens : List String}

-- Reading a token adds a leaf, and expanding a nonterminal a list with the branch to it.
theorem treelike_of_moves {c : Config}
    (hmoves : Relation.ReflTransGen t.Moves (.initial start tokens) c) : c.forest.Treelike := by
  induction hmoves with
  | refl => exact Forest.treelike_initial
  | @tail c next hreaches hmoves ih =>
      have hshaped := (Config.Shaped.of_moves hreaches).forget
      rcases step_eq_next hmoves with
        ⟨goal, rest, name, input, hs, _, _, _, rfl⟩ | ⟨goal, rest, name, p, hs, _, _, _, rfl⟩
      · exact ih.add_leaf (hshaped.goal_lt goal (by simp [hs])) name
      · exact ih.add_node (hshaped.goal_lt goal (by simp [hs])) name

theorem treelike_of_arrives {forest : Forest}
    (h : t.Arrives (.initial start tokens) (.accepted forest)) :
    forest.Treelike ∧ 0 < forest.size := by
  obtain ⟨last, hmoves, hlast⟩ := h
  obtain ⟨goal, rest, hs, _, _, rfl⟩ := step_eq_accepted hlast
  have htreelike : last.forest.Treelike := treelike_of_moves hmoves
  have hgoal := (Config.Shaped.of_moves hmoves).forget.goal_lt goal (by simp [hs])
  exact ⟨htreelike, Nat.zero_lt_of_lt hgoal⟩

-- The forest with which the machine accepts, whatever the table and the tokens are: every list but
-- the first is where one branch leads to, which is in an older list. The loop over the lists reads
-- none of them before it is built, and gives the one tree that is unfolded from the first list.
-- On the way from there all other lists are met once. That tree is the answer.
theorem forest_unfolds {forest : Forest}
    (h : t.Arrives (.initial start tokens) (.accepted forest)) :
    forest.Treelike ∧ forest.build? = some (forest.trees.map some) ∧
      ∃ tree met, forest.root? = some tree ∧
        (∀ trees others, forest.Unfolds (forest.getD 0 []) trees others ↔
          trees = [tree] ∧ others = met) ∧
        met.Perm (List.range' 1 (forest.size - 1)) ∧
        (t.conflicts = [] → endMarker ∉ tokens → t.parse start tokens = .ok (.parse tree)) := by
  obtain ⟨children, hroot, _⟩ := tree_of_run (run_of_arrives (nested_initial t start tokens) h)
  obtain ⟨htreelike, hpos⟩ := treelike_of_arrives h
  obtain ⟨met, hmet⟩ := htreelike.exists_unfolds 0 hpos
  rw [Forest.trees_of_root? hroot] at hmet
  refine ⟨htreelike, htreelike.build?_eq, _, met, hroot, fun trees others => ?_,
    htreelike.met_perm hmet, fun hconflicts hend => ?_⟩
  · constructor
    · exact hmet.eq
    · rintro ⟨rfl, rfl⟩
      exact hmet
  · exact parse_eq_parse_iff.mpr ⟨hconflicts, hend, forest, h, hroot⟩

-- The machine stops at the end marker in the middle of `B`, before the last `A` is expanded.
def unfinished : Table where
  nonterminals := ["S", "A", "B"]
  terminals := ["a", "b", "$"]
  cells := [
    { nonterminal := "S", terminal := "a",
      productions := [{ lhs := "S", rhs := [.nonterminal "A", .nonterminal "B"] }] },
    { nonterminal := "A", terminal := "a",
      productions := [{ lhs := "A", rhs := [.terminal "a"] }] },
    { nonterminal := "B", terminal := "b",
      productions := [{ lhs := "B", rhs := [.terminal "b", .terminal "$", .nonterminal "A"] }] }]

theorem forest_unfolds_unfinished :
    let forest : Forest := #[[.node "S" 1], [.node "A" 2, .node "B" 3], [.leaf "a"], [.leaf "b"]]
    let tree : Tree := .node "S" [.node "A" [.leaf "a"], .node "B" [.leaf "b"]]
    unfinished.Arrives (.initial "S" ["a", "b"]) (.accepted forest) ∧ forest.Treelike ∧
      forest.build? = some (forest.trees.map some) ∧
      (∃ met, forest.Unfolds [.node "S" 1] [tree] met ∧ met.Perm [1, 2, 3]) ∧
      unfinished.parse "S" ["a", "b"] = .ok (.parse tree) := by
  intro forest tree
  have hrun : unfinished.run (.initial "S" ["a", "b"]) = .ok (.accepted forest) := by
    rw [run_of_next rfl, run_of_next rfl, run_of_next rfl, run_of_next rfl, run_of_next rfl,
      run_of_stop rfl]
    rfl
  have harrives := (run_eq_ok_iff (nested_initial unfinished "S" ["a", "b"]) _).mp hrun
  obtain ⟨htreelike, hbuild, found, met, hroot, hunfolds, hperm, hparse⟩ :=
    forest_unfolds harrives
  obtain rfl : tree = found := Option.some.inj hroot
  exact ⟨harrives, htreelike, hbuild, ⟨met, (hunfolds _ _).mpr ⟨rfl, rfl⟩, hperm⟩,
    hparse (by decide) (by decide)⟩

end Table

end ContextFree
