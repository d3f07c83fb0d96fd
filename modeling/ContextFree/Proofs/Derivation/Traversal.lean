import ContextFree.Proofs.Derivation.Trees

namespace ContextFree

namespace Tree

theorem sizeList_reverse (ts : List Tree) : sizeList ts.reverse = sizeList ts := by
  induction ts with
  | nil => rfl
  | cons t ts ih =>
      simp only [List.reverse_cons, sizeList_append, sizeList, ih]
      omega

-- A loop over a stack of trees: the trees that are still to be looked at, the next one last, and
-- the terminals that were given out.
structure Traversal where
  stack : List Tree
  given : List String

namespace Traversal

-- A leaf on top is given out. The children of a node are put on the stack from the last to the
-- first, so that the first is the next one.
inductive Turns : Traversal → Traversal → Prop where
  | leaf (bottom : List Tree) (terminal : String) (given : List String) :
      Turns { stack := bottom ++ [.leaf terminal], given }
        { stack := bottom, given := given ++ [terminal] }
  | node (bottom : List Tree) (symbol : String) (children : List Tree) (given : List String) :
      Turns { stack := bottom ++ [.node symbol children], given }
        { stack := bottom ++ children.reverse, given }

def opening (t : Tree) : Traversal := { stack := [t], given := [] }

-- What was given out, and what the trees on the stack spell.
def spells (s : Traversal) : List String := s.given ++ yieldList s.stack.reverse

@[simp] theorem spells_opening (t : Tree) : (opening t).spells = t.yield := by
  simp [spells, opening]

variable {s next : Traversal}

theorem Turns.spells_eq (h : s.Turns next) : next.spells = s.spells := by
  cases h with
  | leaf bottom terminal given => simp [spells]
  | node bottom symbol children given => simp [spells]

theorem spells_eq_of_turns (h : Relation.ReflTransGen Turns s next) : next.spells = s.spells := by
  induction h with
  | refl => rfl
  | tail _ hturn ih => exact hturn.spells_eq.trans ih

-- A node weighs more than its children, wherever they stand among the trees that wait.
theorem Turns.sizeList_lt (h : s.Turns next) : sizeList next.stack < sizeList s.stack := by
  cases h with
  | leaf bottom terminal given =>
      simp only [sizeList_append, sizeList, size]
      omega
  | node bottom symbol children given =>
      simp only [sizeList_append, sizeList_reverse, sizeList, size]
      omega

theorem wellFounded_turns : WellFounded fun next s : Traversal => s.Turns next :=
  Subrelation.wf (fun h => h.sizeList_lt)
    (InvImage.wf (fun s : Traversal => sizeList s.stack) Nat.lt_wfRel.wf)

theorem exists_turns (h : s.stack ≠ []) : ∃ next, s.Turns next := by
  obtain ⟨stack, given⟩ := s
  obtain ⟨bottom, top, rfl⟩ := (List.eq_nil_or_concat stack).resolve_left h
  rw [List.concat_eq_append]
  cases top with
  | leaf terminal => exact ⟨_, .leaf bottom terminal given⟩
  | node symbol children => exact ⟨_, .node bottom symbol children given⟩

-- The loop empties the stack.
theorem turns_to_end (s : Traversal) :
    Relation.ReflTransGen Turns s { stack := [], given := s.spells } := by
  induction s using wellFounded_turns.induction with
  | _ s ih =>
      by_cases hs : s.stack = []
      · have hend : s = { stack := [], given := s.spells } := by
          obtain ⟨stack, given⟩ := s
          obtain rfl : stack = [] := hs
          simp [spells]
        rw [← hend]
      · obtain ⟨next, hturn⟩ := exists_turns hs
        rw [← hturn.spells_eq]
        exact .head hturn (ih next hturn)

end Traversal

theorem yieldList_eq_flatMap (ts : List Tree) : yieldList ts = ts.flatMap leaves := by
  induction ts with
  | nil => rfl
  | cons t ts ih => rw [yieldList_cons, ih, List.flatMap_cons, leaves_eq_yield]

-- The traversal with a stack gives out the leaves of the tree from left to right, so the terminals
-- of a node are those of its children in a row. The loop comes to an end with them, and in each
-- turn what is given out and the trees on the stack, from the top, make up the whole.
theorem leaves_flatten (t : Tree) :
    t.leaves = t.yield ∧
    (∀ symbol children, t = .node symbol children → t.leaves = children.flatMap leaves) ∧
    Relation.ReflTransGen Traversal.Turns (.opening t) { stack := [], given := t.leaves } ∧
    Acc (fun next s => Traversal.Turns s next) (.opening t) ∧
    ∀ s, Relation.ReflTransGen Traversal.Turns (.opening t) s →
      s.given ++ s.stack.reverse.flatMap leaves = t.leaves ∧
        (s.stack ≠ [] → ∃ next, s.Turns next) := by
  refine ⟨leaves_eq_yield t, ?_, ?_, Traversal.wellFounded_turns.apply _, fun s hs => ⟨?_, ?_⟩⟩
  · rintro symbol children rfl
    rw [leaves_eq_yield, yield_node, yieldList_eq_flatMap]
  · rw [leaves_eq_yield, ← Traversal.spells_opening]
    exact Traversal.turns_to_end _
  · rw [← yieldList_eq_flatMap, leaves_eq_yield, ← Traversal.spells_opening]
    exact Traversal.spells_eq_of_turns hs
  · exact Traversal.exists_turns

end Tree

end ContextFree
