import ContextFree.Tree

namespace ContextFree

-- A member of a child list: a leaf, or a node whose own children are another list.
inductive Branch where
  | leaf (terminal : String)
  | node (symbol : String) (list : Nat)
deriving DecidableEq

-- A tree under construction, cut up into child lists that are known by their
-- index. List 0 holds the root.
abbrev Forest := Array (List Branch)

namespace Forest

-- A virtual root that has no child yet.
def initial : Forest := #[[]]

-- Appends a branch to a child list.
def addTo (forest : Forest) (list : Nat) (branch : Branch) : Forest :=
  forest.modify list (· ++ [branch])

def resolve (children : Array (List Tree)) : Branch → Tree
  | .leaf terminal => .leaf terminal
  | .node symbol list => .node symbol (children.getD list [])

-- Turns the lists below `count` into trees, the last one first. A list is always
-- newer than the one its branch lives in, so its trees are there when needed.
def resolveBelow (forest : Forest) : Nat → Array (List Tree) → Array (List Tree)
  | 0, children => children
  | list + 1, children =>
    let built := (forest.getD list []).map (resolve children)
    resolveBelow forest list (children.setIfInBounds list built)

-- The trees of every child list.
def trees (forest : Forest) : Array (List Tree) :=
  resolveBelow forest forest.size (Array.replicate forest.size [])

-- The only child of the virtual root, which has to be a node.
def root? (forest : Forest) : Option Tree :=
  match forest.trees.getD 0 [] with
  | [.node symbol children] => some (.node symbol children)
  | _ => none

end Forest

end ContextFree
