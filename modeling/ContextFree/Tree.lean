import ContextFree.Text.Layout

namespace ContextFree

-- A derivation tree. A leaf is a terminal; a node without children derives the
-- empty sequence.
inductive Tree where
  | leaf (terminal : String)
  | node (symbol : String) (children : List Tree)

namespace Tree

mutual

def decEq : (a b : Tree) → Decidable (a = b)
  | .leaf s, .leaf t =>
    if h : s = t then isTrue (by rw [h]) else isFalse (fun e => h (Tree.leaf.inj e))
  | .leaf _, .node _ _ => isFalse nofun
  | .node _ _, .leaf _ => isFalse nofun
  | .node a as, .node b bs =>
    if h : a = b then
      match decEqList as bs with
      | isTrue hs => isTrue (by rw [h, hs])
      | isFalse hs => isFalse (fun e => hs (Tree.node.inj e).2)
    else isFalse (fun e => h (Tree.node.inj e).1)

def decEqList : (as bs : List Tree) → Decidable (as = bs)
  | [], [] => isTrue rfl
  | [], _ :: _ => isFalse nofun
  | _ :: _, [] => isFalse nofun
  | a :: as, b :: bs =>
    match decEq a b with
    | isTrue h =>
      match decEqList as bs with
      | isTrue hs => isTrue (by rw [h, hs])
      | isFalse hs => isFalse (fun e => hs (List.cons.inj e).2)
    | isFalse h => isFalse (fun e => h (List.cons.inj e).1)

end

instance : DecidableEq Tree := decEq

def name : Tree → String
  | .leaf terminal => terminal
  | .node symbol _ => symbol

def children : Tree → List Tree
  | .leaf _ => []
  | .node _ children => children

mutual

-- The number of leaves and nodes.
def size : Tree → Nat
  | .leaf _ => 1
  | .node _ children => 1 + sizeList children

def sizeList : List Tree → Nat
  | [] => 0
  | t :: ts => size t + sizeList ts

end

theorem sizeList_append (ts us : List Tree) : sizeList (ts ++ us) = sizeList ts + sizeList us := by
  induction ts with
  | nil => simp [sizeList]
  | cons t ts ih => simp only [List.cons_append, sizeList, ih]; omega

mutual

-- The terminals of the tree from left to right.
def yield : Tree → List String
  | .leaf terminal => [terminal]
  | .node _ children => yieldList children

def yieldList : List Tree → List String
  | [] => []
  | t :: ts => yield t ++ yieldList ts

end

-- The terminals of a stack of trees, the topmost tree first. A node on top is
-- replaced by its children.
def stackLeaves : List Tree → List String
  | [] => []
  | .leaf terminal :: stack => terminal :: stackLeaves stack
  | .node _ children :: stack => stackLeaves (children ++ stack)
termination_by stack => sizeList stack
decreasing_by
  · simp only [sizeList, size]; omega
  · simp only [sizeList, size, sizeList_append]; omega

-- The terminals of the tree, collected with an explicit stack.
def leaves (t : Tree) : List String := stackLeaves [t]

mutual

-- One line for every node and leaf, children two columns further to the right.
def outlineAt (indent : Nat) : Tree → List String
  | .leaf terminal => [blanks indent ++ "'" ++ terminal ++ "'"]
  | .node symbol children =>
    (blanks indent ++ symbol) :: outlineListAt (indent + 2) children

def outlineListAt (indent : Nat) : List Tree → List String
  | [] => []
  | t :: ts => outlineAt indent t ++ outlineListAt indent ts

end

def outline (t : Tree) : List String := outlineAt 0 t

def text (t : Tree) : String := joinLines t.outline

end Tree

end ContextFree
