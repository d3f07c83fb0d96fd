import ContextFree.Chart.Build
import ContextFree.Tree

namespace ContextFree

-- Why no trees can be given for an item.
inductive ChartFault where
  | noItem
  | incompleteItem
  -- an edge leads to an item that cannot have been its source
  | strayEdge
  -- items nest deeper than there are items
  | tooDeep
deriving DecidableEq

-- What is kept between the questions for trees.
structure TreeMemo where
  -- the trees of complete items that do not depend on where the question came from
  known : List (Place × List Tree)
  -- the items whose trees are being collected
  active : List Place
  -- how often an item was met inside itself
  cuts : Nat

namespace TreeMemo

def initial : TreeMemo := { known := [], active := [], cuts := 0 }

def known? (b : TreeMemo) (place : Place) : Option (List Tree) := b.known.lookup place

end TreeMemo

-- Work on trees that remembers. What it remembered before it failed is kept.
abbrev TreeWork := ExceptT ChartFault (StateM TreeMemo)

-- The result of the work if nothing is remembered at first.
def TreeWork.fresh (work : TreeWork α) : Except ChartFault α :=
  (work TreeMemo.initial).1

namespace Chart

-- One step back over an edge: the item before, and what was found so far with
-- the leaf or one of the trees of the child in front.
def stepBack (c : Chart) (treesOf : Place → TreeWork (List Tree)) (after : List Tree) :
    Edge → TreeWork (List (Place × List Tree))
  | .scan predecessor =>
    match (c.item? predecessor).bind Item.next? with
    | some (.terminal name) => return [(predecessor, .leaf name :: after)]
    | _ => throw .strayEdge
  | .complete predecessor child => do
    let trees ← treesOf child
    return trees.map fun tree => (predecessor, tree :: after)

-- All lists of children that end in `after`, read off the edges backwards from
-- an item with `dot` symbols in front of its dot. The children of all edges are
-- asked for before any of them is followed, and the last way back is the first
-- to be followed.
def walkBack (c : Chart) (treesOf : Place → TreeWork (List Tree)) :
    (dot : Nat) → Place → (after : List Tree) → TreeWork (List (List Tree))
  | 0, _, after => return [after]
  | dot + 1, place, after =>
    match c.edgesOf place with
    | [] => return [after]
    | edges => do
      let ways ← edges.mapM (c.stepBack treesOf after)
      let found ← ways.flatten.reverse.mapM fun (before, after) =>
        c.walkBack treesOf dot before after
      return found.flatten

-- The lists of children that the item has matched so far. What is no item of
-- the chart has matched nothing.
def childrenVia (c : Chart) (treesOf : Place → TreeWork (List Tree)) (place : Place) :
    TreeWork (List (List Tree)) :=
  c.walkBack treesOf (((c.item? place).map Item.dot).getD 0) place []

-- The trees of a complete item. An item that is met inside itself has none, so
-- that no derivation goes in circles. Trees from which something was cut in this
-- way depend on where the question came from and are not kept.
def treesAt (c : Chart) : (depth : Nat) → Place → TreeWork (List Tree)
  | 0, _ => throw .tooDeep
  | depth + 1, place => do
    let before ← get
    match before.known? place with
    | some trees => return trees
    | none =>
      if place ∈ before.active then
        set { before with cuts := before.cuts + 1 }
        return []
      else
        match c.item? place with
        | none => throw .noItem
        | some item =>
          if item.isComplete then
            set { before with active := place :: before.active }
            let families ←
              try c.childrenVia (c.treesAt depth) place
              finally modify fun after => { after with active := after.active.erase place }
            let trees := families.map (Tree.node item.production.lhs)
            modify fun after =>
              { after with
                known := if after.cuts = before.cuts then (place, trees) :: after.known
                  else after.known }
            return trees
          else throw .incompleteItem

-- The places of all items.
def places (c : Chart) : List Place :=
  (List.range c.sets.size).flatMap fun set =>
    (List.range (c.setAt set).size).map fun index => { set, index }

-- Items are only asked about inside other items, so no question is deeper than
-- there are items.
def maxDepth (c : Chart) : Nat := c.places.length + 1

def trees (c : Chart) (place : Place) : TreeWork (List Tree) := c.treesAt c.maxDepth place

def children (c : Chart) (place : Place) : TreeWork (List (List Tree)) :=
  c.childrenVia (c.treesAt c.maxDepth) place

-- The trees of the item, asked for without anything remembered.
def freshTrees (c : Chart) (place : Place) : Except ChartFault (List Tree) :=
  (c.trees place).fresh

-- The trees of all accepting items.
def parses (c : Chart) : Except ChartFault (List Tree) :=
  TreeWork.fresh do return (← c.accepting.mapM c.trees).flatten

-- All parse trees of the tokens.
def parse (g : Grammar) (tokens : List String) : Except ChartFault (List Tree) :=
  (build g tokens).parses

end Chart

end ContextFree
