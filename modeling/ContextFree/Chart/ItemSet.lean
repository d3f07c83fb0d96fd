import ContextFree.Chart.Item

namespace ContextFree

-- The place of an item in a chart: the set, and the index in it.
structure Place where
  set : Nat
  index : Nat
deriving DecidableEq

def Place.text (place : Place) : String :=
  "(" ++ toString place.set ++ ", " ++ toString place.index ++ ")"

-- Where an item came from: the item with the dot one symbol further left and,
-- for a nonterminal, the complete item that matched it.
inductive Edge where
  | scan (predecessor : Place)
  | complete (predecessor child : Place)
deriving DecidableEq

def Edge.text : Edge → String
  | .scan predecessor => "scan " ++ predecessor.text
  | .complete predecessor child => "complete " ++ predecessor.text ++ " with " ++ child.text

-- The items that end at one position of the input, in order of discovery, each
-- with its edges in order of discovery.
structure ItemSet where
  items : Array Item
  edges : Array (List Edge)
  -- the processed incomplete items, each with the nonterminal it waits for
  waiting : List (String × Nat)
  -- the processed complete items that matched nothing, each with its left side
  empty : List (String × Nat)

namespace ItemSet

def initial : ItemSet := { items := #[], edges := #[], waiting := [], empty := [] }

def size (s : ItemSet) : Nat := s.items.size

def index? (s : ItemSet) (item : Item) : Option Nat := s.items.idxOf? item

-- The set with the item in it, the index of the item, and whether it is new.
def add (s : ItemSet) (item : Item) : ItemSet × Nat × Bool :=
  match s.index? item with
  | some index => (s, index, false)
  | none =>
    ({ s with items := s.items.push item, edges := s.edges.push [] }, s.items.size, true)

-- The set with the item in it.
def insert (s : ItemSet) (item : Item) : ItemSet := (s.add item).1

-- The set with the item in it and one more edge to that item, also if the item
-- was there already: every way to reach it is another way to build its trees.
def insertVia (s : ItemSet) (item : Item) (edge : Edge) : ItemSet :=
  let (s, index, _) := s.add item
  { s with edges := s.edges.modify index (· ++ [edge]) }

def edgesOf (s : ItemSet) (index : Nat) : List Edge := s.edges.getD index []

-- The indices of the processed items that wait for the nonterminal.
def waitingFor (s : ItemSet) (name : String) : List Nat :=
  s.waiting.filterMap fun (other, index) => if other = name then some index else none

-- The indices of the processed items that matched the nonterminal with nothing.
def emptyOf (s : ItemSet) (name : String) : List Nat :=
  s.empty.filterMap fun (other, index) => if other = name then some index else none

end ItemSet

end ContextFree
