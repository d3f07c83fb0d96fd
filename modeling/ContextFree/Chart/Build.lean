import ContextFree.Chart.ItemSet
import ContextFree.Grammar

namespace ContextFree

-- The items found for an input: one set for each position, the end included.
structure Chart where
  grammar : Grammar
  tokens : List String
  sets : Array ItemSet

namespace Chart

def setAt (c : Chart) (position : Nat) : ItemSet := c.sets.getD position .initial

def item? (c : Chart) (place : Place) : Option Item := (c.setAt place.set).items[place.index]?

def edgesOf (c : Chart) (place : Place) : List Edge := (c.setAt place.set).edgesOf place.index

def update (c : Chart) (position : Nat) (f : ItemSet → ItemSet) : Chart :=
  { c with sets := c.sets.modify position f }

-- The dot of the waiting parent moves over the nonterminal that the child, which
-- ends at `position`, has matched.
def complete (c : Chart) (position : Nat) (parent child : Place) : Chart :=
  match (c.item? parent).bind Item.advance? with
  | none => c
  | some item => c.update position (·.insertVia item (.complete parent child))

-- The next token has to be the terminal after the dot.
def scan (c : Chart) (place : Place) (item : Item) (terminal : String) : Chart :=
  if c.tokens[place.set]? = some terminal then
    match item.advance? with
    | none => c
    | some advanced => c.update (place.set + 1) (·.insertVia advanced (.scan place))
  else c

-- Every production of the nonterminal after the dot may begin here. What matched
-- it with nothing before the item came to wait is caught up on.
def predict (c : Chart) (place : Place) (name : String) : Chart :=
  let predictions := (c.grammar.productionsFor name).map (Item.predicted · place.set)
  let c := c.update place.set fun s => predictions.foldl ItemSet.insert s
  let c := c.update place.set fun s => { s with waiting := s.waiting ++ [(name, place.index)] }
  ((c.setAt place.set).emptyOf name).foldl
    (fun c child => c.complete place.set place { set := place.set, index := child }) c

-- Every item that waited at the origin moves on. If nothing was matched, a note
-- is left for the items that will come to wait here.
def finish (c : Chart) (place : Place) (item : Item) : Chart :=
  let name := item.production.lhs
  let c :=
    if item.origin = place.set then
      c.update place.set fun s => { s with empty := s.empty ++ [(name, place.index)] }
    else c
  ((c.setAt item.origin).waitingFor name).foldl
    (fun c parent => c.complete place.set { set := item.origin, index := parent } place) c

-- Draws the consequences of one item.
def process (c : Chart) (place : Place) (item : Item) : Chart :=
  match item.next? with
  | some (.terminal terminal) => c.scan place item terminal
  | some (.nonterminal name) => c.predict place name
  | none => c.finish place item

-- The productions with each place for the dot.
def dotted (g : Grammar) : List (Production × Nat) :=
  g.productions.flatMap fun p => (List.range (p.rhs.length + 1)).map (p, ·)

-- More than the number of items that fit into the set: a production, a dot in
-- it and an origin up to the position.
def capacity (c : Chart) (position : Nat) : Nat := (dotted c.grammar).length * (position + 1) + 1

-- Processes the items of a set from `index` on, also those that are added
-- meanwhile. The fuel is what the set can still hold.
def close (position : Nat) : Nat → Nat → Chart → Chart
  | 0, _, c => c
  | fuel + 1, index, c =>
    let place : Place := { set := position, index }
    match c.item? place with
    | none => c
    | some item => close position fuel (index + 1) (c.process place item)

def closeSet (c : Chart) (position : Nat) : Chart := close position (c.capacity position) 0 c

-- The productions of the start symbol begin at the front of the input.
def initial (g : Grammar) (tokens : List String) : Chart :=
  let empty : Chart :=
    { grammar := g, tokens, sets := Array.replicate (tokens.length + 1) .initial }
  empty.update 0 fun s => ((g.productionsFor g.start).map (Item.predicted · 0)).foldl
    ItemSet.insert s

-- The whole chart. A set is closed before the next one, to which it only adds.
def build (g : Grammar) (tokens : List String) : Chart :=
  (List.range (tokens.length + 1)).foldl closeSet (initial g tokens)

-- The complete items for the start symbol that span the whole input.
def accepting (c : Chart) : List Place :=
  let last := c.sets.size - 1
  (List.range (c.setAt last).size).filterMap fun index =>
    let place : Place := { set := last, index }
    match c.item? place with
    | some item =>
      if item.isComplete ∧ item.origin = 0 ∧ item.production.lhs = c.grammar.start then some place
      else none
    | none => none

def accepts (c : Chart) : Bool := !c.accepting.isEmpty

-- The lines for one set.
def setLines (c : Chart) (position : Nat) : List String :=
  let next := c.tokens.getD position endMarker
  ("== " ++ toString position ++ " == next: " ++ next) ::
    ((c.setAt position).items.toList.zipIdx.map fun (item, index) =>
      let sources := (c.edgesOf { set := position, index }).map Edge.text
      let origin := if sources.isEmpty then "" else "   <- " ++ "; ".intercalate sources
      "  [" ++ toString index ++ "] " ++ item.text ++ origin)

def text (c : Chart) : String :=
  joinLines ((List.range c.sets.size).flatMap c.setLines)

end Chart

end ContextFree
