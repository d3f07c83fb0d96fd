import ContextFree.Analysis.Shortest
import ContextFree.Backtracking.Attempt

namespace ContextFree

-- How many attempts were taken up, and how many were dropped before that.
structure Tally where
  explored : Nat
  pruned : Nat
deriving DecidableEq

def Tally.initial : Tally := { explored := 0, pruned := 0 }

-- What a search is for: the grammar, what its nonterminals owe at least, and the
-- length of the input.
structure Task where
  grammar : Grammar
  lengths : String → Option Int
  count : Nat

abbrev Search := StateT Tally (Except AttemptFault)

namespace Task

-- None if the lengths of the shortest sentences cannot be found.
def ofGrammar? (g : Grammar) (count : Nat) : Option Task :=
  (Lengths.shortest? g).map fun shortest => { grammar := g, lengths := shortest.toInt, count }

-- Is an attempt worth taking up after a step? It must not owe more than is left
-- of the input. And an expansion must not lie inside more expansions of the same
-- nonterminal from the same position than there are tokens left: each of them
-- would have to cover more of the input than the one inside it.
def admits (task : Task) (position consumed : Nat) (a : Attempt) : Except AttemptFault Bool :=
  if a.owed.exceeds ((task.count : Int) - (position + consumed)) then .ok false
  else if consumed = 0 then
    (a.nesting (a.expansions.size - 1)).map fun depth =>
      decide ((depth : Int) ≤ (task.count : Int) - position)
  else .ok true

-- The successors worth taking up, in order.
def admitted (task : Task) (position : Nat) (move : Move) : Except AttemptFault (List Attempt) :=
  move.successors.filterM (task.admits position move.consumed)

-- Asks the attempts one after the other until one has a tree.
def firstTree (visit : Attempt → Search (Option Tree)) : List Attempt → Search (Option Tree)
  | [] => return none
  | a :: rest => do
    match ← visit a with
    | some tree => return some tree
    | none => firstTree visit rest

-- Explores an attempt with the cursor of the input at `position`, in front of
-- the token. Attempts that have consumed it are passed on to `after`. The fuel
-- bounds the expansions on the way there.
def exploreAt (task : Task) (token : Option String) (position : Nat)
    (after : Attempt → Search (Option Tree)) : (fuel : Nat) → Attempt → Search (Option Tree)
  | 0, _ => throw .exhausted
  | fuel + 1, a => do
    modify fun tally => { tally with explored := tally.explored + 1 }
    if a.isComplete then
      if token.isNone then return some (← a.tree) else return none
    else
      let move ← a.step task.grammar task.lengths token position
      let successors ← task.admitted position move
      modify fun tally =>
        { tally with pruned := tally.pruned + (move.successors.length - successors.length) }
      if move.consumed = 0 then
        firstTree (task.exploreAt token position after fuel) successors
      else firstTree after successors

-- The longest right-hand side.
def longest (task : Task) : Nat :=
  (task.grammar.productions.map (·.rhs.length)).foldl max 0

-- No more expansions than this can be made at one position. Every slot that is
-- open now spreads into a tree in which each nonterminal lies inside itself no
-- more often than there are tokens left.
def fuelAt (task : Task) (position : Nat) (a : Attempt) : Nat :=
  let levels := task.grammar.nonterminals.length * (task.count - position + 1)
  (a.expansions.toList.flatMap (·.slots)).length * Nat.pow (task.longest + 1) levels + 2

-- Explores an attempt with these tokens left.
def explore (task : Task) : (tokens : List String) → (position : Nat) → Attempt →
    Search (Option Tree)
  | [], position, a =>
    task.exploreAt none position (fun _ => return none) (task.fuelAt position a) a
  | token :: rest, position, a =>
    task.exploreAt (some token) position (task.explore rest (position + 1))
      (task.fuelAt position a) a

end Task

namespace Backtracking

-- Searches depth first for a derivation of the tokens. The productions of a
-- nonterminal are tried in declared order, and the first success counts.
def search (g : Grammar) (tokens : List String) : Except AttemptFault (Option Tree × Tally) :=
  match Task.ofGrammar? g tokens.length with
  | none => .error .tooLarge
  | some task =>
    let start := Attempt.initial g task.lengths
    if start.owed.within tokens.length then (task.explore tokens 0 start).run .initial
    else .ok (none, .initial)

def parse (g : Grammar) (tokens : List String) : Except AttemptFault (Option Tree) :=
  (search g tokens).map Prod.fst

end Backtracking

end ContextFree
