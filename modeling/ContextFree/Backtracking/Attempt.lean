import ContextFree.Debt
import ContextFree.Grammar
import ContextFree.Tree

namespace ContextFree

-- A symbol on the right-hand side of an expanded production: a terminal, or a
-- nonterminal that is still to be expanded or was expanded into `child`.
inductive Slot where
  | terminal (name : String)
  | unexpanded (name : String)
  | expanded (name : String) (child : Nat)
deriving DecidableEq

def Slot.ofSymbol : Symbol → Slot
  | .terminal name => .terminal name
  | .nonterminal name => .unexpanded name

-- A slot, by the index of its expansion and its own.
structure Spot where
  expansion : Nat
  slot : Nat
deriving DecidableEq

-- One expanded production: its slots, the slot that was expanded into it, and
-- the position of the input at which this happened.
structure Expansion where
  slots : List Slot
  owner : Option Spot
  origin : Nat
deriving DecidableEq

-- What cannot be asked of an attempt, and what a search can fail of.
inductive AttemptFault where
  | stepAfterEnd
  | noExpansion
  | noSlot
  | stepIntoExpanded
  | ownerNotExpanded
  | treeBeforeEnd
  | unexpandedAtEnd
  | noRoot
  -- a debt has no value
  | tooLarge
  -- a search went on longer than any search can
  | exhausted
deriving DecidableEq

def AttemptFault.message : AttemptFault → String
  | .stepAfterEnd => "stepping a complete derivation"
  | .noExpansion => "list index out of range"
  | .noSlot => "tuple index out of range"
  | .stepIntoExpanded => "stepped into an already expanded nonterminal"
  | .ownerNotExpanded => ""
  | .treeBeforeEnd => ""
  | .unexpandedAtEnd => "unexpanded nonterminal in a complete derivation"
  | .noRoot => ""
  | .tooLarge => "int too large to convert to float"
  | .exhausted => ""

-- A derivation in progress. Expansion 0 is a virtual root that holds the start
-- symbol. The cursor is at the next slot to work on, or nowhere when none is
-- left. What is owed are the tokens for the slots from the cursor on.
structure Attempt where
  expansions : Array Expansion
  cursor : Option Spot
  owed : Debt
deriving DecidableEq

-- What comes of one step: the attempts that go on, and how many tokens they have
-- consumed, one for a terminal and none for an expansion.
structure Move where
  successors : List Attempt
  consumed : Nat

namespace Attempt

def initial (g : Grammar) (lengths : String → Option Int) : Attempt where
  expansions := #[{ slots := [.unexpanded g.start], owner := none, origin := 0 }]
  cursor := some { expansion := 0, slot := 0 }
  owed := Debt.ofName lengths g.start

def isComplete (a : Attempt) : Bool := a.cursor.isNone

def expansionAt (a : Attempt) (index : Nat) : Except AttemptFault Expansion :=
  match a.expansions[index]? with
  | some expansion => .ok expansion
  | none => .error .noExpansion

def slotAt (a : Attempt) (spot : Spot) : Except AttemptFault Slot :=
  match a.expansionAt spot.expansion with
  | .error fault => .error fault
  | .ok expansion =>
    match expansion.slots[spot.slot]? with
    | some slot => .ok slot
    | none => .error .noSlot

-- The spot itself or, if it is past the end of its expansion, the next one after
-- the slot that owns the expansion, and so on. An owner lies in an older
-- expansion, so the number of climbs is bounded by the index.
def climb (a : Attempt) : (climbs : Nat) → Spot → Except AttemptFault (Option Spot)
  | 0, _ => .ok none
  | climbs + 1, spot =>
    match a.expansionAt spot.expansion with
    | .error fault => .error fault
    | .ok expansion =>
      if spot.slot < expansion.slots.length then .ok (some spot)
      else
        match expansion.owner with
        | none => .ok none
        | some owner => a.climb climbs { owner with slot := owner.slot + 1 }

-- Moves the cursor off the end of finished expansions.
def leaveFinished (a : Attempt) : Except AttemptFault Attempt :=
  match a.cursor with
  | none => .ok a
  | some spot =>
    match a.climb (spot.expansion + 1) spot with
    | .error fault => .error fault
    | .ok cursor => .ok { a with cursor }

-- The attempt after the terminal at the spot was matched.
def consume (a : Attempt) (spot : Spot) : Except AttemptFault Attempt :=
  leaveFinished { a with
    cursor := some { spot with slot := spot.slot + 1 }
    owed := a.owed.payOne }

-- The attempt after the nonterminal at the spot was expanded.
def expand (a : Attempt) (lengths : String → Option Int) (spot : Spot) (name : String)
    (p : Production) (position : Nat) : Except AttemptFault Attempt :=
  match a.owed.replace? lengths name p.rhs with
  | none => .error .tooLarge
  | some owed =>
    let child := a.expansions.size
    let opened := a.expansions.modify spot.expansion fun e =>
      { e with slots := e.slots.set spot.slot (.expanded name child) }
    leaveFinished {
      expansions := opened.push
        { slots := p.rhs.map Slot.ofSymbol, owner := some spot, origin := position }
      cursor := some { expansion := child, slot := 0 }
      owed }

-- Works on the slot under the cursor. A terminal has to be the token, which is
-- none at the end of the input. A nonterminal is expanded in every way.
def step (a : Attempt) (g : Grammar) (lengths : String → Option Int) (token : Option String)
    (position : Nat) : Except AttemptFault Move :=
  match a.cursor with
  | none => .error .stepAfterEnd
  | some spot =>
    match a.slotAt spot with
    | .error fault => .error fault
    | .ok (.terminal name) =>
      if token = some name then
        (a.consume spot).map fun next => { successors := [next], consumed := 1 }
      else .ok { successors := [], consumed := 1 }
    | .ok (.unexpanded name) =>
      ((g.productionsFor name).mapM fun p => a.expand lengths spot name p position).map
        fun successors => { successors, consumed := 0 }
    | .ok (.expanded _ _) => .error .stepIntoExpanded

-- The nonterminal that was expanded. The virtual root has none.
def label? (a : Attempt) (index : Nat) : Except AttemptFault (Option String) :=
  match a.expansionAt index with
  | .error fault => .error fault
  | .ok expansion =>
    match expansion.owner with
    | none => .ok none
    | some owner =>
      match a.slotAt owner with
      | .error fault => .error fault
      | .ok (.expanded name _) => .ok (some name)
      | .ok _ => .error .ownerNotExpanded

-- How many of the expansions from an owner outwards are of this nonterminal and
-- of this position.
def countOutwards (a : Attempt) (label : Option String) (origin : Nat) :
    (climbs : Nat) → Option Spot → Except AttemptFault Nat
  | 0, _ => .ok 0
  | _ + 1, none => .ok 0
  | climbs + 1, some owner => do
    let expansion ← a.expansionAt owner.expansion
    let other ← a.label? owner.expansion
    let further ← a.countOutwards label origin climbs expansion.owner
    return further + if expansion.origin = origin ∧ other = label then 1 else 0

-- How many of the expansions around this one are of the same nonterminal and of
-- the same position.
def nesting (a : Attempt) (index : Nat) : Except AttemptFault Nat := do
  let label ← a.label? index
  let expansion ← a.expansionAt index
  a.countOutwards label expansion.origin index expansion.owner

-- The trees for the slots of an expansion. Children are newer than their owner,
-- so there are no more levels than expansions.
def treesAt (a : Attempt) : (levels : Nat) → Nat → Except AttemptFault (List Tree)
  | 0, _ => .error .noExpansion
  | levels + 1, index => do
    let expansion ← a.expansionAt index
    expansion.slots.mapM fun
      | .terminal name => .ok (.leaf name)
      | .expanded name child => (a.treesAt levels child).map (.node name)
      | .unexpanded _ => .error .unexpandedAtEnd

-- The tree of a complete attempt.
def tree (a : Attempt) : Except AttemptFault Tree :=
  if a.isComplete then
    match a.treesAt a.expansions.size 0 with
    | .error fault => .error fault
    | .ok [.node name children] => .ok (.node name children)
    | .ok _ => .error .noRoot
  else .error .treeBeforeEnd

end Attempt

end ContextFree
