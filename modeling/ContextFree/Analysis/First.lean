import ContextFree.Analysis.Settle
import ContextFree.Grammar

namespace ContextFree

-- What a nonterminal or a sequence of symbols can begin with: these terminals,
-- and nothing at all if it is nullable.
structure First where
  terminals : List String
  nullable : Bool
deriving DecidableEq

-- The terminals and, for a nullable symbol, the empty sequence, as texts.
def First.members (first : First) : List String :=
  first.terminals ++ (if first.nullable then [emptySequence] else [])

abbrev FirstSets := Family First

namespace FirstSets

-- A nonterminal that the family does not know begins with nothing and is not nullable.
def of (firsts : FirstSets) (name : String) : First :=
  (firsts.value? name).getD { terminals := [], nullable := false }

-- The symbols are taken from the left as long as all before them are nullable.
def ofSequence (firsts : FirstSets) : List Symbol → First
  | [] => { terminals := [], nullable := true }
  | .terminal name :: _ => { terminals := [name], nullable := false }
  | .nonterminal name :: rest =>
    let head := firsts.of name
    if head.nullable then
      let tail := firsts.ofSequence rest
      { tail with terminals := merge head.terminals tail.terminals }
    else head

-- Lets one production add to the set of its left side.
def extend (firsts : FirstSets) (p : Production) : FirstSets :=
  let body := firsts.ofSequence p.rhs
  firsts.change p.lhs fun old =>
    { terminals := merge old.terminals body.terminals
      nullable := old.nullable || body.nullable }

def initial (g : Grammar) : FirstSets :=
  g.sortedNonterminals.map (·, { terminals := [], nullable := false })

def round (g : Grammar) (firsts : FirstSets) : FirstSets := g.productions.foldl extend firsts

-- Each round but the last adds a terminal or nullability to some nonterminal.
def maxRounds (g : Grammar) : Nat :=
  g.sortedNonterminals.length * (g.sortedTerminals.length + 1) + 1

-- The least sets that all productions agree with, and the number of rounds.
def analyze (g : Grammar) : FirstSets × Nat := settle (round g) (maxRounds g) (initial g)

def ofGrammar (g : Grammar) : FirstSets := (analyze g).1

def text (firsts : FirstSets) : String := Family.text First.members firsts

end FirstSets

end ContextFree
