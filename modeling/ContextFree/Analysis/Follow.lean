import ContextFree.Analysis.First

namespace ContextFree

-- For each nonterminal the terminals that can come right after it. The end
-- marker stands for the end of the input.
abbrev FollowSets := Family (List String)

namespace FollowSets

def of (follows : FollowSets) (name : String) : List String := (follows.value? name).getD []

-- The nonterminals of a sequence, each with what comes after it.
def occurrences : List Symbol → List (String × List Symbol)
  | [] => []
  | .terminal _ :: rest => occurrences rest
  | .nonterminal name :: rest => (name, rest) :: occurrences rest

-- Adds to one nonterminal of a right-hand side what can begin the rest. If the
-- rest can be empty, whatever follows the left side follows it, too.
def extendAt (firsts : FirstSets) (lhs : String) (follows : FollowSets)
    (occurrence : String × List Symbol) : FollowSets :=
  let after := firsts.ofSequence occurrence.2
  let widened : FollowSets := follows.change occurrence.1 (merge · after.terminals)
  if after.nullable then widened.change occurrence.1 (merge · (widened.of lhs)) else widened

def extend (firsts : FirstSets) (follows : FollowSets) (p : Production) : FollowSets :=
  (occurrences p.rhs).foldl (extendAt firsts p.lhs) follows

def initial (g : Grammar) : FollowSets :=
  g.sortedNonterminals.map fun name => (name, if name = g.start then [endMarker] else [])

def round (g : Grammar) (firsts : FirstSets) (follows : FollowSets) : FollowSets :=
  g.productions.foldl (extend firsts) follows

-- Each round but the last adds to some nonterminal the end marker, a terminal
-- of the grammar or one from the given FIRST sets.
def maxRounds (g : Grammar) (firsts : FirstSets) : Nat :=
  let terminals := 1 + g.sortedTerminals.length + (firsts.flatMap (·.2.terminals)).length
  g.sortedNonterminals.length * terminals + 1

-- The least sets that all occurrences agree with, and the number of rounds.
-- The FIRST sets may be any, not only those of the grammar.
def analyze (g : Grammar) (firsts : FirstSets) : FollowSets × Nat :=
  settle (round g firsts) (maxRounds g firsts) (initial g)

def ofGrammar (g : Grammar) (firsts : FirstSets) : FollowSets := (analyze g firsts).1

def text (follows : FollowSets) : String := Family.text id follows

end FollowSets

end ContextFree
