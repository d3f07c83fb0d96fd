import ContextFree.Predictive.Machine

namespace ContextFree

-- The answer of the predictive parser. Conflicts say nothing about the input:
-- they mean that the table cannot decide.
inductive Outcome where
  | parse (tree : Tree)
  | noParse
  | conflict (conflicts : List Cell)
deriving DecidableEq

-- The answer of a parser that has no conflicts.
def Outcome.ofTree? : Option Tree → Outcome
  | some tree => .parse tree
  | none => .noParse

namespace Table

-- Parses with any table. One with conflicts is never used, and the end marker is
-- no token, since the table could not tell it from the end of the input.
def parse (t : Table) (start : String) (tokens : List String) : Except MachineFault Outcome :=
  if t.conflicts ≠ [] then .ok (.conflict t.conflicts)
  else if endMarker ∈ tokens then .ok .noParse
  else
    match t.run (Config.initial start tokens) with
    | .error fault => .error fault
    | .ok .rejected => .ok .noParse
    | .ok (.accepted forest) =>
      match forest.root? with
      | some tree => .ok (.parse tree)
      | none => .error .noRoot

-- What `parse` reports while it works.
def parseTrail (t : Table) (start : String) (tokens : List String) : List String :=
  if t.conflicts ≠ [] then []
  else if endMarker ∈ tokens then ["the end marker appears in the input"]
  else t.trail (Config.initial start tokens)

end Table

namespace Predictive

-- Builds the table of the grammar and parses with it.
def parse (g : Grammar) (tokens : List String) : Except MachineFault Outcome :=
  (Table.ofGrammar g).parse g.start tokens

end Predictive

end ContextFree
