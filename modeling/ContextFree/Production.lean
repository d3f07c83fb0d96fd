import ContextFree.Symbol

namespace ContextFree

-- One way of expanding the nonterminal `lhs`.
structure Production where
  lhs : String
  rhs : List Symbol
deriving DecidableEq

namespace Production

-- Does the production derive the empty sequence at once?
def isEmpty (p : Production) : Bool := p.rhs.isEmpty

-- The right-hand side as text.
def body (p : Production) : String :=
  match p.rhs with
  | [] => emptySequence
  | rhs => " ".intercalate (rhs.map Symbol.name)

def text (p : Production) : String := p.lhs ++ " -> " ++ p.body

end Production

end ContextFree
