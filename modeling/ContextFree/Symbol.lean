namespace ContextFree

-- A symbol of a grammar. The kind belongs to the symbol, so a terminal and a
-- nonterminal of one name are different symbols.
inductive Symbol where
  | terminal (name : String)
  | nonterminal (name : String)
deriving DecidableEq

namespace Symbol

def name : Symbol → String
  | .terminal name => name
  | .nonterminal name => name

-- The name, if the symbol is a terminal.
def terminal? : Symbol → Option String
  | .terminal name => some name
  | .nonterminal _ => none

end Symbol

-- The name of the end of the input. No grammar may declare it, so inside a
-- lookahead or a FOLLOW set it means that no token is left.
def endMarker : String := "$"

-- How an empty sequence of symbols is written.
def emptySequence : String := "ε"

end ContextFree
