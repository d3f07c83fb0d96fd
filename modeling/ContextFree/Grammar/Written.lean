import ContextFree.Grammar

namespace ContextFree

-- A grammar as it is written by hand: lists of labels separated by blanks, and
-- for a left side its alternatives, separated by bars.
structure WrittenGrammar where
  nonterminals : String
  terminals : String
  rules : List (String × String)
  start : String

namespace WrittenGrammar

-- A label is a nonterminal exactly when it is declared as one.
def symbol (w : WrittenGrammar) (label : String) : Symbol :=
  if label ∈ words w.nonterminals then .nonterminal label else .terminal label

-- One production for each alternative, also for one without labels.
def ruleProductions (w : WrittenGrammar) (rule : String × String) : List Production :=
  (splitAtMark '|' rule.2).map fun alternative =>
    { lhs := trimBlanks rule.1, rhs := (words alternative).map w.symbol }

def productions (w : WrittenGrammar) : List Production := w.rules.flatMap w.ruleProductions

-- The labels on right-hand sides that were not declared, in order of their
-- first occurrence. They count as terminals.
def undeclaredLabels (w : WrittenGrammar) : List String :=
  distinct ((w.productions.flatMap (·.rhs)).filterMap fun s =>
    s.terminal?.filter (· ∉ words w.terminals))

def declaration (w : WrittenGrammar) : Declaration where
  nonterminals := words w.nonterminals
  terminals := words w.terminals ++ w.undeclaredLabels
  productions := w.productions
  start := trimBlanks w.start

def grammar? (w : WrittenGrammar) : Except (List Problem) Grammar :=
  Grammar.ofDeclaration? w.declaration

end WrittenGrammar

end ContextFree
