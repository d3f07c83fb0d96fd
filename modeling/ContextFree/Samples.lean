import ContextFree.Grammar.Written

namespace ContextFree

-- Small grammars for trying the parsers out.
namespace Samples

-- Sums and products with the left recursion taken out, so that one token of
-- lookahead decides.
def arithmetic : WrittenGrammar where
  nonterminals := "E E' T T' F ID"
  terminals := "+ * ( ) w x y z"
  rules := [
    ("E", "T E'"),
    ("E'", "+ T E' | "),
    ("T", "F T'"),
    ("T'", "* F T' | "),
    ("F", "( E ) | ID"),
    ("ID", "w | x | y | z")]
  start := "E"

-- The same language written the natural way: unambiguous, but left recursive.
def leftRecursive : WrittenGrammar where
  nonterminals := "E T F ID"
  terminals := "+ * ( ) w x y z"
  rules := [
    ("E", "E + T | T"),
    ("T", "T * F | F"),
    ("F", "( E ) | ID"),
    ("ID", "w | x | y | z")]
  start := "E"

-- The same language without precedence.
def ambiguous : WrittenGrammar where
  nonterminals := "E ID"
  terminals := "+ * ( ) w x y z"
  rules := [
    ("E", "E + E | E * E | ( E ) | ID"),
    ("ID", "w | x | y | z")]
  start := "E"

-- A little English, in which "can" and "fish" are nouns as well as verbs.
def english : WrittenGrammar where
  nonterminals := "S NP VP PP N V P"
  terminals := "can fish in rivers they"
  rules := [
    ("S", "NP VP"),
    ("NP", "N PP | N"),
    ("PP", "P NP"),
    ("VP", "VP PP | V VP | V NP | V"),
    ("N", "can | they | fish | rivers"),
    ("P", "in"),
    ("V", "can | fish")]
  start := "S"

-- The smallest grammar with as many trees as there are bracketings.
def binary : WrittenGrammar where
  nonterminals := "S"
  terminals := "b"
  rules := [("S", "S S | b")]
  start := "S"

end Samples

-- The choice of a sample grammar.
inductive Sample where
  | arithmetic
  | leftRecursive
  | ambiguous
  | english
  | binary
deriving DecidableEq

namespace Sample

def all : List Sample := [.ambiguous, .arithmetic, .binary, .english, .leftRecursive]

def label : Sample → String
  | .arithmetic => "arithmetic"
  | .leftRecursive => "left-recursive"
  | .ambiguous => "ambiguous"
  | .english => "english"
  | .binary => "binary"

def written : Sample → WrittenGrammar
  | .arithmetic => Samples.arithmetic
  | .leftRecursive => Samples.leftRecursive
  | .ambiguous => Samples.ambiguous
  | .english => Samples.english
  | .binary => Samples.binary

def ofLabel? (label : String) : Option Sample := all.find? (·.label = label)

theorem problems_eq_nil (s : Sample) : s.written.declaration.problems = [] := by
  apply List.isEmpty_iff.mp
  cases s <;> decide +kernel

def grammar (s : Sample) : Grammar where
  toDeclaration := s.written.declaration
  problems_eq := s.problems_eq_nil

end Sample

end ContextFree
