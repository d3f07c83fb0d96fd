import ContextFree.Symbol

namespace ContextFree

-- How many tokens are owed. A nonterminal without a sentence owes infinitely
-- many. What remains of an infinite debt when an infinite one is taken away is
-- undefined, and stays so.
inductive Debt where
  | finite (tokens : Int)
  | infinite
  | negInfinite
  | undefined
deriving DecidableEq

namespace Debt

-- A finite debt that meets one of the others becomes a floating-point number of
-- double precision, the largest of which has 53 binary ones and then 971 zeros. From
-- half of its last one further on, the nearest is no longer finite: that is 54 ones
-- and then 970 zeros, taken 194 at a time.
def limit : Nat := (Nat.pow 2 54 - 1) * Nat.pow (Nat.pow 2 194) 5

def fits (tokens : Int) : Bool := tokens.natAbs < limit

-- None if a finite debt that does not fit meets one of the others. Finite debts
-- among themselves may have any size.
def add? : Debt → Debt → Option Debt
  | .finite a, .finite b => some (.finite (a + b))
  | .finite a, b => if fits a then some b else none
  | a, .finite b => if fits b then some a else none
  | .infinite, .infinite => some .infinite
  | .negInfinite, .negInfinite => some .negInfinite
  | _, _ => some .undefined

def neg : Debt → Debt
  | .finite a => .finite (-a)
  | .infinite => .negInfinite
  | .negInfinite => .infinite
  | .undefined => .undefined

def sub? (a b : Debt) : Option Debt := add? a b.neg

-- The debt after one token was paid.
def payOne : Debt → Debt
  | .finite owed => .finite (owed - 1)
  | owed => owed

-- Is more owed than there are tokens? An undefined debt is never too large.
def exceeds : Debt → Int → Bool
  | .finite owed, tokens => tokens < owed
  | .infinite, _ => true
  | .negInfinite, _ => false
  | .undefined, _ => false

-- Can the debt be paid with the tokens? An undefined debt can not.
def within : Debt → Int → Bool
  | .finite owed, tokens => owed ≤ tokens
  | .infinite, _ => false
  | .negInfinite, _ => true
  | .undefined, _ => false

-- The debt of a nonterminal, by the lengths of the shortest sentences.
def ofName (lengths : String → Option Int) (name : String) : Debt :=
  match lengths name with
  | some length => .finite length
  | none => .infinite

-- A terminal owes one token.
def ofSymbol (lengths : String → Option Int) : Symbol → Debt
  | .terminal _ => .finite 1
  | .nonterminal name => ofName lengths name

-- The sum of the debts, from the left.
def ofSequence? (lengths : String → Option Int) (symbols : List Symbol) : Option Debt :=
  symbols.foldlM (fun owed symbol => owed.add? (ofSymbol lengths symbol)) (.finite 0)

-- The debt after a nonterminal was replaced by a sequence of symbols.
def replace? (owed : Debt) (lengths : String → Option Int) (name : String)
    (symbols : List Symbol) : Option Debt := do
  let debt ← ofSequence? lengths symbols
  let difference ← debt.sub? (ofName lengths name)
  owed.add? difference

end Debt

end ContextFree
