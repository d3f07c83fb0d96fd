import ContextFree.Production

namespace ContextFree

-- A production of which the symbols in front of the dot have been matched,
-- beginning at the position `origin` of the input.
structure Item where
  origin : Nat
  dot : Nat
  production : Production
  dot_le : dot ≤ production.rhs.length
deriving DecidableEq

namespace Item

-- The item with the given dot, if the production is that long.
def ofDot? (p : Production) (dot origin : Nat) : Option Item :=
  if h : dot ≤ p.rhs.length then some { origin, dot, production := p, dot_le := h } else none

-- Nothing of the production is matched yet.
def predicted (p : Production) (origin : Nat) : Item :=
  { origin, dot := 0, production := p, dot_le := Nat.zero_le _ }

-- The symbol after the dot. A complete item has none.
def next? (item : Item) : Option Symbol := item.production.rhs[item.dot]?

def isComplete (item : Item) : Bool := item.dot == item.production.rhs.length

-- The item with the dot behind the next symbol, if there is one.
def advance? (item : Item) : Option Item :=
  ofDot? item.production (item.dot + 1) item.origin

def text (item : Item) : String :=
  let names := item.production.rhs.map Symbol.name
  item.production.lhs ++ " -> " ++
    " ".intercalate (names.take item.dot ++ "." :: names.drop item.dot) ++
    " (" ++ toString item.origin ++ ")"

theorem next?_eq_none_iff (item : Item) : item.next? = none ↔ item.isComplete = true := by
  have := item.dot_le
  simp only [next?, isComplete, List.getElem?_eq_none_iff, beq_iff_eq]
  omega

theorem advance?_eq_none_iff (item : Item) : item.advance? = none ↔ item.isComplete = true := by
  have := item.dot_le
  unfold advance? ofDot? isComplete
  split <;> simp <;> omega

end Item

end ContextFree
