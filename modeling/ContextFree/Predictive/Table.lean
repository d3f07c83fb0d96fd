import ContextFree.Analysis.Follow

namespace ContextFree

-- The productions worth trying when a nonterminal is to be expanded and the
-- given terminal comes next.
structure Cell where
  nonterminal : String
  terminal : String
  productions : List Production
deriving DecidableEq

namespace Cell

-- Does one token of lookahead fail to pick a production?
def isConflict (cell : Cell) : Bool := 1 < cell.productions.length

-- Puts a production behind the others, unless it is among them.
def add (p : Production) (cell : Cell) : Cell :=
  { cell with productions := merge cell.productions [p] }

@[simp] theorem nonterminal_add (p : Production) (cell : Cell) :
    (cell.add p).nonterminal = cell.nonterminal := rfl

@[simp] theorem terminal_add (p : Production) (cell : Cell) :
    (cell.add p).terminal = cell.terminal := rfl

@[simp] theorem add_add (p : Production) (cell : Cell) : (cell.add p).add p = cell.add p := by
  have mem : p ∈ merge cell.productions [p] := (mem_merge ..).mpr (.inr (List.mem_singleton_self p))
  simp only [add, Cell.mk.injEq, true_and]
  rw [merge, if_pos mem, merge]

-- The right-hand sides, as they stand in the table.
def text (cell : Cell) : String := " / ".intercalate (cell.productions.map Production.body)

-- The explanation of a conflict.
def report (cell : Cell) : String :=
  let lookahead :=
    if cell.terminal = endMarker then "the end of the input" else "'" ++ cell.terminal ++ "'"
  joinLines
    (("When we are expanding '" ++ cell.nonterminal ++ "' and see " ++ lookahead ++
        " we don't know whether:") ::
      cell.productions.map fun p => "- to use `" ++ p.text ++ "`")

-- The explanation of all conflicts of a table.
def reportAll (conflicts : List Cell) : String :=
  toString conflicts.length ++ " conflicts:\n\n" ++ "\n\n".intercalate (conflicts.map report)

end Cell

-- What to expand a nonterminal into, by the next terminal. A pair without a
-- cell has no productions.
structure Table where
  nonterminals : List String
  terminals : List String
  cells : List Cell

namespace Table

def cell? (t : Table) (nonterminal terminal : String) : Option Cell :=
  t.cells.find? fun c => c.nonterminal = nonterminal ∧ c.terminal = terminal

def productionsAt (t : Table) (nonterminal terminal : String) : List Production :=
  match t.cell? nonterminal terminal with
  | none => []
  | some cell => cell.productions

def conflicts (t : Table) : List Cell := t.cells.filter Cell.isConflict

def cellText (t : Table) (nonterminal terminal : String) : String :=
  ((t.cell? nonterminal terminal).map Cell.text).getD ""

-- The width of the columns: nothing is cut.
def columnWidth (t : Table) : Nat :=
  (t.terminals.map String.length ++
    t.nonterminals.flatMap fun row => t.terminals.map fun column =>
      (t.cellText row column).length).foldl max 6

def rowNameWidth (t : Table) : Nat := (t.nonterminals.map String.length).foldl max 4

-- One line of the drawing.
def line (t : Table) (rowName : String) (texts : List String) : String :=
  padTo t.rowNameWidth rowName ++ " | " ++ " ".intercalate (texts.map (padTo t.columnWidth))

def text (t : Table) : String :=
  let header := t.line "" t.terminals
  joinLines (header :: String.ofList (List.replicate header.length '-') ::
    t.nonterminals.map fun row => t.line row (t.terminals.map (t.cellText row)))

-- The terminals that call for a production: those its right-hand side can
-- begin with and, if that can be empty, those that follow the left side.
def lookahead (firsts : FirstSets) (follows : FollowSets) (p : Production) : List String :=
  let first := firsts.ofSequence p.rhs
  if first.nullable then merge first.terminals (follows.of p.lhs) else first.terminals

-- One cell for each row and column, row by row, with nothing in it.
def blank (rows columns : List String) : List Cell :=
  rows.flatMap fun row => columns.map fun column =>
    { nonterminal := row, terminal := column, productions := [] }

-- Enters a production in the row of its left side. A terminal that has no column is passed over.
def enter (p : Production) (cells : List Cell) (terminal : String) : List Cell :=
  cells.map fun cell =>
    if p.lhs = cell.nonterminal ∧ cell.terminal = terminal then cell.add p else cell

-- Enters a production for every terminal that calls for it.
def enterAll (firsts : FirstSets) (follows : FollowSets) (cells : List Cell) (p : Production) :
    List Cell :=
  (lookahead firsts follows p).foldl (enter p) cells

-- The table of a grammar by the given sets, which may be those of another grammar. It is filled
-- with one production after the other.
def ofSets (g : Grammar) (firsts : FirstSets) (follows : FollowSets) : Table :=
  let columns := g.sortedTerminals ++ [endMarker]
  { nonterminals := g.sortedNonterminals
    terminals := columns
    cells := g.productions.foldl (enterAll firsts follows) (blank g.sortedNonterminals columns) }

def ofGrammar (g : Grammar) : Table :=
  let firsts := FirstSets.ofGrammar g
  ofSets g firsts (FollowSets.ofGrammar g firsts)

end Table

end ContextFree
