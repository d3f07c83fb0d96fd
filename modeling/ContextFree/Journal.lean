import ContextFree.Chart.Trees
import ContextFree.Backtracking.Search
import ContextFree.Grammar.Written
import ContextFree.Predictive.Parser
import ContextFree.Text.Quote

namespace ContextFree

-- The parts of the program that report on their work.
inductive Reporter where
  | grammar
  | sets
  | predictive
  | backtracking
  | chart
deriving DecidableEq

def Reporter.name : Reporter → String
  | .grammar => "cfparse.grammar"
  | .sets => "cfparse.first_follow"
  | .predictive => "cfparse.ll1"
  | .backtracking => "cfparse.descent"
  | .chart => "cfparse.earley"

structure Report where
  reporter : Reporter
  message : String
deriving DecidableEq

-- The report as a line of text.
def Report.line (r : Report) : String := r.reporter.name ++ ": " ++ r.message

-- What the program reports while it works, in order.
namespace Journal

-- Each undeclared label once.
def ofWritten (w : WrittenGrammar) : List Report :=
  w.undeclaredLabels.map fun label =>
    { reporter := .grammar
      message := "treating undeclared label " ++ quoted label ++ " as a terminal" }

-- The two analyses, the table and, if it has no conflicts, each step.
def ofPredictive (g : Grammar) (tokens : List String) : List Report :=
  let (firsts, firstRounds) := FirstSets.analyze g
  let (follows, followRounds) := FollowSets.analyze g firsts
  let table := Table.ofSets g firsts follows
  [{ reporter := .sets, message := "FIRST settled after " ++ toString firstRounds ++ " passes" },
    { reporter := .sets, message := "FOLLOW settled after " ++ toString followRounds ++ " passes" },
    { reporter := .predictive, message := "LL(1) table:\n" ++ table.text }] ++
    (table.parseTrail g.start tokens).map fun message => { reporter := .predictive, message }

-- How many attempts the search took.
def ofBacktracking (g : Grammar) (tokens : List String) : Except AttemptFault (List Report) :=
  (Backtracking.search g tokens).map fun
    | (some _, tally) =>
      [{ reporter := .backtracking
         message := "found a derivation after exploring " ++ toString tally.explored ++
          " states" }]
    | (none, tally) =>
      [{ reporter := .backtracking
         message := "no derivation: explored " ++ toString tally.explored ++
          " states, pruned " ++ toString tally.pruned }]

-- The chart, and how many trees came of it.
def ofChart (g : Grammar) (tokens : List String) : List Report :=
  let chart := Chart.build g tokens
  { reporter := .chart, message := "Earley chart:\n" ++ chart.text } ::
    match chart.parses with
    | .error _ => []
    | .ok trees =>
      [{ reporter := .chart
         message := toString trees.length ++ " parse trees for " ++ toString tokens.length ++
          " tokens" }]

end Journal

end ContextFree
