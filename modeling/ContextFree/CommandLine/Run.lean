import ContextFree.CommandLine.Options
import ContextFree.Journal

namespace ContextFree.CommandLine

-- What the program leaves behind.
structure Response where
  status : Nat
  output : String
  errors : String
deriving DecidableEq

-- What can stop the program after its arguments were accepted.
inductive Failure where
  | noGrammar
deriving DecidableEq

def Failure.message : Failure → String
  | .noGrammar => "unhashable type: 'list'"

-- The lines that a method prints, and whether it accepted the input.
structure Printed where
  lines : List String
  accepted : Bool

def Printed.refusal : Printed := { lines := ["no parse"], accepted := false }

-- The sets and the table, as they are shown on request.
def tableLines (g : Grammar) : List String :=
  let firsts := FirstSets.ofGrammar g
  let follows := FollowSets.ofGrammar g firsts
  ["FIRST:", firsts.text, "FOLLOW:", follows.text, "TABLE:", (Table.ofSets g firsts follows).text,
    ""]

def printOutcome : Outcome → Printed
  | .parse tree => { lines := [tree.text], accepted := true }
  | .noParse => .refusal
  | .conflict conflicts =>
    { lines := ["conflict: the grammar is not LL(1)", Cell.reportAll conflicts]
      accepted := false }

def runPredictive (g : Grammar) (tokens : List String) (showTable : Bool) : Printed :=
  let printed := match Predictive.parse g tokens with
    | .ok outcome => printOutcome outcome
    | .error _ => .refusal
  if showTable then { printed with lines := tableLines g ++ printed.lines } else printed

def runBacktracking (g : Grammar) (tokens : List String) : Printed :=
  match Backtracking.parse g tokens with
  | .ok tree => printOutcome (.ofTree? tree)
  | .error _ => .refusal

def runChart (g : Grammar) (tokens : List String) : Printed :=
  match Chart.parse g tokens with
  | .ok [] => .refusal
  | .ok trees =>
    let count := toString trees.length ++ (if trees.length = 1 then " tree" else " trees")
    { lines := count :: trees.flatMap fun tree => [tree.text, ""], accepted := true }
  | .error _ => .refusal

def Method.run (g : Grammar) (tokens : List String) (showTable : Bool) : Method → Printed
  | .predictive => runPredictive g tokens showTable
  | .backtracking => runBacktracking g tokens
  | .chart | .unnamed => runChart g tokens

def Method.journal (g : Grammar) (tokens : List String) : Method → List Report
  | .predictive => Journal.ofPredictive g tokens
  | .backtracking => (Journal.ofBacktracking g tokens).toOption.getD []
  | .chart | .unnamed => Journal.ofChart g tokens

-- Each line with its line break.
def printLines (lines : List String) : String := String.join (lines.map (· ++ "\n"))

-- Runs the methods one after the other. The program succeeds if all of them
-- accept the input.
def runMethods (g : Grammar) (o : Options) : Response :=
  let tokens := words o.input
  let printed := o.methods.map fun m => (m, m.run g tokens o.showTable)
  let reports := if o.verbose then o.methods.flatMap (Method.journal g tokens) else []
  { status := if printed.all (·.2.accepted) then 0 else 1
    output := printLines (printed.flatMap fun (m, p) => ("--- " ++ m.label ++ " ---") :: p.lines)
    errors := printLines (reports.map Report.line) }

def Options.run (o : Options) : Except Failure Response :=
  match o.sample with
  | none => .error .noGrammar
  | some sample => .ok (runMethods sample.grammar o)

def usage : String :=
  "usage: [-h] [--grammar " ++ "|".intercalate (Sample.all.map Sample.label) ++
    "] [--method ll1|descent|earley|all] [--table] [-v] tokens\n"

-- The whole program. Arguments that are refused end it with status 2.
def respond (arguments : List String) : Except Failure Response :=
  match Command.ofArguments? arguments with
  | none => .ok { status := 2, output := "", errors := usage }
  | some .help => .ok { status := 0, output := usage, errors := "" }
  | some (.run options) => options.run

end ContextFree.CommandLine
