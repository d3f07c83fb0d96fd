import ContextFree.CommandLine.Argument
import ContextFree.Samples

namespace ContextFree.CommandLine

-- The three ways to parse, and the method that is run if the choice is left
-- empty: it parses with the chart, but under its own label.
inductive Method where
  | predictive
  | backtracking
  | chart
  | unnamed
deriving DecidableEq

def Method.label : Method → String
  | .predictive => "ll1"
  | .backtracking => "descent"
  | .chart => "earley"
  | .unnamed => "[]"

-- Those with a name, in the order in which they run.
def Method.all : List Method := [.predictive, .backtracking, .chart]

-- What was asked for: the input, the grammar, which may be left empty, the methods
-- in order, and whether to show the table and the reports.
structure Options where
  input : String
  sample : Option Sample
  methods : List Method
  showTable : Bool
  verbose : Bool
deriving DecidableEq

inductive Command where
  | help
  | run (options : Options)
deriving DecidableEq

-- What has been understood so far. A stray argument fits nowhere.
structure Reading where
  input : Option String
  sample : Option Sample
  methods : List Method
  showTable : Bool
  verbose : Bool
  stray : Bool

def Reading.initial : Reading where
  input := none
  sample := some .arithmetic
  methods := Method.all
  showTable := false
  verbose := false
  stray := false

-- The grammar with this label. A value that is the separator is no value: it
-- leaves the choice empty.
def sampleOf? (label : String) : Option (Option Sample) :=
  if label = "--" then some none else (Sample.ofLabel? label).map some

-- All methods, or the one with this label. The separator leaves this choice empty,
-- too.
def methodsOf? (label : String) : Option (List Method) :=
  if label = "--" then some [.unnamed]
  else if label = "all" then some Method.all
  else (Method.all.find? fun m => m.label = label).map fun m => [m]

-- Gives an option its value.
def Reading.choose (r : Reading) (name : OptionName) (value : String) : Option Reading :=
  match name with
  | .grammar => (sampleOf? value).map fun sample => { r with sample }
  | .method => (methodsOf? value).map fun methods => { r with methods }
  | _ => none

-- Turns on an option that has no value.
def Reading.turnOn (r : Reading) : OptionName → Reading
  | .table => { r with showTable := true }
  | .verbose => { r with verbose := true }
  | _ => r

def Reading.finish (r : Reading) : Option Command :=
  if r.stray then none
  else r.input.map fun input =>
    .run {
      input
      sample := r.sample
      methods := r.methods
      showTable := r.showTable
      verbose := r.verbose }

-- Reads the arguments from the left. A mistake in an option ends it at once, a
-- stray argument only at the end. The separator counts as part of the input
-- next to it.
def read (r : Reading) : List Argument → Option Command
  | [] => r.finish
  | .plain text :: rest =>
    match r.input with
    | some _ => read { r with stray := true } rest
    | none =>
      match rest with
      | .separator :: rest => read { r with input := some text } rest
      | rest => read { r with input := some text } rest
  | .separator :: rest =>
    match r.input, rest with
    | none, .plain text :: rest => read { r with input := some text } rest
    | _, rest => read { r with stray := true } rest
  | .unknown :: rest => read { r with stray := true } rest
  | .cluster name letters :: rest =>
    match clusterOptions name letters with
    | none => none
    | some names => if .help ∈ names then some .help else read (names.foldl Reading.turnOn r) rest
  | .option .help value :: _ => if value.isNone then some .help else none
  | .option .table value :: rest => if value.isNone then read (r.turnOn .table) rest else none
  | .option .verbose value :: rest => if value.isNone then read (r.turnOn .verbose) rest else none
  | .option name (some value) :: rest => (r.choose name value).bind fun r => read r rest
  | .option name none :: rest =>
    match rest with
    | .plain value :: rest => (r.choose name value).bind fun r => read r rest
    | _ => none

-- None if the arguments are refused.
def Command.ofArguments? (arguments : List String) : Option Command :=
  (classifyAll arguments).bind (read .initial)

end ContextFree.CommandLine
