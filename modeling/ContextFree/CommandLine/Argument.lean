import ContextFree.Text.Digit

namespace ContextFree.CommandLine

inductive OptionName where
  | help
  | grammar
  | method
  | table
  | verbose
deriving DecidableEq

-- How the options are written.
def spellings : List (String × OptionName) := [
  ("-h", .help), ("--help", .help), ("--grammar", .grammar), ("--method", .method),
  ("--table", .table), ("-v", .verbose), ("--verbose", .verbose)]

-- What an argument is, by its looks.
inductive Argument where
  -- the input, or the value of the option in front
  | plain (text : String)
  -- an option, perhaps with a value behind an equals sign
  | option (name : OptionName) (value : Option String)
  -- an option of one letter with more letters behind it, perhaps after an equals sign
  | cluster (name : OptionName) (letters : List Char)
  -- it looks like an option, but is none
  | unknown
  -- only plain arguments come after it
  | separator
deriving DecidableEq

-- The part before the first equals sign and, if there is one, the part after it.
def cutAtEquals (text : String) : String × Option String :=
  let cs := text.toList
  let head := String.ofList (cs.takeWhile (· != '='))
  match cs.dropWhile (· != '=') with
  | [] => (head, none)
  | _ :: value => (head, some (String.ofList value))

-- The options of which the text is the beginning.
def abbreviated (text : String) : List OptionName :=
  (spellings.filter fun (spelling, _) => text.toList.isPrefixOf spelling.toList).map Prod.snd

-- What begins with a dash and is no option is plain if it is a negative number
-- or has a space in it.
def unlisted (text : String) : Argument :=
  if isNegativeNumber text ∨ ' ' ∈ text.toList then .plain text else .unknown

-- None if the argument could be several options.
def classify (text : String) : Option Argument :=
  match text.toList with
  | '-' :: second :: letters =>
    match spellings.lookup text with
    | some name => some (.option name none)
    | none =>
      let (head, value?) := cutAtEquals text
      match value?.bind fun value => (spellings.lookup head).map (·, value) with
      | some (name, value) =>
        if second = '-' ∨ value.isEmpty then some (.option name (some value))
        else some (.cluster name value.toList)
      | none =>
        if second = '-' then
          match abbreviated head with
          | [] => some (unlisted text)
          | [name] => some (.option name value?)
          | _ => none
        else
          match spellings.lookup (String.ofList ['-', second]) with
          | some name => some (.cluster name letters)
          | none => some (unlisted text)
  | _ => some (.plain text)

def classifyAll : List String → Option (List Argument)
  | [] => some []
  | text :: rest =>
    if text = "--" then some (.separator :: rest.map .plain)
    else do
      let argument ← classify text
      let others ← classifyAll rest
      return argument :: others

-- The options of a cluster. None if a letter is no option.
def clusterOptions (name : OptionName) : List Char → Option (List OptionName)
  | [] => some [name]
  | letter :: letters => do
    let next ← spellings.lookup (String.ofList ['-', letter])
    let names ← clusterOptions next letters
    return name :: names

end ContextFree.CommandLine
