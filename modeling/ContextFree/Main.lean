import ContextFree.CommandLine.Run

def main (arguments : List String) : IO UInt32 := do
  match ContextFree.CommandLine.respond arguments with
  | .error failure =>
    IO.eprintln failure.message
    return 1
  | .ok response =>
    IO.print response.output
    IO.eprint response.errors
    return UInt32.ofNat response.status
