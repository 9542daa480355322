import Pddl.CommandLine.Run

namespace Pddl

def usage : String :=
  "Usage: pddl [-C|--config FILE] [-v|--verbosity silent|normal|verbose|debug] [-c|--colour] " ++
    "DOMAIN check [PROBLEM] | render [PROBLEM] [-d|--determinize] [--domain-output FILE] " ++
    "[--problem-output FILE] | ground PROBLEM PLAN [-i|--instantiate]"

def loadText (path : String) : IO (Except Error String) := do
  try
    let bytes ← IO.FS.readBinFile path
    match String.fromUTF8? bytes with
    | some text => return .ok text
    | none => return .error (.inaccessible path)
  catch _ => return .error (.inaccessible path)

def loadAll : List String → IO (List (String × Except Error String))
  | [] => return []
  | path :: paths => do
    let text ← loadText path
    let others ← loadAll paths
    return (path, text) :: others

/-- Takes the steps of a command in turn and gives the exit code. -/
def performAll (error : Option Error) : List Effect → IO UInt32
  | [] =>
    match error with
    | none => return 0
    | some e => do
      IO.eprintln e.message
      return 1
  | .print line :: rest => do
    IO.println line
    performAll error rest
  | .write path text :: rest => do
    let written ← try
        IO.FS.writeFile path text
        pure true
      catch _ => pure false
    if written then performAll error rest
    else do
      IO.eprintln (Error.message (.inaccessible path))
      return 1

end Pddl

def main (words : List String) : IO UInt32 := do
  match Pddl.Invocation.ofWords? words with
  | none => do
    IO.eprintln Pddl.usage
    return 2
  | some i => do
    let texts ← Pddl.loadAll i.inputs
    let read := fun path => (texts.lookup path).getD (.error (.inaccessible path))
    let t := i.run read
    Pddl.performAll t.error t.effects
