import Conformance.Run

namespace Conformance.Run

def readText? (path : String) : IO (Option String) := do
  try return some (← IO.FS.readFile path) catch _ => return none

/-- Writes the file of a run; where it cannot be created, the run has failed. -/
def deliver (run : Run) : IO Run :=
  match run.file with
  | none => return run
  | some (path, text) => do
    try
      IO.FS.writeFile path text
      return run
    catch _ => return failed (.uncreatable path)

def perform (words : List String) : IO UInt32 := do
  let here := toString (← IO.currentDir)
  let paths :=
    match CommandLine.parse words with
    | .ok command => sources here command
    | .error _ => []
  let texts ← paths.mapM fun path ↦ return (path, ← readText? path)
  let run ← deliver (ofWords here (fun path ↦ (texts.lookup path).join) words)
  IO.print run.stdout
  IO.eprint run.stderr
  return run.status.toUInt32

end Conformance.Run

def main (words : List String) : IO UInt32 := Conformance.Run.perform words
