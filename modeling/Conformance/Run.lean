import Conformance.Analysis
import Conformance.CommandLine
import Conformance.FileTree

namespace Conformance

structure Run where
  status : Nat
  stdout : String := ""
  stderr : String := ""
  file : Option (String × String) := none
  deriving DecidableEq, Repr

namespace Run

def versionLine : String := "implens 0.3.1\n"

def usage : String :=
  "Finds which concrete types implement which interfaces\n\n" ++
  "Usage: implens <COMMAND>\n\n" ++
  "Commands:\n" ++
  "  analyze  Compute implementation edges and lens labels\n" ++
  "  check    Report every duplicate, cycle and unresolved type in the input\n" ++
  "  help     Print this message or the help of the given subcommand(s)\n"

def failed (f : Failure) : Run := { status := 1, stderr := "Error: " ++ f.message ++ "\n" }

def rejected (r : CommandLine.Rejection) : Run :=
  match r with
  | .help => { status := r.status, stdout := usage }
  | .version => { status := r.status, stdout := versionLine }
  | _ => { status := r.status, stderr := "error: " ++ r.message ++ "\n" }

/-- The problems of a program; any of them shows in the status. -/
def checked (problems : List Problem) : Run where
  status := if problems.isEmpty then 0 else 1
  stdout := Problem.report problems

def analyzed (o : Analysis) (f : Analysis.Findings) : Run :=
  match o.output with
  | none => { status := 0, stdout := f.text o false }
  | some path => { status := 0, file := some (path, f.text o false) }

variable (here : String) (read : String → Option String)

def ofCommand (c : Command) : Run :=
  match c.task with
  | .check =>
    match Program.load read c.tables with
    | .error e => failed (.loading e)
    | .ok p => checked p.problems
  | .analyze o =>
    match o.findings read here c.tables with
    | .error e => failed e
    | .ok f => analyzed o f

def ofWords (words : List String) : Run :=
  match CommandLine.parse words with
  | .error r => rejected r
  | .ok c => ofCommand here read c

def sources (c : Command) : List String :=
  match c.task with
  | .check => c.tables
  | .analyze o =>
    match o.config with
    | some path => path :: c.tables
    | none => Settings.candidates here ++ c.tables

/-- A run among the files of a tree, and the tree it leaves. -/
def within (t : FileTree) (words : List String) : Run × FileTree :=
  let run := ofWords "" t.read words
  match run.file with
  | none => (run, t)
  | some (path, text) =>
    match t.write? path text with
    | none => (failed (.uncreatable path), t)
    | some after => (run, after)

end Run

end Conformance
