import Conformance.Report

namespace Conformance

structure Analysis where
  format : Report.Format := .terminal
  /-- The file for the report, which is printed without one. -/
  output : Option String := none
  /-- The file with the settings; without one the nearest is taken. -/
  config : Option String := none
  noParallel : Bool := false
  /-- The number of workers; zero stands for as many as there are processors. -/
  jobs : Option Nat := none
  receiverPolicy : Option ReceiverPolicy := none
  deriving DecidableEq, Repr

inductive Task where
  | analyze (options : Analysis)
  | check
  deriving DecidableEq, Repr

structure Command where
  task : Task
  /-- The symbol tables, in the order of their merging. -/
  tables : List String
  verbosity : Nat
  deriving DecidableEq, Repr

def logLevel : (verbosity : Nat) → String
  | 0 => "warn"
  | 1 => "info"
  | 2 => "debug"
  | _ => "trace"

end Conformance
