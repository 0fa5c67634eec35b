import Conformance.Command
import Conformance.CommandLine.Word
import Conformance.Decimal

namespace Conformance.CommandLine

namespace Rejection

/-- Asking for help or for the version is no error. -/
def status : Rejection → Nat
  | help | version => 0
  | _ => 2

def message : Rejection → String
  | help => "help is asked for"
  | version => "the version is asked for"
  | noCommand => "a command is required"
  | unknownCommand w => "unrecognized command '" ++ w ++ "'"
  | commandAfterDashes w => "unexpected argument '" ++ w ++ "'"
  | unknownSwitch w => "unexpected argument '" ++ w ++ "'"
  | unwantedValue v => "unexpected value '" ++ v ++ "'"
  | missingValue _ => "a value is required"
  | badValue v => "invalid value '" ++ v ++ "'"
  | badNumber v => "invalid number '" ++ v ++ "'"
  | repeated => "an argument is used twice"
  | noTables => "no symbol table is given"

end Rejection

def helpName : Name := ⟨.flag .help, some 'h', "help"⟩

def verboseName : Name := ⟨.flag .verbose, some 'v', "verbose"⟩

def frontNames : List Name := [helpName, ⟨.flag .version, some 'V', "version"⟩]

def checkNames : List Name := [helpName, verboseName]

def analyzeNames : List Name := [
  helpName,
  verboseName,
  ⟨.setting .format, some 'f', "format"⟩,
  ⟨.setting .output, some 'o', "output"⟩,
  ⟨.setting .config, some 'c', "config"⟩,
  ⟨.flag .noParallel, none, "no-parallel"⟩,
  ⟨.setting .jobs, some 'j', "jobs"⟩,
  ⟨.setting .receiverPolicy, none, "receiver-policy"⟩]

structure Draft where
  tables : List String := []
  format : Option Report.Format := none
  output : Option String := none
  config : Option String := none
  noParallel : Bool := false
  jobs : Option Nat := none
  receiverPolicy : Option ReceiverPolicy := none
  verbosity : Nat := 0

namespace Draft

/-- A count of 64 bits, which may have a plus sign. -/
def count? (text : String) : Option Nat :=
  let digits := match text.toList with
    | '+' :: cs => cs
    | cs => cs
  (Decimal.nat? 10 digits).filter (· < Decimal.ofBits 64)

/-- A value that may be given only once; a second one is not looked at. -/
def once {α : Type} (given value : Option α) (otherwise : Rejection) :
    Except Rejection (Option α) :=
  if given.isSome then .error .repeated else
  match value with
  | none => .error otherwise
  | some a => .ok (some a)

def path? (text : String) : Option String := if text.isEmpty then none else some text

def set (d : Draft) (s : Setting) (value : String) : Except Rejection Draft :=
  match s with
  | .format => do
    return { d with format := ← once d.format (Report.Format.ofText? value) (.badValue value) }
  | .output => do return { d with output := ← once d.output (path? value) (.badValue value) }
  | .config => do return { d with config := ← once d.config (path? value) (.badValue value) }
  | .jobs => do return { d with jobs := ← once d.jobs (count? value) (.badNumber value) }
  | .receiverPolicy => do
    let policy ← once d.receiverPolicy (ReceiverPolicy.ofText? value) (.badValue value)
    return { d with receiverPolicy := policy }

def add (d : Draft) : Item → Except Rejection Draft
  | .flag .help => .error .help
  | .flag .version => .error .version
  | .flag .verbose => .ok { d with verbosity := min (d.verbosity + 1) 255 }
  | .flag .noParallel =>
    if d.noParallel then .error .repeated else .ok { d with noParallel := true }
  | .setting s none => .error (.missingValue s)
  | .setting s (some value) => d.set s value
  | .operands words =>
    if words.contains "" then .error (.badValue "") else .ok { d with tables := d.tables ++ words }

def ofWords (names : List Name) (words : List String) : Except Rejection Draft := do
  let (items, fault) := Item.ofWords names none words
  let d ← items.foldlM add {}
  match fault with
  | some r => .error r
  | none => if d.tables.isEmpty then .error .noTables else .ok d

def analysis (d : Draft) : Analysis where
  format := d.format.getD .terminal
  output := d.output
  config := d.config
  noParallel := d.noParallel
  jobs := d.jobs
  receiverPolicy := d.receiverPolicy

end Draft

def commandWords : List String := ["analyze", "check", "help"]

def help : List String → Rejection
  | [] => .help
  | [w] => if w ∈ commandWords then .help else .unknownCommand w
  | w :: next :: _ => .unknownCommand (if w ∈ commandWords then next else w)

def front (word : String) (rest : List String) : Rejection :=
  match Word.ofText frontNames word, rest with
  | .operand, _ => .unknownCommand word
  | .dashes, [] => .noCommand
  | .dashes, next :: _ =>
    if next ∈ commandWords then .commandAfterDashes next else .unknownCommand next
  | .fault [] r, _ => r
  | .fault (.flag .version :: _) _, _ | .switches (.flag .version :: _) _, _ => .version
  | .fault _ _, _ | .switches _ _, _ => .help

def parse : List String → Except Rejection Command
  | [] => .error .noCommand
  | "analyze" :: words => do
    let d ← Draft.ofWords analyzeNames words
    return ⟨.analyze d.analysis, d.tables, d.verbosity⟩
  | "check" :: words => do
    let d ← Draft.ofWords checkNames words
    return ⟨.check, d.tables, d.verbosity⟩
  | "help" :: words => .error (help words)
  | word :: rest => .error (front word rest)

end Conformance.CommandLine
