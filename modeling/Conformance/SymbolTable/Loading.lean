import Conformance.SymbolTable.Format

/-!
Programs from the files of their symbol tables. The files are merged in order, and the first error
ends the loading. How files are read is left open: `read` gives the text of a path, if it has one.
How texts are decoded is left open as well, up to `Program.load`.
-/

namespace Conformance

/-- Why nothing is loaded, where a text may fail to be decoded with an error of type `ε`. -/
inductive LoadErrorOf (ε : Type) where
  | unsupportedFormat (path : String)
  | unreadable (path : String)
  | undecodable (error : ε)
  | badSignature (error : SyntaxError)
  deriving DecidableEq, Repr

namespace LoadErrorOf

variable {ε : Type}

def code : LoadErrorOf ε → String
  | unreadable _ => "E001"
  | badSignature _ => "E010"
  | unsupportedFormat _ | undecodable _ => "E021"

/-- The text of an error, as far as it depends on nothing but the error. -/
def message? : LoadErrorOf ε → Option String
  | unsupportedFormat path => some ("unsupported symbol table format: " ++ path)
  | badSignature e => some e.message
  | unreadable _ | undecodable _ => none

end LoadErrorOf

section

variable {ε : Type} (decode : SymbolTable.Format → String → Except ε SymbolTable)

namespace SymbolTable

def parseWith (format : Format) (text : String) : Except (LoadErrorOf ε) SymbolTable :=
  (decode format text).mapError .undecodable

def programWith (format : Format) (text : String) : Except (LoadErrorOf ε) Program := do
  let t ← parseWith decode format text
  t.program.mapError .badSignature

/-- The program of one file; its format is looked at before it is read. -/
def loadFile (read : String → Option String) (path : String) : Except (LoadErrorOf ε) Program :=
  match Format.ofPath? path with
  | none => .error (.unsupportedFormat path)
  | some format =>
    match read path with
    | none => .error (.unreadable path)
    | some text => programWith decode format text

end SymbolTable

def Program.loadWith (read : String → Option String) (paths : List String) :
    Except (LoadErrorOf ε) Program :=
  paths.foldlM (fun p path ↦ do return p.merge (← SymbolTable.loadFile decode read path)) {}

end

abbrev LoadError := LoadErrorOf SymbolTable.Format

namespace SymbolTable

def parse : Format → String → Except LoadError SymbolTable := parseWith Format.decoder

def programOf : Format → String → Except LoadError Program := programWith Format.decoder

end SymbolTable

def Program.load : (String → Option String) → List String → Except LoadError Program :=
  loadWith SymbolTable.Format.decoder

end Conformance
