import Conformance.Toml.Quoted
import Conformance.Toml.Scalar

namespace Conformance.Toml

structure KeyPath where
  parents : List String
  key : String
  deriving DecidableEq, Repr

inductive Value where
  | scalar (d : Datum)
  | list (items : List Value)
  | table (entries : List (KeyPath × Value))

inductive Statement where
  | table (path : KeyPath)
  | element (path : KeyPath)
  | entry (path : KeyPath) (value : Value)

def skipBlanks (cs : List Char) : List Char := cs.dropWhile fun c ↦ c == ' ' || c == '\t'

def skipLines (inComment : Bool) : List Char → Option (List Char)
  | [] => some []
  | '\n' :: cs => skipLines false cs
  | '\r' :: '\n' :: cs => skipLines false cs
  | c :: cs =>
    if inComment then if isPrintable c then skipLines true cs else none
    else if c = ' ' ∨ c = '\t' then skipLines false cs
    else if c = '#' then skipLines true cs
    else some (c :: cs)

/-- The text after this line, on which nothing but blanks and a comment may follow. -/
def endLine (inComment : Bool) : List Char → Option (List Char)
  | [] => some []
  | '\n' :: cs => some cs
  | '\r' :: '\n' :: cs => some cs
  | c :: cs =>
    if inComment then if isPrintable c then endLine true cs else none
    else if c = ' ' ∨ c = '\t' then endLine false cs
    else if c = '#' then endLine true cs
    else none

def isBare (c : Char) : Bool := c.isAlphanum || c == '_' || c == '-'

def key : Reader Char String := fun cs ↦
  match cs.head? with
  | some '"' | some '\'' => (lineString cs).map fun (text, cs) ↦ (.ofList text, cs)
  | _ =>
    match Reader.run isBare cs with
    | ([], _) => none
    | (word, cs) => some (.ofList word, cs)

def keyPath : Reader Char KeyPath := fun cs ↦ do
  let (keys, cs) ← Reader.rounds (fun cs ↦ do
    let (k, cs) ← key (skipBlanks cs)
    match skipBlanks cs with
    | '.' :: cs => return (([k], true), cs)
    | cs => return (([k], false), cs)) cs
  let last ← keys.getLast?
  return (⟨keys.dropLast, last⟩, cs)

def isScalarChar (c : Char) : Bool :=
  c.isAlphanum || c == '_' || c == '-' || c == '+' || c == '.' || c == ':'

/-- A scalar without quotes; a blank may stand between a date and a time. -/
def scalar : Reader Char Datum := fun cs ↦ do
  let (word, rest) := Reader.run isScalarChar cs
  let (word, rest) :=
    match rest with
    | ' ' :: c :: cs =>
      if isDate word ∧ c.isDigit then
        let (time, rest) := Reader.run isScalarChar (c :: cs)
        (word ++ ' ' :: time, rest)
      else (word, rest)
    | _ => (word, rest)
  return (← scalar? word, rest)

section

variable (value : Reader Char Value)

/-- Items up to the closing bracket; a comma may follow the last of them. -/
def items : Reader Char (List Value) := Reader.rounds fun cs ↦ do
  match ← skipLines false cs with
  | ']' :: cs => return (([], false), cs)
  | cs =>
    let (item, cs) ← value cs
    match ← skipLines false cs with
    | ',' :: cs => return (([item], true), cs)
    | ']' :: cs => return (([item], false), cs)
    | _ => none

def entry : Reader Char (KeyPath × Value) := fun cs ↦ do
  let (path, cs) ← keyPath cs
  match skipBlanks cs with
  | '=' :: cs => do
    let (v, cs) ← value (skipBlanks cs)
    return ((path, v), cs)
  | _ => none

def entries : Reader Char (List (KeyPath × Value)) := Reader.rounds fun cs ↦ do
  match ← skipLines false cs with
  | '}' :: cs => return (([], false), cs)
  | cs =>
    let (e, cs) ← entry value cs
    match ← skipLines false cs with
    | ',' :: cs => return (([e], true), cs)
    | '}' :: cs => return (([e], false), cs)
    | _ => none

end

/-- A value that begins here, with at most `depth` lists and tables around one another. -/
def value (depth : Nat) (cs : List Char) : Option (Value × List Char) :=
  match cs, depth with
  | '[' :: cs, depth + 1 => (items (value depth) cs).map fun (is, cs) ↦ (.list is, cs)
  | '{' :: cs, depth + 1 => (entries (value depth) cs).map fun (es, cs) ↦ (.table es, cs)
  | '[' :: _, 0 | '{' :: _, 0 => none
  | '"' :: _, _ | '\'' :: _, _ =>
    (string cs).map fun (text, cs) ↦ (.scalar (.text (.ofList text)), cs)
  | _, _ => (scalar cs).map fun (d, cs) ↦ (.scalar d, cs)

def nestingLimit : Nat := 80

def statement : Reader Char Statement := fun cs ↦ do
  match cs with
  | '[' :: '[' :: cs =>
    let (path, cs) ← keyPath cs
    match cs with
    | ']' :: ']' :: cs => return (.element path, cs)
    | _ => none
  | '[' :: cs =>
    let (path, cs) ← keyPath cs
    match cs with
    | ']' :: cs => return (.table path, cs)
    | _ => none
  | cs =>
    let ((path, v), cs) ← entry (value nestingLimit) cs
    return (.entry path v, cs)

def statements : Reader Char (List Statement) := Reader.rounds fun cs ↦ do
  match ← skipLines false cs with
  | [] => return (([], false), [])
  | cs =>
    let (s, cs) ← statement cs
    return (([s], true), ← endLine false cs)

end Conformance.Toml
