import Conformance.Yaml.ScalarText
import Conformance.Yaml.Tag

/-!
YAML texts as tokens. Indentation opens and closes blocks. A key without a mark is known by the
colon after it only, so its tokens are put in front of what has been read since.
-/

namespace Conformance.Yaml

structure SimpleKey where
  /-- Whether its block has to continue with a key here. -/
  required : Bool
  place : Nat
  position : Position

structure Scanner where
  rest : List Char
  position : Position := {}
  tokens : List Token := []
  /-- The column of the innermost block, and those of the blocks around it. -/
  indents : List Nat := []
  keyAllowed : Bool := true
  /-- The possible keys of the flow collections, the innermost first, and of the block around them.
  -/
  keys : List (Option SimpleKey) := [none]

namespace Scanner

variable (s : Scanner)

def inFlow : Bool := 1 < s.keys.length

def moveTo (rest : List Char) : Scanner :=
  { s with
    rest
    position := s.position.after (s.rest.take (s.rest.length - rest.length)) }

def add (t : Token) : Scanner := { s with tokens := s.tokens ++ [t] }

def insert (place : Nat) (t : Token) : Scanner :=
  { s with tokens := s.tokens.take place ++ t :: s.tokens.drop place }

def allowKey (keyAllowed : Bool) : Scanner := { s with keyAllowed }

/-- Gives up the possible key, which fails if a key is required. -/
def dropKey : Option Scanner :=
  match s.keys with
  | some k :: keys => if k.required then none else some { s with keys := none :: keys }
  | _ => some s

def noteKey : Option Scanner :=
  if s.keyAllowed then do
    let s ← s.dropKey
    let key : SimpleKey :=
      { required := !s.inFlow && s.indents.head? == some s.position.column
        place := s.tokens.length
        position := s.position }
    return { s with keys := some key :: s.keys.tail }
  else some s

/-- A key stands on one line and is not long. -/
def isStale (k : SimpleKey) : Bool :=
  k.position.line < s.position.line || k.position.index + 1024 < s.position.index

def dropStaleKeys : Option Scanner := do
  let keys ← s.keys.mapM fun
    | some k => if s.isStale k then if k.required then none else some none else some (some k)
    | none => some none
  return { s with keys }

/-- Opens a block at a column, unless a block stands there or further right. -/
def openBlock (column place : Nat) (t : Token) : Scanner :=
  if s.inFlow then s
  else if s.indents.head?.all (· < column) then
    { s.insert place t with indents := column :: s.indents }
  else s

/-- Adds an end for each of the columns right of `column`, which are those of open blocks. -/
def closeFrom (column : Option Nat) (s : Scanner) : List Nat → Scanner
  | [] => { s with indents := [] }
  | i :: is =>
    if column.all (· < i) then closeFrom column (s.add .blockEnd) is
    else { s with indents := i :: is }

def closeBlocks (column : Option Nat) : Scanner :=
  if s.inFlow then s else closeFrom column s s.indents

/-- The rest after blanks, comments and line breaks. Outside of flow collections a key may begin on
a new line, where tabs do not count as blanks. -/
def skipToToken (flow inComment keyAllowed : Bool) : List Char → Bool × List Char
  | [] => (keyAllowed, [])
  | c :: cs =>
    if isBreak c then skipToToken flow false (keyAllowed || !flow) cs
    else if inComment then skipToToken flow true keyAllowed cs
    else if c = ' ' ∨ (c = '\t' ∧ (flow ∨ !keyAllowed)) then skipToToken flow false keyAllowed cs
    else if c = '#' then skipToToken flow true keyAllowed cs
    else (keyAllowed, c :: cs)

def take (t : Token) (rest : List Char) : Scanner := (s.add t).moveTo rest

def documentMark (t : Token) (rest : List Char) : Option Scanner := do
  let s ← (s.closeBlocks none).dropKey
  return (s.allowKey false).take t rest

def openFlow (t : Token) (rest : List Char) : Option Scanner := do
  let s ← s.noteKey
  return ({ s with keys := none :: s.keys }.allowKey true).take t rest

def closeFlow (t : Token) (rest : List Char) : Option Scanner := do
  let s ← s.dropKey
  let keys := if s.inFlow then s.keys.tail else s.keys
  return ({ s with keys }.allowKey false).take t rest

def flowEntry (rest : List Char) : Option Scanner := do
  let s ← s.dropKey
  return (s.allowKey true).take .flowEntry rest

def blockEntry (rest : List Char) : Option Scanner := do
  if !s.inFlow && !s.keyAllowed then none
  let s ← (s.openBlock s.position.column s.tokens.length .blockSequence).dropKey
  return (s.allowKey true).take .blockEntry rest

def explicitKey (rest : List Char) : Option Scanner := do
  if !s.inFlow && !s.keyAllowed then none
  let s ← (s.openBlock s.position.column s.tokens.length .blockMapping).dropKey
  return (s.allowKey !s.inFlow).take .key rest

def value (rest : List Char) : Option Scanner :=
  match s.keys with
  | some k :: keys =>
    let s := (s.insert k.place .key).openBlock k.position.column k.place .blockMapping
    some (({ s with keys := none :: keys }.allowKey false).take .value rest)
  | _ => do
    if !s.inFlow && !s.keyAllowed then none
    let s := s.openBlock s.position.column s.tokens.length .blockMapping
    return (s.allowKey !s.inFlow).take .value rest

def keyPart (read : Reader Char Token) (cs : List Char) : Option Scanner := do
  let s ← s.noteKey
  let (t, rest) ← read cs
  return (s.allowKey false).take t rest

def quoted (style : Style) (read : Reader Char (List Char)) (cs : List Char) : Option Scanner :=
  s.keyPart (fun cs ↦ (read cs).map fun (text, rest) ↦ (.scalar style (.ofList text), rest)) cs

def blockScalar (style : Style) (cs : List Char) : Option Scanner := do
  let s ← s.dropKey
  let (text, rest) ← blockText (style == .folded) s.indents.head? cs
  return (s.allowKey true).take (.scalar style (.ofList text)) rest

def plain : Option Scanner := do
  let s ← s.noteKey
  let indent := (s.indents.head?.map (· + 1)).getD 0
  let ((text, newLine), rest) ← plainText s.inFlow indent s.rest
  return (s.allowKey newLine).take (.scalar .plain (.ofList text)) rest

def beginsPlain (flow : Bool) : List Char → Bool
  | '-' :: cs => !cs.head?.any isBlank
  | '?' :: cs | ':' :: cs => !flow && !atSpace cs
  | c :: _ => !(isBlank c || isBreak c || ",[]\x7b\x7d#&*!|>'\"%@\x60".toList.contains c)
  | [] => false

def token : Option Scanner :=
  let flow := s.inFlow
  let lineStart := s.position.column == 0
  match s.rest with
  | [] => none
  | c :: cs =>
    if lineStart && c == '%' then do
      let s ← (s.closeBlocks none).dropKey
      let (t, rest) ← directive cs
      return (s.allowKey false).take t rest
    else if lineStart && marksDocument (c :: cs) then
      s.documentMark (if c = '-' then .documentStart else .documentEnd) (cs.drop 2)
    else if c = '[' then s.openFlow .flowSequence cs
    else if c = '{' then s.openFlow .flowMapping cs
    else if c = ']' then s.closeFlow .flowSequenceEnd cs
    else if c = '}' then s.closeFlow .flowMappingEnd cs
    else if c = ',' then s.flowEntry cs
    else if c = '-' && atSpace cs then s.blockEntry cs
    else if c = '?' && (flow || atSpace cs) then s.explicitKey cs
    else if c = ':' && (flow || atSpace cs) then s.value cs
    else if c = '*' then s.keyPart (fun cs ↦ (anchorName cs).map fun (n, cs) ↦ (.alias n, cs)) cs
    else if c = '&' then s.keyPart (fun cs ↦ (anchorName cs).map fun (n, cs) ↦ (.anchor n, cs)) cs
    else if c = '!' then s.keyPart (tag flow) cs
    else if c = '|' && !flow then s.blockScalar .literal cs
    else if c = '>' && !flow then s.blockScalar .folded cs
    else if c = '\'' then s.quoted .singleQuoted singleQuotedText cs
    else if c = '"' then s.quoted .doubleQuoted doubleQuotedText cs
    else if beginsPlain flow (c :: cs) then s.plain
    else none

/-- All tokens; `limit` is more than the number of characters left. -/
def scan : (limit : Nat) → Scanner → Option (List Token)
  | 0, _ => none
  | limit + 1, s => do
    let (keyAllowed, rest) := skipToToken s.inFlow false s.keyAllowed s.rest
    let s ← ((s.moveTo rest).allowKey keyAllowed).dropStaleKeys
    let s := s.closeBlocks (some s.position.column)
    if s.rest.isEmpty then
      let s ← (s.closeBlocks none).dropKey
      return s.tokens
    scan limit (← s.token)

end Scanner

/-- The tokens of a text. A byte order mark at its front takes up a column. -/
def Token.ofText? (text : String) : Option (List Token) :=
  let cs := text.toList
  if cs.all isAllowed then
    let start : Scanner := { rest := cs }
    let start :=
      match cs with
      | '\uFEFF' :: rest => start.moveTo rest
      | _ => start
    start.scan (cs.length + 1)
  else none

end Conformance.Yaml
