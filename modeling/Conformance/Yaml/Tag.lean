import Conformance.Decimal
import Conformance.Reader
import Conformance.Yaml.Token

namespace Conformance.Yaml

/-- The continuation bytes of an escaped character: how many follow its first byte, and the bits
that the first byte gives. -/
def leadByte? (b : Nat) : Option (Nat × Nat) :=
  if b < 0x80 then some (0, b)
  else if 0xC0 ≤ b ∧ b < 0xE0 then some (1, b % 0x20)
  else if 0xE0 ≤ b ∧ b < 0xF0 then some (2, b % 0x10)
  else if 0xF0 ≤ b ∧ b < 0xF8 then some (3, b % 0x08)
  else none

def escapedByte : Reader Char Nat
  | '%' :: a :: b :: cs => (Decimal.nat? 16 [a, b]).map (·, cs)
  | _ => none

def continuation : (count : Nat) → (code : Nat) → Reader Char Nat
  | 0, code, cs => some (code, cs)
  | count + 1, code, cs => do
    let (b, cs) ← escapedByte cs
    if b < 0x80 || 0xC0 ≤ b then none
    continuation count (code * 0x40 + b % 0x40) cs

def escapedChar : Reader Char Char := fun cs ↦ do
  let (b, cs) ← escapedByte cs
  let (count, code) ← leadByte? b
  let (code, cs) ← continuation count code cs
  if code.isValidChar then some (.ofNat code, cs) else none

/-- The characters of tags; flow marks only where a tag has an end of its own. -/
def isTagChar (verbatim : Bool) (c : Char) : Bool :=
  isWordChar c || ";/?:@&=+$.!~*'()".toList.contains c || (verbatim && ",[]".toList.contains c)

def tagText (verbatim : Bool) : Reader Char (List Char) := Reader.rounds fun cs ↦
  match cs with
  | [] => some (([], false), [])
  | c :: rest =>
    if c = '%' then (escapedChar cs).map fun (c, cs) ↦ (([c], true), cs)
    else if isTagChar verbatim c then some (([c], true), rest)
    else some (([], false), cs)

/-- A handle: a word between exclamation marks. The second mark may be missing. -/
def tagHandle : Reader Char (List Char)
  | '!' :: cs =>
    match Reader.run isWordChar cs with
    | (word, '!' :: cs) => some ('!' :: word ++ ['!'], cs)
    | (word, cs) => some ('!' :: word, cs)
  | _ => none

def atTagEnd (flow : Bool) (cs : List Char) : Bool := (flow && cs.head? == some ',') || atSpace cs

def tag (flow : Bool) : Reader Char Token
  | '<' :: cs => do
    let (text, cs) ← tagText true cs
    match text, cs with
    | [], _ => none
    | text, '>' :: cs => if atTagEnd flow cs then some (.tag "" (.ofList text), cs) else none
    | _, _ => none
  | cs => do
    let (handle, cs) ← tagHandle ('!' :: cs)
    let (suffix, cs) ← tagText false cs
    if !atTagEnd flow cs then none
    if 2 ≤ handle.length && handle.getLast? == some '!' then
      if suffix.isEmpty then none
      return (.tag (.ofList handle) (.ofList suffix), cs)
    match handle.tail ++ suffix with
    | [] => return (.tag "" "!", cs)
    | suffix => return (.tag "!" (.ofList suffix), cs)

def anchorName : Reader Char String := fun cs ↦
  match Reader.run isWordChar cs with
  | ([], _) => none
  | (name, cs) =>
    if atSpace cs || cs.head?.any "?:,]\x7d%@\x60".toList.contains then some (.ofList name, cs)
    else none

def versionNumber : Reader Char Nat := fun cs ↦
  let (digits, cs) := Reader.run Char.isDigit cs
  if 9 < digits.length then none else (Decimal.nat? 10 digits).map (·, cs)

def skipBlanks (cs : List Char) : List Char := cs.dropWhile isBlank

def endDirective (cs : List Char) : Option (List Char) :=
  let cs := skipBlanks cs
  let cs := if cs.head? = some '#' then cs.dropWhile fun c ↦ !isBreak c else cs
  match takeBreak cs with
  | some (_, cs) => some cs
  | none => if cs.isEmpty then some [] else none

def directive : Reader Char Token := fun cs ↦ do
  let (name, cs) := Reader.run isWordChar cs
  if !atSpace cs then none
  if name = "YAML".toList then
    let (major, cs) ← versionNumber (skipBlanks cs)
    match cs with
    | '.' :: cs =>
      let (minor, cs) ← versionNumber cs
      return (.version major minor, ← endDirective cs)
    | _ => none
  else if name = "TAG".toList then
    let (handle, cs) ← tagHandle (skipBlanks cs)
    if handle ≠ ['!'] && handle.getLast? != some '!' then none
    if !cs.head?.any isBlank then none
    let (lead, cs) ← tagText true (skipBlanks cs)
    if lead.isEmpty || !atSpace cs then none
    return (.tagHandle (.ofList handle) (.ofList lead), ← endDirective cs)
  else none

end Conformance.Yaml
