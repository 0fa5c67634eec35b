import Conformance.Decimal
import Conformance.Reader
import Conformance.Yaml.Token

namespace Conformance.Yaml

structure Spacing where
  /-- Blanks on the line of the word before them. -/
  blanks : List Char := []
  breaks : List Char := []
  /-- The column after them, on a line that starts among them. -/
  column : Nat := 0
  newLine : Bool := false

def Spacing.text (s : Spacing) : List Char :=
  match s.newLine, s.breaks with
  | true, ['\n'] => [' ']
  | true, '\n' :: more => more
  | true, breaks => breaks
  | false, _ => s.blanks

def Spacing.addBreak (s : Spacing) (c : Char) : Spacing :=
  { s with breaks := s.breaks ++ [c], column := 0, newLine := true }

/-- The spacing that starts here. Tabs may not stand among the first `indent` columns of a line. -/
def spacing (indent : Nat) (s : Spacing) : List Char → Option (Spacing × List Char)
  | [] => some (s, [])
  | '\r' :: '\n' :: cs => spacing indent (s.addBreak '\n') cs
  | c :: cs =>
    if isBreak c then
      spacing indent (s.addBreak (if c = '\u2028' ∨ c = '\u2029' then c else '\n')) cs
    else if isBlank c then
      if s.newLine then
        if c = '\t' ∧ s.column < indent then none
        else spacing indent { s with column := s.column + 1 } cs
      else spacing indent { s with blanks := s.blanks ++ [c] } cs
    else some (s, c :: cs)

def isFlowMark (c : Char) : Bool := c == ',' || c == '[' || c == ']' || c == '{' || c == '}'

def plainWord (flow : Bool) : List Char → Option (List Char × List Char)
  | [] => some ([], [])
  | ':' :: cs =>
    if flow ∧ cs.head?.any fun c ↦ isFlowMark c || c == '?' then none
    else if atSpace cs then some ([], ':' :: cs)
    else (plainWord flow cs).map fun (word, rest) ↦ (':' :: word, rest)
  | c :: cs =>
    if isBlank c || isBreak c || (flow && isFlowMark c) then some ([], c :: cs)
    else (plainWord flow cs).map fun (word, rest) ↦ (c :: word, rest)

/-- The words after the first one, each with the spacing before it, and whether a line starts
between the last word and the rest. -/
def plainRest (flow : Bool) (indent : Nat) :
    (limit : Nat) → List Char → Option ((List Char × Bool) × List Char)
  | 0, _ => none
  | limit + 1, cs => do
    let (s, rest) ← spacing indent {} cs
    let ended := some (([], s.newLine), rest)
    if s.newLine && ((!flow && s.column < indent) || (s.column == 0 && marksDocument rest)) then
      ended
    else if (s.blanks.isEmpty && !s.newLine) || rest.head? == some '#' then ended
    else
      let (word, after) ← plainWord flow rest
      if word.isEmpty then ended
      else
        let ((text, newLine), after) ← plainRest flow indent limit after
        return ((s.text ++ word ++ text, newLine), after)

def plainText (flow : Bool) (indent : Nat) (cs : List Char) :
    Option ((List Char × Bool) × List Char) := do
  let (word, rest) ← plainWord flow cs
  let ((text, newLine), rest) ← plainRest flow indent (cs.length + 1) rest
  return ((word ++ text, newLine), rest)

def codePoint? (digits : List Char) : Option Char := do
  let n ← Decimal.nat? 16 digits
  if (0xD800 ≤ n && n ≤ 0xDFFF) || 0x10FFFF < n then none else some (.ofNat n)

def unescape? : Char → Option Char
  | '0' => some '\x00'
  | 'a' => some '\x07'
  | 'b' => some '\x08'
  | 't' | '\t' => some '\t'
  | 'n' => some '\n'
  | 'v' => some '\x0b'
  | 'f' => some '\x0c'
  | 'r' => some '\r'
  | 'e' => some '\x1b'
  | ' ' => some ' '
  | '"' => some '"'
  | '/' => some '/'
  | '\\' => some '\\'
  | 'N' => some '\x85'
  | '_' => some '\xa0'
  | 'L' => some '\u2028'
  | 'P' => some '\u2029'
  | _ => none

structure QuotedWord where
  text : List Char
  /-- Whether it ends in a line break after a backslash, which does not count. -/
  continues : Bool
  rest : List Char

def QuotedWord.cons (c : Char) (w : QuotedWord) : QuotedWord := { w with text := c :: w.text }

def singleQuotedWord : List Char → QuotedWord
  | '\'' :: '\'' :: cs => (singleQuotedWord cs).cons '\''
  | c :: cs =>
    if c = '\'' || isBlank c || isBreak c then ⟨[], false, c :: cs⟩
    else (singleQuotedWord cs).cons c
  | [] => ⟨[], false, []⟩

def doubleQuotedWord : List Char → Option QuotedWord
  | '\\' :: '\r' :: '\n' :: cs => some ⟨[], true, cs⟩
  | '\\' :: 'x' :: a :: b :: cs => do
    return (← doubleQuotedWord cs).cons (← codePoint? [a, b])
  | '\\' :: 'u' :: a :: b :: c :: d :: cs => do
    return (← doubleQuotedWord cs).cons (← codePoint? [a, b, c, d])
  | '\\' :: 'U' :: a :: b :: c :: d :: e :: f :: g :: h :: cs => do
    return (← doubleQuotedWord cs).cons (← codePoint? [a, b, c, d, e, f, g, h])
  | '\\' :: c :: cs =>
    if isBreak c then some ⟨[], true, cs⟩
    else do return (← doubleQuotedWord cs).cons (← unescape? c)
  | c :: cs =>
    if c = '\\' then none
    else if c = '"' || isBlank c || isBreak c then some ⟨[], false, c :: cs⟩
    else do return (← doubleQuotedWord cs).cons c
  | [] => some ⟨[], false, []⟩

/-- The words up to the closing quote. No document may start or end between them. -/
def quotedRest (quote : Char) (word : List Char → Option QuotedWord) :
    (limit : Nat) → (lineStart : Bool) → List Char → Option (List Char × List Char)
  | 0, _, _ => none
  | limit + 1, lineStart, cs => do
    if (lineStart && marksDocument cs) || cs.isEmpty then none
    let w ← word cs
    match w.rest with
    | c :: rest =>
      if c = quote then return (w.text, rest)
      let (s, rest) ← spacing 0 { newLine := w.continues } w.rest
      let between := if w.continues then s.breaks else s.text
      let (text, rest) ← quotedRest quote word limit (s.newLine && s.column == 0) rest
      return (w.text ++ between ++ text, rest)
    | [] => none

def singleQuotedText (cs : List Char) : Option (List Char × List Char) :=
  quotedRest '\'' (some ∘ singleQuotedWord) (cs.length + 1) false cs

def doubleQuotedText (cs : List Char) : Option (List Char × List Char) :=
  quotedRest '"' doubleQuotedWord (cs.length + 1) false cs

/-- What becomes of the line breaks at the end of a block scalar. -/
inductive Chomping where
  | strip
  | clip
  | keep
  deriving DecidableEq, Repr

structure BlockHeader where
  chomping : Chomping := .clip
  /-- How much deeper than its parent the scalar stands, if that is given. -/
  increment : Option Nat := none

def chomping? : Char → Option Chomping
  | '+' => some .keep
  | '-' => some .strip
  | _ => none

def increment? (c : Char) : Option Nat := (Decimal.digitOf? 10 c).filter (0 < ·)

def blockHeader (cs : List Char) : Option (BlockHeader × List Char) := do
  let (header, rest) ← marks cs
  let rest := rest.dropWhile isBlank
  let rest := if rest.head? = some '#' then rest.dropWhile fun c ↦ !isBreak c else rest
  match takeBreak rest with
  | some (_, rest) => return (header, rest)
  | none => if rest.isEmpty then return (header, []) else none
where
  marks : List Char → Option (BlockHeader × List Char)
    | a :: b :: cs =>
      match chomping? a, b.isDigit with
      | some chomping, true => (increment? b).map fun n ↦ (⟨chomping, some n⟩, cs)
      | some chomping, false => some (⟨chomping, none⟩, b :: cs)
      | none, _ =>
        if a.isDigit then
          (increment? a).map fun n ↦
            match chomping? b with
            | some chomping => (⟨chomping, some n⟩, cs)
            | none => (⟨.clip, some n⟩, b :: cs)
        else some ({}, a :: b :: cs)
    | [a] =>
      match chomping? a with
      | some chomping => some (⟨chomping, none⟩, [])
      | none =>
        if a.isDigit then (increment? a).map fun n ↦ (⟨.clip, some n⟩, []) else some ({}, [a])
    | [] => some ({}, [])

structure Gap where
  breaks : List Char := []
  column : Nat := 0
  widest : Nat := 0

/-- Skips empty lines, and of the next line at most `indent` blanks, or all if that is not known. -/
def gap (indent : Option Nat) (g : Gap) : List Char → Option (Gap × List Char)
  | [] => some ({ g with widest := max g.widest g.column }, [])
  | '\r' :: '\n' :: cs => gap indent (endLine g '\n') cs
  | c :: cs =>
    let inside := indent.all fun n ↦ g.column < n
    if c = ' ' ∧ inside then gap indent { g with column := g.column + 1 } cs
    else if c = '\t' ∧ inside then none
    else if isBreak c then
      gap indent (endLine g (if c = '\u2028' ∨ c = '\u2029' then c else '\n')) cs
    else some ({ g with widest := max g.widest g.column }, c :: cs)
where
  endLine (g : Gap) (c : Char) : Gap := ⟨g.breaks ++ [c], 0, max g.widest g.column⟩

/-- What stands between two lines of a block scalar. In a folded one a single break between lines
that begin with no blank is a space. -/
def blockBetween (folded startedBlank startsBlank : Bool) (lineBreak breaks : List Char) :
    List Char :=
  if folded ∧ lineBreak = ['\n'] ∧ ¬startedBlank ∧ ¬startsBlank then
    if breaks.isEmpty then [' '] else breaks
  else lineBreak ++ breaks

/-- The lines of a block scalar, from one that starts after its indentation. -/
def blockLines (folded : Bool) (chomping : Chomping) (indent : Nat) :
    (limit : Nat) → (startedBlank : Bool) → (lineBreak : List Char) → Gap → List Char →
      Option (List Char × List Char)
  | 0, _, _, _, _ => none
  | limit + 1, startedBlank, lineBreak, g, cs =>
    if g.column = indent ∧ !cs.isEmpty then do
      let startsBlank := cs.head?.any isBlank
      let between := blockBetween folded startedBlank startsBlank lineBreak g.breaks
      let (line, rest) := Reader.run (fun c ↦ !isBreak c) cs
      let (lineBreak, rest) :=
        match takeBreak rest with
        | some (c, rest) => ([c], rest)
        | none => ([], rest)
      let (g, rest) ← gap (some indent) {} rest
      let (text, rest) ← blockLines folded chomping indent limit startsBlank lineBreak g rest
      return (between ++ line ++ text, rest)
    else
      match chomping with
      | .strip => some ([], cs)
      | .clip => some (lineBreak, cs)
      | .keep => some (lineBreak ++ g.breaks, cs)

/-- A block scalar after its first mark; `parent` is the indentation of the block it stands in. -/
def blockText (folded : Bool) (parent : Option Nat) (cs : List Char) :
    Option (List Char × List Char) := do
  let (header, rest) ← blockHeader cs
  let indent := header.increment.map fun n ↦ parent.getD 0 + n
  let (g, rest) ← gap indent {} rest
  let least := (parent.map (· + 1)).getD 1
  let indent := indent.getD (max g.widest least)
  blockLines folded header.chomping indent (cs.length + 1) false [] g rest

end Conformance.Yaml
