import Conformance.Datum
import Conformance.Decimal
import Conformance.Text.Join

namespace Conformance.Json

def hexDigit (n : Nat) : Char := "0123456789abcdef".toList.getD n '0'

def escape (c : Char) : List Char :=
  match c with
  | '"' => ['\\', '"']
  | '\\' => ['\\', '\\']
  | '\x08' => ['\\', 'b']
  | '\x0c' => ['\\', 'f']
  | '\n' => ['\\', 'n']
  | '\r' => ['\\', 'r']
  | '\t' => ['\\', 't']
  | _ =>
    if c.toNat < 0x20 then
      ['\\', 'u', '0', '0', hexDigit (c.toNat / 16), hexDigit (c.toNat % 16)]
    else [c]

def quote (s : String) : String := .ofList ('"' :: s.toList.flatMap escape ++ ['"'])

def indent (level : Nat) : String := .ofList (List.replicate (2 * level) ' ')

def block (level : Nat) (opening closing : String) (lines : List String) : String :=
  opening ++ "\n" ++
    Text.join ",\n" (lines.map (indent (level + 1) ++ ·)) ++ "\n" ++ indent level ++ closing

mutual

def layout (level : Nat) : Datum → String
  | .null => "null"
  | .bool true => "true"
  | .bool false => "false"
  | .int i => toString i
  | .real literal => literal
  | .moment literal => quote literal
  | .text s => quote s
  | .list [] => "[]"
  | .list (v :: vs) => block level "[" "]" (layout (level + 1) v :: layoutItems (level + 1) vs)
  | .table [] => "\x7b\x7d"
  | .table ((k, v) :: es) =>
    block level "\x7b" "\x7d"
      ((quote k ++ ": " ++ layout (level + 1) v) :: layoutEntries (level + 1) es)

def layoutItems (level : Nat) : List Datum → List String
  | [] => []
  | v :: vs => layout level v :: layoutItems level vs

def layoutEntries (level : Nat) : List (String × Datum) → List String
  | [] => []
  | (k, v) :: es => (quote k ++ ": " ++ layout level v) :: layoutEntries level es

end

end Conformance.Json
