namespace Conformance

/-- A token with one spelling: a keyword or a sign. -/
inductive Mark where
  | map
  | chan
  | func
  | interface
  | struct
  | lparen
  | rparen
  | lbracket
  | rbracket
  | lbrace
  | rbrace
  | comma
  | semi
  | dot
  | ellipsis
  | star
  | arrow
  | tilde
  | pipe
  deriving DecidableEq, Repr

def Mark.text : Mark → String
  | .map => "map"
  | .chan => "chan"
  | .func => "func"
  | .interface => "interface"
  | .struct => "struct"
  | .lparen => "("
  | .rparen => ")"
  | .lbracket => "["
  | .rbracket => "]"
  | .lbrace => "\x7b"
  | .rbrace => "\x7d"
  | .comma => ","
  | .semi => ";"
  | .dot => "."
  | .ellipsis => "..."
  | .star => "*"
  | .arrow => "<-"
  | .tilde => "~"
  | .pipe => "|"

def Mark.ofKeyword? : String → Option Mark
  | "map" => some .map
  | "chan" => some .chan
  | "func" => some .func
  | "interface" => some .interface
  | "struct" => some .struct
  | _ => none

def Mark.startsType : Mark → Bool
  | .star | .lbracket | .lparen | .map | .chan | .arrow | .func | .interface | .struct => true
  | _ => false

inductive Token where
  | mark (m : Mark)
  | int (digits : String)
  /-- A field tag, with its quotes. -/
  | tag (text : String)
  | ident (name : String)
  deriving DecidableEq, Repr

namespace Token

def text : Token → String
  | .mark m => m.text
  | .int s | .tag s | .ident s => s

/-- How an error names the token. -/
def describe : Token → String
  | .mark m => "`" ++ m.text ++ "`"
  | .int digits => "integer `" ++ digits ++ "`"
  | .tag _ => "string literal"
  | .ident name => "identifier `" ++ name ++ "`"

def startsType : Token → Bool
  | .mark m => m.startsType
  | .ident _ => true
  | .int _ | .tag _ => false

end Token

end Conformance
