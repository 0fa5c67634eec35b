import Conformance.Text.DecimalDigit
import Conformance.Text.Letter
import Conformance.Token

namespace Conformance

def byteLength : List Char → Nat
  | [] => 0
  | c :: cs => c.utf8Size + byteLength cs

/-- A token and the bytes it takes up, from `start` up to `stop`. -/
structure Placed where
  token : Token
  start : Nat
  stop : Nat
  deriving DecidableEq, Repr

structure SyntaxError where
  text : String
  offset : Nat
  detail : String
  deriving DecidableEq, Repr

def SyntaxError.message (e : SyntaxError) : String :=
  "syntax error in `" ++ e.text ++ "` at offset " ++ toString e.offset ++ ": " ++ e.detail

namespace Token

def isSpace (c : Char) : Bool := c == ' ' || c == '\t' || c == '\r' || c == '\n'

def isIdentStart (c : Char) : Bool := c == '_' || Text.isLetter c

def isIdentRest (c : Char) : Bool := isIdentStart c || Text.isDecimalDigit c

/-- The characters up to the second quote, and what follows it; with no second quote, the whole
characters and escapes that can be read. -/
def quoted : List Char → List Char × Option (List Char)
  | [] => ([], none)
  | '"' :: cs => (['"'], some cs)
  | ['\\'] => ([], none)
  | '\\' :: c :: cs =>
    if c = '\n' then ([], none) else
      let (text, rest) := quoted cs
      ('\\' :: c :: text, rest)
  | c :: cs =>
    let (text, rest) := quoted cs
    (c :: text, rest)

/-- A lexeme, with the token it makes if it is neither blank nor comment. -/
structure Lexeme where
  token : Option Token
  text : List Char
  rest : List Char

def Lexeme.run (token : String → Option Token) (c : Char) (p : Char → Bool) (cs : List Char) :
    Lexeme :=
  let text := c :: cs.takeWhile p
  ⟨token (.ofList text), text, cs.dropWhile p⟩

def Lexeme.mark (m : Mark) (rest : List Char) : Lexeme := ⟨some (.mark m), m.text.toList, rest⟩

def ofWord (word : String) : Token :=
  match Mark.ofKeyword? word with
  | some m => .mark m
  | none => .ident word

/-- The longest lexeme at the start of a text, or the characters that begin none. -/
def scan (c : Char) (cs : List Char) : Except (List Char) Lexeme :=
  match c, cs with
  | '(', _ => .ok (.mark .lparen cs)
  | ')', _ => .ok (.mark .rparen cs)
  | '[', _ => .ok (.mark .lbracket cs)
  | ']', _ => .ok (.mark .rbracket cs)
  | '{', _ => .ok (.mark .lbrace cs)
  | '}', _ => .ok (.mark .rbrace cs)
  | ',', _ => .ok (.mark .comma cs)
  | ';', _ => .ok (.mark .semi cs)
  | '*', _ => .ok (.mark .star cs)
  | '~', _ => .ok (.mark .tilde cs)
  | '|', _ => .ok (.mark .pipe cs)
  | '.', '.' :: '.' :: rest => .ok (.mark .ellipsis rest)
  | '.', _ => .ok (.mark .dot cs)
  | '<', '-' :: rest => .ok (.mark .arrow rest)
  | '/', '/' :: _ => .ok (.run (fun _ ↦ none) c (· != '\n') cs)
  | '\x60', _ =>
    match cs.dropWhile (· != '\x60') with
    | q :: rest =>
      let text := c :: (cs.takeWhile (· != '\x60') ++ [q])
      .ok ⟨some (.tag (.ofList text)), text, rest⟩
    | [] => .error (c :: cs)
  | '"', _ =>
    match quoted cs with
    | (text, some rest) => .ok ⟨some (.tag (.ofList (c :: text))), c :: text, rest⟩
    | (text, none) => .error (c :: text)
  | _, _ =>
    if isSpace c then .ok (.run (fun _ ↦ none) c isSpace cs)
    else if c.isDigit then .ok (.run (some ∘ .int) c Char.isDigit cs)
    else if isIdentStart c then .ok (.run (some ∘ ofWord) c isIdentRest cs)
    else .error [c]

theorem quoted_append {cs text rest : List Char} (h : quoted cs = (text, some rest)) :
    text ++ rest = cs := by
  fun_induction quoted cs generalizing text with grind

theorem takeWhile_append_cons {p : Char → Bool} {cs rest : List Char} {q : Char}
    (h : cs.dropWhile p = q :: rest) : cs.takeWhile p ++ q :: rest = cs := by
  rw [← h, List.takeWhile_append_dropWhile]

/-- A lexeme has characters, and with what follows it they are the text. -/
theorem scan_append {c : Char} {cs : List Char} {x : Lexeme} (h : scan c cs = .ok x) :
    x.text ++ x.rest = c :: cs ∧ x.text ≠ [] := by
  unfold scan at h
  split at h
  case h_15 => cases h; simp [Lexeme.run, List.takeWhile_append_dropWhile]
  case h_16 =>
    split at h
    · cases h; simp [takeWhile_append_cons (by assumption)]
    · cases h
  case h_17 =>
    split at h
    · cases h; simp [quoted_append (by assumption)]
    · cases h
  case h_18 =>
    iterate 3
      split at h
      · cases h; simp [Lexeme.run, List.takeWhile_append_dropWhile]
    cases h
  all_goals cases h; simp [Lexeme.mark, Mark.text]

theorem scan_rest_length {c : Char} {cs : List Char} {x : Lexeme} (h : scan c cs = .ok x) :
    x.rest.length < (c :: cs).length := by
  obtain ⟨ha, hn⟩ := scan_append h
  rw [← ha, List.length_append]
  have := List.length_pos_iff.2 hn
  omega

/-- The tokens of a text that begins at byte `start`; or the byte at which no lexeme begins, with
the characters read there. -/
def place (start : Nat) (cs : List Char) : Except (Nat × List Char) (List Placed) :=
  match cs with
  | [] => .ok []
  | c :: cs =>
    match _h : scan c cs with
    | .error bad => .error (start, bad)
    | .ok x =>
      let stop := start + byteLength x.text
      match place stop x.rest with
      | .error e => .error e
      | .ok ts =>
        match x.token with
        | some t => .ok (⟨t, start, stop⟩ :: ts)
        | none => .ok ts
termination_by cs.length
decreasing_by exact scan_rest_length _h

def ofText (text : String) : Except SyntaxError (List Placed) :=
  match place 0 text.toList with
  | .ok ts => .ok ts
  | .error (start, bad) => .error ⟨text, start, "unexpected character `" ++ .ofList bad ++ "`"⟩

end Token

end Conformance
