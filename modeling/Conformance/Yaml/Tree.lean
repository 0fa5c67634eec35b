import Conformance.Reader
import Conformance.Yaml.Token

namespace Conformance.Yaml

structure Properties where
  anchor : Option String := none
  tag : Option String := none
  deriving DecidableEq, Repr

inductive Tree (α : Type) where
  | alias (target : α)
  | scalar (properties : Properties) (style : Style) (text : String)
  | sequence (properties : Properties) (items : List (Tree α))
  | mapping (properties : Properties) (entries : List (Tree α × Tree α))

namespace Tree

def missing {α : Type} : Tree α := .scalar {} .plain ""

abbrev Handles := List (String × String)

def defaultHandles : Handles := [("!", "!"), ("!!", "tag:yaml.org,2002:")]

def resolveTag (handles : Handles) (handle suffix : String) : Option String :=
  if handle = "" then some suffix else (handles.lookup handle).map (· ++ suffix)

def properties (handles : Handles) : Reader Token Properties
  | .anchor a :: .tag h s :: ts => (resolveTag handles h s).map fun t ↦ (⟨some a, some t⟩, ts)
  | .anchor a :: ts => some (⟨some a, none⟩, ts)
  | .tag h s :: .anchor a :: ts => (resolveTag handles h s).map fun t ↦ (⟨some a, some t⟩, ts)
  | .tag h s :: ts => (resolveTag handles h s).map fun t ↦ (⟨none, some t⟩, ts)
  | ts => some ({}, ts)

def startsWith (marks : List Token) (ts : List Token) : Bool := ts.head?.any marks.contains

section

variable (node : (block indentless : Bool) → Reader Token (Tree String))

/-- A node, unless one of these tokens stands in its place. -/
def nodeUnless (marks : List Token) (block indentless : Bool) : Reader Token (Tree String) :=
  fun ts ↦ if startsWith marks ts then some (missing, ts) else node block indentless ts

def blockItems : Reader Token (List (Tree String)) := Reader.rounds fun
  | .blockEntry :: ts => do
    let (item, ts) ← nodeUnless node [.blockEntry, .blockEnd] true false ts
    return (([item], true), ts)
  | .blockEnd :: ts => some (([], false), ts)
  | _ => none

/-- The items of a sequence that stands as deep as the mapping around it. -/
def indentlessItems : Reader Token (List (Tree String)) := Reader.rounds fun
  | .blockEntry :: ts => do
    let (item, ts) ← nodeUnless node [.blockEntry, .key, .value, .blockEnd] true false ts
    return (([item], true), ts)
  | ts => some (([], false), ts)

def valueUnless (marks : List Token) (block : Bool) : Reader Token (Tree String)
  | .value :: ts => nodeUnless node marks block block ts
  | ts => some (missing, ts)

def blockEntries : Reader Token (List (Tree String × Tree String)) := Reader.rounds fun
  | .key :: ts => do
    let (key, ts) ← nodeUnless node [.key, .value, .blockEnd] true true ts
    let (value, ts) ← valueUnless node [.key, .value, .blockEnd] true ts
    return (([(key, value)], true), ts)
  | .blockEnd :: ts => some (([], false), ts)
  | _ => none

/-- A key and its value as an item of a flow sequence. Where the key is missing, the token in its
place is dropped. -/
def flowPair : Reader Token (Tree String × Tree String) := fun ts ↦ do
  let (key, ts) ←
    if startsWith [.value, .flowEntry, .flowSequenceEnd] ts then some (missing, ts.tail)
    else node false false ts
  let (value, ts) ← valueUnless node [.flowEntry, .flowSequenceEnd] false ts
  return ((key, value), ts)

def flowItem : Reader Token (Tree String)
  | .key :: ts => (flowPair node ts).map fun (pair, ts) ↦ (.mapping {} [pair], ts)
  | ts => node false false ts

def flowItems : Reader Token (List (Tree String)) := Reader.rounds fun
  | .flowSequenceEnd :: ts => some (([], false), ts)
  | ts => do
    let (item, ts) ← flowItem node ts
    match ts with
    | .flowEntry :: ts => return (([item], true), ts)
    | .flowSequenceEnd :: ts => return (([item], false), ts)
    | _ => none

def flowMember : Reader Token (Tree String × Tree String)
  | .key :: ts => do
    let (key, ts) ← nodeUnless node [.value, .flowEntry, .flowMappingEnd] false false ts
    let (value, ts) ← valueUnless node [.flowEntry, .flowMappingEnd] false ts
    return ((key, value), ts)
  | ts => (node false false ts).map fun (key, ts) ↦ ((key, missing), ts)

def flowEntries : Reader Token (List (Tree String × Tree String)) := Reader.rounds fun
  | .flowMappingEnd :: ts => some (([], false), ts)
  | ts => do
    let (member, ts) ← flowMember node ts
    match ts with
    | .flowEntry :: ts => return (([member], true), ts)
    | .flowMappingEnd :: ts => return (([member], false), ts)
    | _ => none

/-- A node with its properties. The tag of a scalar that says nothing is dropped. -/
def nodeLevel (handles : Handles) (block indentless : Bool) : Reader Token (Tree String)
  | .alias name :: ts => some (.alias name, ts)
  | ts => do
    let (p, ts) ← properties handles ts
    match ts with
    | .scalar style text :: ts =>
      return (.scalar { p with tag := p.tag.filter (· ≠ "!") } style text, ts)
    | .flowSequence :: ts => (flowItems node ts).map fun (is, ts) ↦ (.sequence p is, ts)
    | .flowMapping :: ts => (flowEntries node ts).map fun (es, ts) ↦ (.mapping p es, ts)
    | ts =>
      if indentless ∧ startsWith [.blockEntry] ts then
        (indentlessItems node ts).map fun (is, ts) ↦ (.sequence p is, ts)
      else if block ∧ startsWith [.blockSequence] ts then
        (blockItems node ts.tail).map fun (is, ts) ↦ (.sequence p is, ts)
      else if block ∧ startsWith [.blockMapping] ts then
        (blockEntries node ts.tail).map fun (es, ts) ↦ (.mapping p es, ts)
      else if p = {} then none
      else some (.scalar p .plain "", ts)

end

def nodeUpTo (handles : Handles) :
    (limit : Nat) → (block indentless : Bool) → Reader Token (Tree String)
  | 0 => fun _ _ _ ↦ none
  | limit + 1 => nodeLevel (nodeUpTo handles limit) handles

/-- A node is read from a token at least, so the tokens bound its levels. -/
def node (handles : Handles) : Reader Token (Tree String) := fun ts ↦
  nodeUpTo handles (ts.length + 1) true false ts

structure Directives where
  hasVersion : Bool := false
  handles : Handles := []

/-- The directives before a document; none of them may come twice. -/
def directives (d : Directives) : Reader Token Directives
  | .version major minor :: ts =>
    if d.hasVersion || major != 1 || (minor != 1 && minor != 2) then none
    else directives { d with hasVersion := true } ts
  | .tagHandle handle lead :: ts =>
    if (d.handles.lookup handle).isSome then none
    else directives { d with handles := d.handles ++ [(handle, lead)] } ts
  | ts => some (d, ts)

def isDocumentMark : Token → Bool
  | .version .. | .tagHandle .. | .documentStart | .documentEnd => true
  | _ => false

/-- The node of a document; without marks before it the document begins with its node. -/
def document (ts : List Token) : Option (Tree String × List Token) := do
  let (d, rest) ← directives {} ts
  match rest with
  | .documentStart :: rest =>
    if rest.head?.all isDocumentMark then return (missing, rest)
    node (d.handles ++ defaultHandles) rest
  | _ => if ts.head?.any isDocumentMark then none else node defaultHandles ts

def ofTokens? (ts : List Token) : Option (Option (Tree String)) :=
  if ts.isEmpty then some none
  else do
    let (tree, rest) ← document ts
    if rest.all (· == .documentEnd) then return some tree else none

end Tree

end Conformance.Yaml
