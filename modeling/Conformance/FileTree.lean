import Conformance.Path

namespace Conformance

/-- Texts by the components of their paths. -/
structure FileTree where
  files : List (List String × String) := []

namespace FileTree

def isDirectory (t : FileTree) (dir : List String) : Bool :=
  dir.isEmpty || t.files.any fun f ↦ dir.isPrefixOf f.1 && decide (dir.length < f.1.length)

/-- Follows components from a directory; all but the last of them have to be directories. -/
def follow (t : FileTree) (dir : List String) : List String → Option (List String)
  | [] => some dir
  | c :: cs =>
    if !t.isDirectory dir then none
    else if c = "." then follow t dir cs
    else if c = ".." then if dir.isEmpty then none else follow t dir.dropLast cs
    else follow t (dir ++ [c]) cs

def resolve (t : FileTree) (path : String) : Option (List String) :=
  if path.isEmpty || path.startsWith "/" then none else t.follow [] (Path.components path)

def read (t : FileTree) (path : String) : Option String := do t.files.lookup (← t.resolve path)

/-- The tree with a file at this place, in directories that are there from then on. -/
def insert (t : FileTree) (place : List String) (text : String) : FileTree :=
  ⟨(place, text) :: t.files.filter (·.1 != place)⟩

/-- The tree with these files, of which later ones replace earlier ones. -/
def ofList (files : List (String × String)) : FileTree :=
  files.foldl (fun t f ↦ t.insert ((Path.components f.1).filter (· != ".")) f.2) {}

def write? (t : FileTree) (path text : String) : Option FileTree := do
  let place ← t.resolve path
  if t.isDirectory place then none
  return t.insert place text

end FileTree

end Conformance
