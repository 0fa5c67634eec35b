/-!
Paths as text: components between slashes. Empty components and single dots say nothing, except
for a dot that begins a relative path.
-/

namespace Conformance.Path

def lead : List Char → List Char × List Char
  | '/' :: cs => (['/'], cs)
  | ['.'] => (['.'], [])
  | '.' :: '/' :: cs => (['.'], '/' :: cs)
  | cs => ([], cs)

def last (reversed : List Char) : List Char := (reversed.takeWhile (· != '/')).reverse

def dropLast (reversed : List Char) : List Char := (reversed.dropWhile (· != '/')).drop 1

theorem length_dropLast_lt {cs : List Char} (h : cs ≠ []) :
    (dropLast cs).length < cs.length := by
  have hd := (List.dropWhile_suffix (· != '/') (l := cs)).length_le
  have hc := List.length_pos_iff.2 h
  cases hw : cs.dropWhile (· != '/') with
  | nil => simpa [dropLast, hw] using hc
  | cons c rest =>
    rw [hw, List.length_cons] at hd
    simp only [dropLast, hw, List.drop_one, List.tail_cons]
    omega

/-- The path without components at its end that say nothing, written backwards. -/
def trimEnd (reversed : List Char) : List Char :=
  if _h : reversed = [] then []
  else if last reversed = [] ∨ last reversed = ['.'] then trimEnd (dropLast reversed)
  else reversed
termination_by reversed.length
decreasing_by exact length_dropLast_lt _h

/-- The directory that a path stands in; a root and an empty path have none. -/
def parent? (path : String) : Option String :=
  let (front, body) := lead path.toList
  match trimEnd body.reverse with
  | [] => if front = ['.'] then some "" else none
  | cs => some (.ofList (front ++ (trimEnd (dropLast cs)).reverse))

def ancestors (path : String) : (count : Nat) → List String
  | 0 => []
  | count + 1 =>
    path ::
      match parent? path with
      | some up => ancestors up count
      | none => []

/-- The last component, if it is a name. -/
def fileName? (path : String) : Option (List Char) :=
  match trimEnd (lead path.toList).2.reverse with
  | [] => none
  | cs => if last cs = ['.', '.'] then none else some (last cs)

/-- What follows the last dot of the file name, unless the name begins with that dot. -/
def extension? (path : String) : Option String := do
  let reversed := (← fileName? path).reverse
  match reversed.dropWhile (· != '.') with
  | [] | ['.'] => none
  | _ => return .ofList (reversed.takeWhile (· != '.')).reverse

def child (dir name : String) : String :=
  if dir = "" ∨ dir.toList.getLast? = some '/' then dir ++ name else dir ++ "/" ++ name

def split : List Char → List (List Char)
  | [] => [[]]
  | c :: cs =>
    match split cs with
    | [] => [[c]]
    | part :: parts => if c = '/' then [] :: part :: parts else (c :: part) :: parts

/-- The components of a path; a slash at the end stands for a dot. -/
def components (path : String) : List String :=
  let parts := split path.toList
  (parts.filter (· ≠ [])).map .ofList ++ if parts.getLast? = some [] then ["."] else []

end Conformance.Path
