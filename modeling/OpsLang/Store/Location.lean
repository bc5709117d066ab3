/-!
# Locations

A `Location` is the normal form of a slash-separated path : whether it begins at the root,
and the names on the way. `Location.ofPath` drops empty parts and `.`, and lets `..` remove
what stands before it. The root counts as a part of its own, so `..` can remove that too,
and a `..` with nothing before it is dropped.
-/

namespace OpsLang

/-- One part of a path. -/
inductive PathPart where
  | root
  | parent
  | name (text : String)
  deriving DecidableEq, Repr

/-- The normal form of a path. -/
structure Location where
  rooted : Bool
  names : List String
  deriving DecidableEq, Repr, Inhabited

/-- The stretches of a text between slashes. -/
def splitSlashes : List Char → List (List Char)
  | [] => [[]]
  | c :: cs =>
    if c = '/' then [] :: splitSlashes cs
    else
      match splitSlashes cs with
      | [] => [[c]]
      | part :: parts => (c :: part) :: parts

/-- The part that a stretch between slashes is, if it is one. -/
def PathPart.ofText? (text : List Char) : Option PathPart :=
  if text = [] ∨ text = ['.'] then none
  else if text = ['.', '.'] then some .parent
  else some (.name (String.ofList text))

/-- The parts of a path. -/
def pathParts (path : String) : List PathPart :=
  let cs := path.toList
  (if cs.head? = some '/' then [.root] else []) ++ (splitSlashes cs).filterMap PathPart.ofText?

namespace Location

/-- The place where a path without parts leads. -/
def start : Location := ⟨false, []⟩

/-- Follow one part of a path. -/
def follow (l : Location) : PathPart → Location
  | .root => ⟨true, []⟩
  | .parent =>
    match l.names with
    | [] => start
    | names => ⟨l.rooted, names.dropLast⟩
  | .name n => ⟨l.rooted, l.names ++ [n]⟩

/-- The normal form of a path. -/
def ofPath (path : String) : Location :=
  (pathParts path).foldl follow start

/-- The location as a path. -/
def text (l : Location) : String :=
  (if l.rooted then "/" else "") ++ "/".intercalate l.names

end Location

end OpsLang
