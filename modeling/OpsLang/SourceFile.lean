import OpsLang.Declaration
import OpsLang.Statement

/-!
# Source files

A `SourceFile` is a row of items, each a `Procedure` or a `Declaration`.
-/

namespace OpsLang

/-- A procedure with its three sections, of which only `main` is required, and the line of
its keyword. -/
structure Procedure where
  name : String
  preconditions : Option Block
  main : Block
  confirmation : Option Block
  line : Nat
  deriving Repr, Inhabited

/-- What a file holds at its outermost level. -/
inductive Item where
  | procedure (p : Procedure)
  | declaration (d : Declaration)
  deriving Repr, Inhabited

/-- A file. -/
structure SourceFile where
  items : List Item
  deriving Repr, Inhabited

namespace SourceFile

/-- The procedures of a file. -/
def procedures (f : SourceFile) : List Procedure :=
  f.items.filterMap fun
    | .procedure p => some p
    | .declaration _ => none

/-- The declarations of a file, without those inside namespaces. -/
def declarations (f : SourceFile) : List Declaration :=
  f.items.filterMap fun
    | .declaration d => some d
    | .procedure _ => none

end SourceFile

end OpsLang
