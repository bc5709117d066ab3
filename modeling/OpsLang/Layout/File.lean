import OpsLang.Layout.Statement
import OpsLang.SourceFile

/-!
# The text of declarations, procedures and files

A declaration is written on one line, but for a namespace with declarations inside. An empty
line stands between the items of a file.
-/

namespace OpsLang

mutual

/-- The text of a type. -/
def TypeExpr.text : TypeExpr → String
  | .primitive p => p.text
  | .array element size => "[" ++ element.text ++ "; " ++ toString size.toNat ++ "]"
  | .struct [] => "struct \x7b\x7d"
  | .struct (f :: fs) => "struct \x7b " ++ ", ".intercalate (f.text :: Field.texts fs) ++ " \x7d"
  | .named p => p.text

/-- The text of a field. -/
def Field.text : Field → String
  | .mk n t => n ++ ": " ++ t.text

/-- The texts of fields. -/
def Field.texts : List Field → List String
  | [] => []
  | f :: fs => f.text :: Field.texts fs

end

/-- The type that a declaration gives to its name. -/
def TypeBody.type : TypeBody → TypeExpr
  | .struct fields => .struct fields
  | .primitive p => .primitive p
  | .array element size => .array element size

mutual

/-- The lines of a declaration at a level. -/
def Declaration.lines (level : Nat) : Declaration → List String
  | .space p [] _ => [indented level ("namespace " ++ p.text ++ " \x7b\x7d")]
  | .space p (d :: ds) _ =>
    [indented level ("namespace " ++ p.text ++ " \x7b")] ++ d.lines (level + 1)
      ++ Declaration.allLines (level + 1) ds ++ [indented level "\x7d"]
  | .type n body _ => [indented level ("type " ++ n ++ " " ++ body.type.text)]

/-- The lines of declarations at a level. -/
def Declaration.allLines (level : Nat) : List Declaration → List String
  | [] => []
  | d :: ds => d.lines level ++ Declaration.allLines level ds

end

/-- The lines of a section of a procedure. -/
def sectionLines (kind : BlockKind) (body : Block) : List String :=
  [indented 1 kind.text] ++ Block.lines 2 body ++ [indented 1 ("end " ++ kind.text)]

/-- The lines of a section that may be missing. -/
def optionalSectionLines (kind : BlockKind) : Option Block → List String
  | some body => sectionLines kind body
  | none => []

/-- The lines of a procedure. -/
def Procedure.lines (p : Procedure) : List String :=
  ["procedure " ++ p.name] ++ optionalSectionLines .preconditions p.preconditions
    ++ sectionLines .main p.main ++ optionalSectionLines .confirmation p.confirmation
    ++ ["end procedure"]

/-- The lines of an item. -/
def Item.lines : Item → List String
  | .procedure p => p.lines
  | .declaration d => d.lines 0

/-- The text of a file. -/
def SourceFile.text (f : SourceFile) : String :=
  "\n".intercalate (f.items.map fun i => linesText i.lines)

end OpsLang
