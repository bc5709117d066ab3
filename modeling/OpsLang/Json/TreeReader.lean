import OpsLang.Json.Diagnostic
import OpsLang.Json.Tree

/-!
# Reading the JSON form of trees

`Expr.ofJson?`, `Statement.ofJson?` and `SourceFile.ofJson?` read the JSON form of trees
made by hand. Members may stand in any order. What a text does not show may be missing or
be anything : the kind of a numeral, the quantity of a unit and the line of a statement are
read as a default then.

The first argument of the readers bounds the depth of trees inside trees.
-/

namespace OpsLang

namespace Json

/-- The string under a key. -/
def stringAt? (key : String) (j : Json) : Option String :=
  (j.member? key).bind asString?

/-- The items under a key. -/
def itemsAt? (key : String) (j : Json) : Option (List Json) :=
  match j.member? key with
  | some (.array items) => some items
  | _ => none

/-- The truth value under a key. -/
def truthAt? (key : String) (j : Json) : Option Bool :=
  match j.member? key with
  | some (.truth b) => some b
  | _ => none

/-- The line of a tree, zero if it has none. -/
def lineOr0 (j : Json) : Nat :=
  match j.member? "line" with
  | some (.integer n) => n.toNat
  | _ => 0

mutual

/-- The number of values inside a value, itself included. -/
def weight : Json → Nat
  | array items => itemsWeight items + 1
  | object members => membersWeight members + 1
  | _ => 1

/-- The number of values inside some values. -/
def itemsWeight : List Json → Nat
  | [] => 0
  | j :: js => j.weight + itemsWeight js

/-- The number of values inside some members. -/
def membersWeight : List (String × Json) → Nat
  | [] => 0
  | (_, j) :: ms => j.weight + membersWeight ms

end

end Json

/-! ## Leaves -/

/-- The dotted name that a value lists. -/
def Path.ofJson? (j : Json) : Option Path :=
  j.asStrings?.map Path.mk

/-- The dotted name under a key. -/
def Path.at? (key : String) (j : Json) : Option Path :=
  (j.member? key).bind Path.ofJson?

/-- The numeral under a key. -/
def Numeral.at? (key : String) (j : Json) : Option Numeral := do
  let n ← j.member? key
  return ⟨← n.stringAt? "lexeme",
    if n.stringAt? "kind" = some "decimal" then .decimal else .integer⟩

/-- The unit under a key. -/
def UnitTag.at? (key : String) (j : Json) : Option UnitTag := do
  let u ← j.member? key
  return ⟨← u.stringAt? "spelling",
    (Quantity.all.find? fun q => some q.text = u.stringAt? "kind").getD default⟩

/-- The binary operator under a key. -/
def BinaryOp.at? (key : String) (j : Json) : Option BinaryOp :=
  BinaryOp.all.find? fun op => some op.tag = j.stringAt? key

/-- The unary operator under a key. -/
def UnaryOp.at? (key : String) (j : Json) : Option UnaryOp :=
  UnaryOp.all.find? fun op => some op.tag = j.stringAt? key

/-- What is asked of an activity, under a key. -/
def ActivityMode.at? (key : String) (j : Json) : Option ActivityMode :=
  [ActivityMode.initiate, .confirm, .initiateAndConfirm].find? fun m =>
    some m.tag = j.stringAt? key

/-- The built-in type under a key. -/
def Primitive.at? (key : String) (j : Json) : Option Primitive :=
  (j.stringAt? key).bind Primitive.ofText?

/-! ## Expressions -/

mutual

/-- The expression that a value holds. -/
def Expr.read? : Nat → Json → Option Expr
  | 0, _ => none
  | depth + 1, j => do
    match ← j.stringAt? "expr" with
    | "identifier" => return .name (← j.stringAt? "name")
    | "number" => return .number (← Numeral.at? "value" j)
    | "unit_value" => return .measure (← Numeral.at? "number" j) (← UnitTag.at? "unit" j)
    | "string" => return .string (← j.stringAt? "value")
    | "boolean" => return .truth (← j.truthAt? "value")
    | "property_access" => return .property (← Path.at? "path" j)
    | "function_call" =>
      return .call (← Path.at? "name" j)
        (← (← j.itemsAt? "arguments").mapM (Argument.read? depth))
    | "binary" =>
      return .binary (← BinaryOp.at? "op" j) (← Expr.read? depth (← j.member? "left"))
        (← Expr.read? depth (← j.member? "right"))
    | "unary" =>
      return .unary (← UnaryOp.at? "op" j) (← Expr.read? depth (← j.member? "operand"))
    | "parenthesized" => return .parens (← Expr.read? depth (← j.member? "inner"))
    | _ => none

/-- The argument that a value holds. -/
def Argument.read? : Nat → Json → Option Argument
  | 0, _ => none
  | depth + 1, j => do
    let value ← Expr.read? depth (← j.member? "value")
    match ← j.stringAt? "arg" with
    | "positional" => return .positional value
    | "named" => return .named (← j.stringAt? "name") value
    | _ => none

end

/-- The expression under a key. -/
def Expr.at? (key : String) (j : Json) : Option Expr := do
  let v ← j.member? key
  Expr.read? v.weight v

/-- The expression that a value holds. -/
def Expr.ofJson? (j : Json) : Option Expr :=
  Expr.read? j.weight j

/-! ## Statements -/

/-- The statements of a block, given their reader. -/
def Block.read? (statement : Json → Option Statement) (j : Json) : Option Block := do
  (← j.itemsAt? "statements").mapM statement

/-- The statements of a block that may be null, given their reader. -/
def Block.readOptional? (statement : Json → Option Statement) : Json → Option (Option Block)
  | .null => some none
  | j => (Block.read? statement j).map some

/-- The branch that a value holds, given the reader of statements. -/
def Branch.read? (statement : Json → Option Statement) (j : Json) : Option Branch := do
  return .mk (← Expr.at? "condition" j) (← Block.read? statement (← j.member? "body"))

/-- The statement that a value holds. -/
def Statement.read? : Nat → Json → Option Statement
  | 0, _ => none
  | depth + 1, j => do
    let line := j.lineOr0
    match ← j.stringAt? "stmt" with
    | "activity_call" =>
      let as ← j.itemsAt? "arguments"
      return .activity (← ActivityMode.at? "mode" j) (← Path.at? "reference" j)
        (← as.mapM fun a => Argument.read? a.weight a) line
    | "confirm_check" => return .check (← Expr.at? "condition" j) line
    | "wait_until" => return .wait (← Expr.at? "condition" j) line
    | "assignment" => return .assign (← j.stringAt? "target") (← Expr.at? "value" j) line
    | "conditional" =>
      return .conditional
        (← (← j.itemsAt? "branches").mapM (Branch.read? (Statement.read? depth)))
        (← Block.readOptional? (Statement.read? depth) ((j.member? "else_body").getD .null)) line
    | "while" =>
      return .whileLoop (← Expr.at? "condition" j)
        (← Block.read? (Statement.read? depth) (← j.member? "body")) line
    | "for" =>
      return .forLoop (← j.stringAt? "variable") (← Expr.at? "iterable" j)
        (← Block.read? (Statement.read? depth) (← j.member? "body")) line
    | "expression" => return .expr (← Expr.at? "value" j) line
    | _ => none

/-- The statement that a value holds. -/
def Statement.ofJson? (j : Json) : Option Statement :=
  Statement.read? j.weight j

/-- The block that a value holds. -/
def Block.ofJson? (j : Json) : Option Block :=
  Block.read? Statement.ofJson? j

/-! ## Declarations -/

/-- The size under a key. -/
def sizeAt? (key : String) (j : Json) : Option UInt64 :=
  ((j.member? key).bind (Json.asWord? UInt64.size)).map UInt64.ofNat

/-- The field that a value holds, given the reader of types. -/
def Field.read? (type : Json → Option TypeExpr) (j : Json) : Option Field := do
  return .mk (← j.stringAt? "name") (← type (← j.member? "ty"))

/-- The type that a value holds. -/
def TypeExpr.read? : Nat → Json → Option TypeExpr
  | 0, _ => none
  | depth + 1, j => do
    match ← j.stringAt? "ty" with
    | "primitive" => return .primitive (← Primitive.at? "primitive" j)
    | "array" =>
      return .array (← TypeExpr.read? depth (← j.member? "element")) (← sizeAt? "size" j)
    | "struct" =>
      return .struct (← (← j.itemsAt? "fields").mapM (Field.read? (TypeExpr.read? depth)))
    | "named" => return .named (← Path.at? "path" j)
    | _ => none

/-- The type that a value holds. -/
def TypeExpr.ofJson? (j : Json) : Option TypeExpr :=
  TypeExpr.read? j.weight j

/-- The right-hand side of a type declaration that a value holds. -/
def TypeBody.ofJson? (j : Json) : Option TypeBody := do
  match ← j.stringAt? "def" with
  | "struct" => return .struct (← (← j.itemsAt? "fields").mapM (Field.read? TypeExpr.ofJson?))
  | "primitive" => return .primitive (← Primitive.at? "primitive" j)
  | "array" => return .array (← TypeExpr.ofJson? (← j.member? "element")) (← sizeAt? "size" j)
  | _ => none

/-- The declaration that a value holds. -/
def Declaration.read? : Nat → Json → Option Declaration
  | 0, _ => none
  | depth + 1, j => do
    match ← j.stringAt? "decl" with
    | "namespace" =>
      return .space (← Path.at? "path" j)
        (← (← j.itemsAt? "children").mapM (Declaration.read? depth)) j.lineOr0
    | "type" =>
      return .type (← j.stringAt? "name") (← TypeBody.ofJson? (← j.member? "definition"))
        j.lineOr0
    | _ => none

/-- The declaration that a value holds. -/
def Declaration.ofJson? (j : Json) : Option Declaration :=
  Declaration.read? j.weight j

/-! ## Files -/

/-- The block under a key, which may be missing or null. -/
def Block.at? (key : String) (j : Json) : Option (Option Block) :=
  Block.readOptional? Statement.ofJson? ((j.member? key).getD .null)

/-- The procedure that a value holds. -/
def Procedure.ofJson? (j : Json) : Option Procedure := do
  return ⟨← j.stringAt? "name", ← Block.at? "preconditions" j,
    ← Block.ofJson? (← j.member? "main"), ← Block.at? "confirmation" j, j.lineOr0⟩

/-- The item that a value holds. -/
def Item.ofJson? (j : Json) : Option Item := do
  match ← j.stringAt? "item" with
  | "procedure" => return .procedure (← Procedure.ofJson? j)
  | "declaration" => return .declaration (← Declaration.ofJson? j)
  | _ => none

/-- The file that a value holds. -/
def SourceFile.ofJson? (j : Json) : Option SourceFile := do
  return ⟨← (← j.itemsAt? "items").mapM Item.ofJson?⟩

end OpsLang
