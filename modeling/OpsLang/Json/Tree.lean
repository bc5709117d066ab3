import OpsLang.Json
import OpsLang.SourceFile

/-!
# The JSON form of trees

Every tree is an object whose first member, the tag, names its constructor : `expr`, `arg`,
`stmt`, `decl`, `def`, `ty` or `item`. The other members follow in a fixed order. An item
has its own tag before that of its declaration.
-/

namespace OpsLang

/-! ## Tags -/

/-- The tag of a binary operator. -/
def BinaryOp.tag : BinaryOp → String
  | or => "or"
  | and => "and"
  | equal => "eq"
  | notEqual => "ne"
  | lessGreater => "lt_gt"
  | less => "lt"
  | lessEqual => "le"
  | greater => "gt"
  | greaterEqual => "ge"
  | add => "add"
  | sub => "sub"
  | mul => "mul"
  | div => "div"
  | mod => "mod"
  | pow => "pow"

/-- The tag of a unary operator. -/
def UnaryOp.tag : UnaryOp → String
  | not => "not"
  | neg => "neg"
  | plus => "plus"

/-- The tag of what is asked of an activity. -/
def ActivityMode.tag : ActivityMode → String
  | initiate => "initiate"
  | confirm => "confirm"
  | initiateAndConfirm => "initiate_and_confirm"

/-! ## Expressions -/

/-- The JSON form of a dotted name. -/
def Path.toJson (p : Path) : Json :=
  .strings p.segments

/-- The JSON form of a numeral. -/
def Numeral.toJson (n : Numeral) : Json :=
  .object [("lexeme", .string n.lexeme), ("kind", .string n.kind.text)]

/-- The JSON form of a unit. -/
def UnitTag.toJson (u : UnitTag) : Json :=
  .object [("spelling", .string u.spelling), ("kind", .string u.quantity.text)]

mutual

/-- The JSON form of an expression. -/
def Expr.toJson : Expr → Json
  | .name n => .object [("expr", .string "identifier"), ("name", .string n)]
  | .number v => .object [("expr", .string "number"), ("value", v.toJson)]
  | .measure n u =>
    .object [("expr", .string "unit_value"), ("number", n.toJson), ("unit", u.toJson)]
  | .string s => .object [("expr", .string "string"), ("value", .string s)]
  | .truth b => .object [("expr", .string "boolean"), ("value", .truth b)]
  | .property p => .object [("expr", .string "property_access"), ("path", p.toJson)]
  | .call p as =>
    .object [("expr", .string "function_call"), ("name", p.toJson),
      ("arguments", .array (Argument.allToJson as))]
  | .binary op l r =>
    .object [("expr", .string "binary"), ("op", .string op.tag), ("left", l.toJson),
      ("right", r.toJson)]
  | .unary op e =>
    .object [("expr", .string "unary"), ("op", .string op.tag), ("operand", e.toJson)]
  | .parens e => .object [("expr", .string "parenthesized"), ("inner", e.toJson)]

/-- The JSON form of an argument. -/
def Argument.toJson : Argument → Json
  | .positional v => .object [("arg", .string "positional"), ("value", v.toJson)]
  | .named n v => .object [("arg", .string "named"), ("name", .string n), ("value", v.toJson)]

/-- The JSON forms of arguments. -/
def Argument.allToJson : List Argument → List Json
  | [] => []
  | a :: as => a.toJson :: Argument.allToJson as

end

/-! ## Statements -/

/-- The JSON form of a block, given those of its statements. -/
def blockJson (statements : List Json) : Json :=
  .object [("statements", .array statements)]

mutual

/-- The JSON form of a statement. -/
def Statement.toJson : Statement → Json
  | .activity mode p as line =>
    .object [("stmt", .string "activity_call"), ("mode", .string mode.tag),
      ("reference", p.toJson), ("arguments", .array (Argument.allToJson as)), ("line", .nat line)]
  | .check c line =>
    .object [("stmt", .string "confirm_check"), ("condition", c.toJson), ("line", .nat line)]
  | .wait c line =>
    .object [("stmt", .string "wait_until"), ("condition", c.toJson), ("line", .nat line)]
  | .assign n v line =>
    .object [("stmt", .string "assignment"), ("target", .string n), ("value", v.toJson),
      ("line", .nat line)]
  | .conditional branches none line =>
    .object [("stmt", .string "conditional"), ("branches", .array (Branch.allToJson branches)),
      ("else_body", .null), ("line", .nat line)]
  | .conditional branches (some body) line =>
    .object [("stmt", .string "conditional"), ("branches", .array (Branch.allToJson branches)),
      ("else_body", blockJson (Statement.allToJson body)), ("line", .nat line)]
  | .whileLoop c body line =>
    .object [("stmt", .string "while"), ("condition", c.toJson),
      ("body", blockJson (Statement.allToJson body)), ("line", .nat line)]
  | .forLoop n e body line =>
    .object [("stmt", .string "for"), ("variable", .string n), ("iterable", e.toJson),
      ("body", blockJson (Statement.allToJson body)), ("line", .nat line)]
  | .expr v line =>
    .object [("stmt", .string "expression"), ("value", v.toJson), ("line", .nat line)]

/-- The JSON forms of statements. -/
def Statement.allToJson : List Statement → List Json
  | [] => []
  | st :: rest => st.toJson :: Statement.allToJson rest

/-- The JSON forms of branches. -/
def Branch.allToJson : List Branch → List Json
  | [] => []
  | .mk c body :: rest =>
    .object [("condition", c.toJson), ("body", blockJson (Statement.allToJson body))]
      :: Branch.allToJson rest

end

/-- The JSON form of a block. -/
def Block.toJson (b : Block) : Json :=
  blockJson (Statement.allToJson b)

/-! ## Declarations -/

mutual

/-- The JSON form of a type. -/
def TypeExpr.toJson : TypeExpr → Json
  | .primitive p => .object [("ty", .string "primitive"), ("primitive", .string p.text)]
  | .array element size =>
    .object [("ty", .string "array"), ("element", element.toJson), ("size", .nat size.toNat)]
  | .struct fields =>
    .object [("ty", .string "struct"), ("fields", .array (Field.allToJson fields))]
  | .named p => .object [("ty", .string "named"), ("path", p.toJson)]

/-- The JSON forms of fields. -/
def Field.allToJson : List Field → List Json
  | [] => []
  | .mk n t :: rest => .object [("name", .string n), ("ty", t.toJson)] :: Field.allToJson rest

end

/-- The JSON form of the right-hand side of a type declaration. -/
def TypeBody.toJson : TypeBody → Json
  | .struct fields =>
    .object [("def", .string "struct"), ("fields", .array (Field.allToJson fields))]
  | .primitive p => .object [("def", .string "primitive"), ("primitive", .string p.text)]
  | .array element size =>
    .object [("def", .string "array"), ("element", element.toJson), ("size", .nat size.toNat)]

mutual

/-- The members of the JSON form of a declaration. -/
def Declaration.members : Declaration → List (String × Json)
  | .space p children line =>
    [("decl", .string "namespace"), ("path", p.toJson),
      ("children", .array (Declaration.allToJson children)), ("line", .nat line)]
  | .type n body line =>
    [("decl", .string "type"), ("name", .string n), ("definition", body.toJson),
      ("line", .nat line)]

/-- The JSON forms of declarations. -/
def Declaration.allToJson : List Declaration → List Json
  | [] => []
  | d :: rest => .object d.members :: Declaration.allToJson rest

end

/-- The JSON form of a declaration. -/
def Declaration.toJson (d : Declaration) : Json :=
  .object d.members

/-! ## Files -/

/-- The JSON form of a block that may be missing. -/
def optionalBlockJson : Option Block → Json
  | some b => b.toJson
  | none => .null

/-- The members of the JSON form of a procedure. -/
def Procedure.members (p : Procedure) : List (String × Json) :=
  [("name", .string p.name), ("preconditions", optionalBlockJson p.preconditions),
    ("main", p.main.toJson), ("confirmation", optionalBlockJson p.confirmation),
    ("line", .nat p.line)]

/-- The JSON form of a procedure. -/
def Procedure.toJson (p : Procedure) : Json :=
  .object p.members

/-- The JSON form of an item. -/
def Item.toJson : Item → Json
  | .procedure p => .object (("item", .string "procedure") :: p.members)
  | .declaration d => .object (("item", .string "declaration") :: d.members)

/-- The JSON form of a file. -/
def SourceFile.toJson (f : SourceFile) : Json :=
  .object [("items", .array (f.items.map Item.toJson))]

end OpsLang
