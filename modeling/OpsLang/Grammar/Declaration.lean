import OpsLang.Declaration
import OpsLang.Grammar.Expr

/-!
# Reading declarations

Types and the namespaces that hold them. As with expressions, a reader that opens a level
takes the number of levels left, and the readers it is made of are given the deeper ones.
-/

namespace OpsLang

/-- The size of an array is no integer that fits. -/
def Stream.badSize (s : Stream) (lexeme : String) : Diagnostic :=
  { Diagnostic.grammar s.here.span
      ("array size must be an integer literal, found '" ++ lexeme ++ "'") with
    expected := ["integer literal"], found := some s.token.describe }

/-- The type `name` is declared to be the mere name `path`. -/
def Stream.bareAlias (s : Stream) (name : String) (path : Path) : Diagnostic :=
  { Diagnostic.grammar s.here.span
      ("type '" ++ name ++ "' must be defined as a struct, a primitive or an array, not as '"
        ++ path.text ++ "'") with
    expected := ["'struct'", "'['", "primitive type"]
    found := some ("identifier '" ++ path.text ++ "'") }

namespace Grammar

open Reader

/-! ## Types -/

/-- A built-in type, or the name of another. -/
def namedType : Reader TypeExpr := do
  let p ← path
  match p.segments with
  | [n] =>
    match Primitive.ofText? n with
    | some t => return .primitive t
    | none => return .named p
  | _ => return .named p

/-- The size of an array. -/
def arraySize : Reader UInt64 := do
  match ← peek with
  | .number lexeme =>
    match (Numeral.ofLexeme lexeme).toUInt64? with
    | some n =>
      skip
      return n
    | none => failAt fun s => s.badSize lexeme
  | _ => refuse ["integer literal"]

/-- An array type, given the reader of its element type. -/
def arrayType (inner : Reader TypeExpr) : Reader TypeExpr := do
  symbol .leftBracket
  let element ← inner
  symbol .semicolon
  let size ← arraySize
  symbol .rightBracket
  return .array element size

/-- A field, given the reader of its type. -/
def field (inner : Reader TypeExpr) : Reader Field := do
  let n ← member "field name"
  symbol .colon
  return .mk n (← inner)

/-- A struct type, given the reader of field types. A comma may follow the last field. -/
def structType (inner : Reader TypeExpr) : Reader TypeExpr := do
  keyword .struct
  symbol .leftBrace
  let fields ← many do
    if (← peek) = .symbol .rightBrace then return Turn.stop
    let f ← field inner
    if ← eat (.symbol .comma) then return Turn.item f else return Turn.last f
  symbol .rightBrace
  return .struct fields

/-- A type, given the reader of the types inside it. -/
def typeOf (inner : Reader TypeExpr) : Reader TypeExpr := do
  match ← peek with
  | .keyword .struct => structType inner
  | .symbol .leftBracket => arrayType inner
  | .name _ => namedType
  | _ => refuse ["type"]

/-- A type one level deeper than its surroundings. -/
def typeAt : Nat → Reader TypeExpr
  | 0 => tooDeep
  | room + 1 => typeOf (typeAt room)

/-! ## Declarations -/

/-- The declaration of a type, from its keyword on. -/
def typeDeclaration (inner : Reader TypeExpr) : Reader Declaration := do
  let line := (← here).line
  skip
  let n ← name "type name"
  match ← typeOf inner with
  | .struct fields => return .type n (.struct fields) line
  | .primitive p => return .type n (.primitive p) line
  | .array element size => return .type n (.array element size) line
  | .named p => failAt fun s => s.bareAlias n p

/-- A namespace, from its keyword on, given the reader of the declarations inside it. -/
def namespaceDeclaration (inner : Reader Declaration) : Reader Declaration := do
  let line := (← here).line
  skip
  let p ← path
  symbol .leftBrace
  let children ← many do
    semicolons
    match ← peek with
    | .symbol .rightBrace =>
      skip
      return Turn.stop
    | .keyword .namespace_ | .keyword .type => return Turn.item (← inner)
    | _ => refuse ["'namespace'", "'type'", "'\x7d'"]
  return .space p children line

/-- A declaration, given the readers of the types and the declarations inside it. -/
def declarationOf (type : Reader TypeExpr) (inner : Reader Declaration) : Reader Declaration := do
  match ← peek with
  | .keyword .namespace_ => namespaceDeclaration inner
  | .keyword .type => typeDeclaration type
  | _ => refuse ["'namespace'", "'type'"]

/-- A declaration one level deeper than its surroundings. -/
def declarationAt : Nat → Reader Declaration
  | 0 => tooDeep
  | room + 1 => declarationOf (typeAt room) (declarationAt room)

/-- A declaration at the level of its surroundings. -/
def declaration (room : Nat) : Reader Declaration :=
  declarationOf (typeAt room) (declarationAt room)

end Grammar

end OpsLang
