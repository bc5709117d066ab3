import OpsLang.Expr
import OpsLang.Grammar.Reader

/-!
# Reading expressions

Binary operators are read by precedence : `climb floor` reads an operand and then every
operator of precedence `floor` or more with its right operand, and groups them from the
left. A right operand is read with a floor of its own (`BinaryOp.rightFloor`), which is what
makes `**` group from the right.

The readers that go one level deeper take the number of levels left as their first argument.
`binaryAt` and `unaryAt` open one level each; the readers they are made of are given the
deeper readers and open none.
-/

namespace OpsLang

/-- The binary operator that a token is. -/
def BinaryOp.ofToken? : Token → Option BinaryOp
  | .keyword .or => some .or
  | .keyword .and => some .and
  | .symbol .equal => some .equal
  | .symbol .notEqual => some .notEqual
  | .symbol .lessGreater => some .lessGreater
  | .symbol .less => some .less
  | .symbol .lessEqual => some .lessEqual
  | .symbol .greater => some .greater
  | .symbol .greaterEqual => some .greaterEqual
  | .symbol .plus => some .add
  | .symbol .minus => some .sub
  | .symbol .star => some .mul
  | .symbol .slash => some .div
  | .keyword .mod => some .mod
  | .symbol .starStar => some .pow
  | _ => none

/-- The unary operator that a token is. -/
def UnaryOp.ofToken? : Token → Option UnaryOp
  | .keyword .not => some .not
  | .symbol .minus => some .neg
  | .symbol .plus => some .plus
  | _ => none

/-- A unit spelling that follows no number. -/
def Stream.strayUnit (s : Stream) (unit : String) : Diagnostic :=
  { Diagnostic.grammar s.here.span ("unit '" ++ unit ++ "' must follow a numeric literal") with
    expected := ["expression"], found := some s.token.describe }

namespace Grammar

open Reader

/-! ## Names and arguments -/

/-- A name with any number of members behind dots. -/
def path : Reader Path := do
  let first ← name "identifier"
  let rest ← many do
    if ← eat (.symbol .dot) then return Turn.item (← member "identifier after '.'")
    else return Turn.stop
  return ⟨first :: rest⟩

/-- An argument, given the reader of its value : a name and `=` before it make it a named
one. -/
def argument (value : Reader Expr) : Reader Argument := do
  match ← peek, ← peekNext with
  | .name n, .symbol .assign =>
    skip
    skip
    return .named n (← value)
  | _, _ => return .positional (← value)

/-- Arguments between parentheses. A comma may follow the last one. -/
def arguments (value : Reader Expr) : Reader (List Argument) := do
  symbol .leftParen
  let as ← many do
    if (← peek) = .symbol .rightParen then return Turn.stop
    let a ← argument value
    if ← eat (.symbol .comma) then return Turn.item a else return Turn.last a
  symbol .rightParen
  return as

/-! ## Operands -/

/-- A number, and the unit behind it if one stands on the same line. -/
def number (lexeme : String) : Reader Expr := do
  let line := (← here).line
  skip
  let next ← here
  match next.token with
  | .unit u =>
    match if next.line = line then Quantity.ofUnit? u else none with
    | some q =>
      skip
      return .measure (.ofLexeme lexeme) ⟨u, q⟩
    | none => return .number (.ofLexeme lexeme)
  | _ => return .number (.ofLexeme lexeme)

/-- A name, a property or a call, given the reader of argument values. -/
def nameOrCall (value : Reader Expr) : Reader Expr := do
  let p ← path
  if (← peek) = .symbol .leftParen then return .call p (← arguments value)
  match p.segments with
  | [n] => return .name n
  | _ => return .property p

/-- An operand without operators outside parentheses, given the reader of what stands
inside them. -/
def primary (inside : Reader Expr) : Reader Expr := do
  match ← peek with
  | .number lexeme => number lexeme
  | .string content =>
    skip
    return .string content
  | .truth value =>
    skip
    return .truth value
  | .symbol .leftParen =>
    skip
    let e ← inside
    symbol .rightParen
    return .parens e
  | .name _ => nameOrCall inside
  | .unit u => failAt fun s => s.strayUnit u
  | _ => refuse ["expression"]

/-- An operand with the unary operators before it, given the readers of what stands behind
such an operator and of what stands inside parentheses. -/
def operand (behind inside : Reader Expr) : Reader Expr := do
  match UnaryOp.ofToken? (← peek) with
  | some op =>
    skip
    return .unary op (← behind)
  | none => primary inside

/-! ## Binary operators -/

/-- An operator of precedence `floor` or more with its right operand. -/
def operation (floor : Nat) (right : Nat → Reader Expr) : Reader (Turn (BinaryOp × Expr)) := do
  match BinaryOp.ofToken? (← peek) with
  | some op =>
    if op.precedence < floor then return .stop
    else
      skip
      return .item (op, ← right op.rightFloor)
  | none => return .stop

/-- The operations applied to an operand one after another. -/
def applyAll (first : Expr) (operations : List (BinaryOp × Expr)) : Expr :=
  operations.foldl (fun left o => .binary o.1 left o.2) first

/-- An operand with all operations of precedence `floor` or more behind it. -/
def climb (floor : Nat) (first : Reader Expr) (right : Nat → Reader Expr) : Reader Expr := do
  let e ← first
  return applyAll e (← many (operation floor right))

mutual

/-- An expression whose operators outside parentheses have precedence `floor` or more, one
level deeper than its surroundings. -/
def binaryAt : Nat → Nat → Reader Expr
  | 0, _ => tooDeep
  | room + 1, floor => climb floor (operand (unaryAt room) (binaryAt room 1)) (binaryAt room)

/-- What stands behind a unary operator, one level deeper than the operator. -/
def unaryAt : Nat → Reader Expr
  | 0 => tooDeep
  | room + 1 => operand (unaryAt room) (binaryAt room 1)

end

/-- An expression, one level deeper than its surroundings. -/
def expression (room : Nat) : Reader Expr :=
  binaryAt room 1

end Grammar

end OpsLang
