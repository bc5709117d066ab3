import OpsLang.Expr
import OpsLang.Token

/-!
# The text of expressions

`Expr.text` spaces binary operators and writes parentheses where the tree has them, and
besides around an operand that would otherwise be grouped in another way : a binary operand
below the floor of its side (`BinaryOp.leftFloor`, `BinaryOp.rightFloor`), and every binary
operand of a unary operator.
-/

namespace OpsLang

/-- The least precedence that an operator accepts in its left operand without
parentheses. -/
def BinaryOp.leftFloor (op : BinaryOp) : Nat :=
  if op.isRightAssoc then op.precedence + 1 else op.precedence

/-- What stands between a unary operator and its operand. -/
def UnaryOp.gap : UnaryOp → String
  | not => " "
  | neg | plus => ""

namespace Expr

/-- The expression is an operation of a precedence below `floor`. -/
def bindsBelow (floor : Nat) : Expr → Bool
  | binary op _ _ => op.precedence < floor
  | _ => false

/-- The expression is an operation. -/
def isBinary : Expr → Bool
  | binary _ _ _ => true
  | _ => false

end Expr

/-- A text, in parentheses if it needs them. -/
def inParens (needed : Bool) (text : String) : String :=
  if needed then "(" ++ text ++ ")" else text

/-- Arguments between parentheses. -/
def argumentList (texts : List String) : String :=
  "(" ++ ", ".intercalate texts ++ ")"

mutual

/-- The text of an expression. -/
def Expr.text : Expr → String
  | .name n => n
  | .number v => v.lexeme
  | .measure n u => n.lexeme ++ " " ++ u.spelling
  | .string s => quote s
  | .truth b => truthText b
  | .property p => p.text
  | .call p as => p.text ++ argumentList (Argument.texts as)
  | .binary op l r =>
    inParens (l.bindsBelow op.leftFloor) l.text ++ " " ++ op.text ++ " "
      ++ inParens (r.bindsBelow op.rightFloor) r.text
  | .unary op e => op.text ++ op.gap ++ inParens e.isBinary e.text
  | .parens e => inParens true e.text

/-- The text of an argument. -/
def Argument.text : Argument → String
  | .positional v => v.text
  | .named n v => n ++ " = " ++ v.text

/-- The texts of arguments. -/
def Argument.texts : List Argument → List String
  | [] => []
  | a :: as => a.text :: Argument.texts as

end

end OpsLang
