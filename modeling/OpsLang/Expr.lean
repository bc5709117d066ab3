import OpsLang.Numeral
import OpsLang.Quantity

/-!
# Expressions

The trees of expressions. They carry no positions, so two spellings of one expression give
equal trees, but they keep what a reader wrote : number spellings, the two signs for
"differs", and parentheses (`Expr.parens`). `BinaryOp.precedence` orders the binary
operators from loosest to tightest, and `**` alone groups to the right.
-/

namespace OpsLang

/-! ## Names and operators -/

/-- A dotted name. -/
structure Path where
  segments : List String
  deriving DecidableEq, Repr, Inhabited

namespace Path

/-- The name without dots. -/
def single (name : String) : Path := ⟨[name]⟩

/-- The name whose segments stand between the dots of a text. -/
def ofText (text : String) : Path := ⟨text.splitOn "."⟩

/-- The name with a dot between its segments. -/
def text (p : Path) : String :=
  ".".intercalate p.segments

/-- The name has one segment. -/
def isBare (p : Path) : Bool :=
  p.segments.length == 1

end Path

/-- A unit with the quantity it measures. -/
structure UnitTag where
  spelling : String
  quantity : Quantity
  deriving DecidableEq, Repr, Inhabited

/-- An operator between two operands. -/
inductive BinaryOp where
  | or
  | and
  | equal
  | notEqual
  /-- The other sign for "differs". -/
  | lessGreater
  | less
  | lessEqual
  | greater
  | greaterEqual
  | add
  | sub
  | mul
  | div
  | mod
  | pow
  deriving DecidableEq, Repr, Inhabited

namespace BinaryOp

/-- Every binary operator. -/
def all : List BinaryOp :=
  [or, and, equal, notEqual, lessGreater, less, lessEqual, greater, greaterEqual, add, sub, mul,
    div, mod, pow]

/-- The sign of an operator. -/
def text : BinaryOp → String
  | or => "or"
  | and => "and"
  | equal => "=="
  | notEqual => "!="
  | lessGreater => "<>"
  | less => "<"
  | lessEqual => "<="
  | greater => ">"
  | greaterEqual => ">="
  | add => "+"
  | sub => "-"
  | mul => "*"
  | div => "/"
  | mod => "mod"
  | pow => "**"

/-- How tightly an operator binds. -/
def precedence : BinaryOp → Nat
  | or => 1
  | and => 2
  | equal | notEqual | lessGreater => 3
  | less | lessEqual | greater | greaterEqual => 4
  | add | sub => 5
  | mul | div | mod => 6
  | pow => 7

/-- A row of the operator groups from the right. -/
def isRightAssoc (op : BinaryOp) : Bool :=
  op == pow

/-- The least precedence that an operator accepts in its right operand. -/
def rightFloor (op : BinaryOp) : Nat :=
  if op.isRightAssoc then op.precedence else op.precedence + 1

theorem mem_all (op : BinaryOp) : op ∈ all := by
  cases op <;> decide

end BinaryOp

/-- An operator before its operand. Each binds tighter than every binary operator. -/
inductive UnaryOp where
  | not
  | neg
  | plus
  deriving DecidableEq, Repr, Inhabited

namespace UnaryOp

/-- Every unary operator. -/
def all : List UnaryOp := [not, neg, plus]

/-- The sign of an operator. -/
def text : UnaryOp → String
  | not => "not"
  | neg => "-"
  | plus => "+"

end UnaryOp

/-! ## Trees -/

mutual

/-- An expression. -/
inductive Expr where
  | name (name : String)
  | number (value : Numeral)
  /-- A number with a unit. -/
  | measure (number : Numeral) (unit : UnitTag)
  | string (value : String)
  | truth (value : Bool)
  /-- A dotted name of two segments or more. -/
  | property (path : Path)
  | call (name : Path) (arguments : List Argument)
  | binary (op : BinaryOp) (left right : Expr)
  | unary (op : UnaryOp) (operand : Expr)
  | parens (inner : Expr)
  deriving Repr, Inhabited

/-- An argument of a call or of an activity. -/
inductive Argument where
  | positional (value : Expr)
  | named (name : String) (value : Expr)
  deriving Repr, Inhabited

end

/-- The value of an argument. -/
def Argument.value : Argument → Expr
  | positional v | named _ v => v

/-! ## Equality -/

mutual

/-- The trees are equal. -/
def Expr.same : Expr → Expr → Bool
  | .name n, .name n' => n == n'
  | .number v, .number v' => v == v'
  | .measure n u, .measure n' u' => n == n' && u == u'
  | .string s, .string s' => s == s'
  | .truth b, .truth b' => b == b'
  | .property p, .property p' => p == p'
  | .call p as, .call p' as' => p == p' && Argument.allSame as as'
  | .binary o l r, .binary o' l' r' => o == o' && l.same l' && r.same r'
  | .unary o e, .unary o' e' => o == o' && e.same e'
  | .parens e, .parens e' => e.same e'
  | _, _ => false

/-- The arguments are equal. -/
def Argument.same : Argument → Argument → Bool
  | .positional v, .positional v' => v.same v'
  | .named n v, .named n' v' => n == n' && v.same v'
  | _, _ => false

/-- The rows of arguments are equal. -/
def Argument.allSame : List Argument → List Argument → Bool
  | [], [] => true
  | a :: as, a' :: as' => a.same a' && Argument.allSame as as'
  | _, _ => false

end

mutual

theorem Expr.same_iff : ∀ e e' : Expr, e.same e' = true ↔ e = e'
  | .name _, e' | .number _, e' | .measure _ _, e' | .string _, e' | .truth _, e'
  | .property _, e' => by
    cases e' <;> simp [Expr.same]
  | .call _ as, e' => by
    cases e' <;> simp [Expr.same, Argument.allSame_iff as]
  | .binary _ l r, e' => by
    cases e' <;> simp [Expr.same, Expr.same_iff l, Expr.same_iff r, and_assoc]
  | .unary _ e, e' => by
    cases e' <;> simp [Expr.same, Expr.same_iff e]
  | .parens e, e' => by
    cases e' <;> simp [Expr.same, Expr.same_iff e]

theorem Argument.same_iff : ∀ a a' : Argument, a.same a' = true ↔ a = a'
  | .positional v, a' => by
    cases a' <;> simp [Argument.same, Expr.same_iff v]
  | .named _ v, a' => by
    cases a' <;> simp [Argument.same, Expr.same_iff v]

theorem Argument.allSame_iff :
    ∀ as as' : List Argument, Argument.allSame as as' = true ↔ as = as'
  | [], as' => by
    cases as' <;> simp [Argument.allSame]
  | a :: as, as' => by
    cases as' <;> simp [Argument.allSame, Argument.same_iff a, Argument.allSame_iff as]

end

instance : DecidableEq Expr := fun e e' =>
  decidable_of_iff (e.same e' = true) (Expr.same_iff e e')

instance : DecidableEq Argument := fun a a' =>
  decidable_of_iff (a.same a' = true) (Argument.same_iff a a')

end OpsLang
