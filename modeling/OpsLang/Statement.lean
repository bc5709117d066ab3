import OpsLang.Expr
import OpsLang.Keyword

/-!
# Statements

The trees of statements, each with the line of its first token. A `Block` is the statements
between the words that open and close it, in order; `BlockKind` names those words.
-/

namespace OpsLang

/-- Which words open and close a block. -/
inductive BlockKind where
  | procedure
  | preconditions
  | main
  | confirmation
  | conditional
  | whileLoop
  | forLoop
  deriving DecidableEq, Repr, Inhabited

namespace BlockKind

/-- Every kind of block. -/
def all : List BlockKind :=
  [procedure, preconditions, main, confirmation, conditional, whileLoop, forLoop]

/-- The keyword that follows `end` where the block closes. -/
def closer : BlockKind → Keyword
  | procedure => .procedure
  | preconditions => .preconditions
  | main => .main
  | confirmation => .confirmation
  | conditional => .if_
  | whileLoop => .while_
  | forLoop => .for_

/-- The name of a kind of block. -/
def text (k : BlockKind) : String :=
  k.closer.text

end BlockKind

/-- What is asked of an activity. -/
inductive ActivityMode where
  /-- Start it and go on. -/
  | initiate
  /-- Wait until it is confirmed. -/
  | confirm
  /-- Start it and wait until it is confirmed. -/
  | initiateAndConfirm
  deriving DecidableEq, Repr, Inhabited

mutual

/-- A statement. -/
inductive Statement where
  | activity (mode : ActivityMode) (reference : Path) (arguments : List Argument) (line : Nat)
  /-- `confirm` with a condition that names no activity. -/
  | check (condition : Expr) (line : Nat)
  | wait (condition : Expr) (line : Nat)
  | assign (target : String) (value : Expr) (line : Nat)
  | conditional (branches : List Branch) (otherwise : Option (List Statement)) (line : Nat)
  | whileLoop (condition : Expr) (body : List Statement) (line : Nat)
  | forLoop (counter : String) (iterable : Expr) (body : List Statement) (line : Nat)
  | expr (value : Expr) (line : Nat)
  deriving Repr, Inhabited

/-- A condition with the statements it guards. -/
inductive Branch where
  | mk (condition : Expr) (body : List Statement)
  deriving Repr

end

/-- Statements in the order they run. -/
abbrev Block := List Statement

/-- The condition of a branch. -/
def Branch.condition : Branch → Expr
  | .mk c _ => c

/-- The statements of a branch. -/
def Branch.body : Branch → Block
  | .mk _ b => b

namespace Statement

/-- The line of the first token of a statement. -/
def line : Statement → Nat
  | activity _ _ _ n | check _ n | wait _ n | assign _ _ n | conditional _ _ n | whileLoop _ _ n
  | forLoop _ _ _ n | expr _ n => n

/-- The arguments of an activity, and none for any other statement. -/
def arguments : Statement → List Argument
  | activity _ _ as _ => as
  | _ => []

end Statement

end OpsLang
