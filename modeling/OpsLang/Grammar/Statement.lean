import OpsLang.Grammar.Expr
import OpsLang.Statement

/-!
# Reading statements

`statements` reads the statements of a block up to the word that ends it. In strict mode the
first fault ends the reading. In recovering mode a statement with a fault is reported and
dropped, and the reading goes on where `resume` stops : behind a semicolon, before the end of
the block, or on a later line than the fault. An unterminated block always ends the reading.

`confirm` is followed by an activity or by a condition. An activity is preferred wherever
one can be read and no binary operator follows it.
-/

namespace OpsLang

/-- Whether reading goes on after a fault. -/
inductive Mode where
  | strict
  | recovering
  deriving DecidableEq, Repr

/-- The text ended inside a block. -/
def Stream.unterminated (s : Stream) (kind : BlockKind) (line : Nat) : Diagnostic :=
  .unterminated s.here.span kind.text line

namespace Grammar

open Reader

/-! ## Ends of blocks -/

/-- The description of a block's end. -/
def endText (word : String) : String :=
  "'end " ++ word ++ "'"

/-- The end of a block that was opened on `line`. The end of another block is passed over,
so that reading can go on behind it. -/
def endOf (kind : BlockKind) (line : Nat) : Reader Unit := fun s =>
  let want := endText kind.closer.text
  match s.token, s.next with
  | .keyword .end_, .keyword k =>
    if k = kind.closer then .ok () s.advance.advance
    else .fail (.expecting s.here.span [want] (endText k.text)) s.advance.advance
  | .eof, _ => .fail (s.unterminated kind line) s
  | .keyword .end_, .eof => .fail (s.advance.unterminated kind line) s.advance
  | .keyword .end_, other => .fail (.expecting s.here.span [want] (endText other.lexeme)) s.advance
  | _, _ => .fail (s.expecting [want]) s

/-! ## Statements without blocks -/

/-- The name of an activity with its arguments, none if no parenthesis follows. -/
def activityReference (expr : Reader Expr) : Reader (Path × List Argument) := do
  let p ← path
  if (← peek) = .symbol .leftParen then return (p, ← arguments expr) else return (p, [])

/-- `initiate`, or `initiate and confirm`, with its activity. -/
def initiate (expr : Reader Expr) (line : Nat) : Reader Statement := do
  skip
  if ← eat (.keyword .and) then
    keyword .confirm
    let (p, as) ← activityReference expr
    return .activity .initiateAndConfirm p as line
  else
    let (p, as) ← activityReference expr
    return .activity .initiate p as line

/-- A condition behind `confirm`. -/
def confirmCondition (expr : Reader Expr) (line : Nat) : Reader Statement := do
  return .check (← expr) line

/-- The operand of `confirm`. -/
def confirmOperand (expr : Reader Expr) (line : Nat) : Reader Statement := fun s =>
  match s.token with
  | .name _ =>
    match activityReference expr s with
    | .ok (p, as) s' =>
      if (BinaryOp.ofToken? s'.token).isSome then confirmCondition expr line s
      else .ok (.activity .confirm p as line) s'
    | .fail _ _ => confirmCondition expr line s
    | .endless => .endless
  | _ => confirmCondition expr line s

/-- `confirm` with its operand. -/
def confirm (expr : Reader Expr) (line : Nat) : Reader Statement := do
  skip
  confirmOperand expr line

/-- `wait until` with its condition. -/
def wait (expr : Reader Expr) (line : Nat) : Reader Statement := do
  skip
  keyword .until_
  return .wait (← expr) line

/-- A statement that begins with no keyword but perhaps `not` : an assignment if `=` follows
a name, else an expression. -/
def plainStatement (expr : Reader Expr) (line : Nat) : Reader Statement := do
  match ← peek, ← peekNext with
  | .name n, .symbol .assign =>
    skip
    skip
    return .assign n (← expr) line
  | .keyword .not, _ => return .expr (← expr) line
  | .keyword _, _ => refuse ["statement"]
  | _, _ => return .expr (← expr) line

/-! ## Statements with blocks -/

/-- A reader of the statements of a block, given its kind, the line it was opened on and
whether `elsif` and `else` end it. -/
abbrev BlockReader : Type :=
  BlockKind → Nat → Bool → Reporter Block

/-- One condition of `if` with its statements, and whether another follows. -/
def branch (expr : Reader Expr) (block : BlockReader) (line : Nat) : Reporter (Turn Branch) := do
  let condition ← expr
  keyword .then_
  let body ← block .conditional line true
  if ← eat (.keyword .elsif) then return .item (.mk condition body)
  else return .last (.mk condition body)

/-- The statements behind `else`, if it is there. -/
def otherwise (block : BlockReader) (line : Nat) : Reporter (Option Block) := do
  if ← eat (.keyword .else_) then return some (← block .conditional line false)
  else return none

/-- `if` with its branches. -/
def conditional (expr : Reader Expr) (block : BlockReader) (line : Nat) : Reporter Statement := do
  skip
  let branches ← Reporter.many (branch expr block line)
  let rest ← otherwise block line
  endOf .conditional line
  return .conditional branches rest line

/-- `while` with its condition and its statements. -/
def whileLoop (expr : Reader Expr) (block : BlockReader) (line : Nat) : Reporter Statement := do
  skip
  let condition ← expr
  keyword .do_
  let body ← block .whileLoop line false
  endOf .whileLoop line
  return .whileLoop condition body line

/-- `for` with its variable, the values it takes and its statements. -/
def forLoop (expr : Reader Expr) (block : BlockReader) (line : Nat) : Reporter Statement := do
  skip
  let counter ← name "loop variable"
  keyword .in_
  let iterable ← expr
  keyword .do_
  let body ← block .forLoop line false
  endOf .forLoop line
  return .forLoop counter iterable body line

/-- A statement without the semicolon behind it. -/
def bareStatement (expr : Reader Expr) (block : BlockReader) (line : Nat) :
    Reporter Statement := do
  match ← peek with
  | .keyword .initiate => initiate expr line
  | .keyword .confirm => confirm expr line
  | .keyword .wait => wait expr line
  | .keyword .if_ => conditional expr block line
  | .keyword .while_ => whileLoop expr block line
  | .keyword .for_ => forLoop expr block line
  | _ => plainStatement expr line

/-- A statement and one semicolon behind it, if it is there. -/
def statement (expr : Reader Expr) (block : BlockReader) : Reporter Statement := do
  let st ← bareStatement expr block (← here).line
  let _ ← eat (.symbol .semicolon)
  return st

/-! ## Blocks -/

/-- Skip from a fault on `line` to where a statement may begin. `moved` tells whether a token
has been passed over since the statement with the fault began. -/
def resumeFrom (line : Nat) (stopAtBranch : Bool) : Bool → Located → List Located → Outcome Unit
  | moved, t, ts =>
    if t.token = .eof ∨ t.token = .keyword .end_ then .ok () ⟨t, ts⟩
    else if stopAtBranch ∧ (t.token = .keyword .elsif ∨ t.token = .keyword .else_) then
      .ok () ⟨t, ts⟩
    else if t.token = .symbol .semicolon then .ok () (Stream.advance ⟨t, ts⟩)
    else if moved ∧ line < t.line then .ok () ⟨t, ts⟩
    else
      match ts with
      | [] => .endless
      | t' :: ts' => resumeFrom line stopAtBranch true t' ts'

/-- Skip from a fault in the statement that began at `start`. -/
def resume (start : Stream) (line : Nat) (stopAtBranch : Bool) : Reader Unit := fun s =>
  resumeFrom line stopAtBranch (s.size < start.size) s.here s.ahead

/-- The token ends a run of statements. -/
def endsRun (stopAtBranch : Bool) (t : Token) : Bool :=
  t = .keyword .end_ || (stopAtBranch && (t = .keyword .elsif || t = .keyword .else_))

/-- A statement, or its report if it has a fault that the mode passes over. -/
def attempt (mode : Mode) (stopAtBranch : Bool) (st : Reporter Statement) :
    Reporter (Turn Statement) := fun s =>
  match st s with
  | (ds, .ok a s') => (ds, .ok (.item a) s')
  | (ds, .fail d s') =>
    if mode = .recovering ∧ !d.isFatal then
      (ds ++ [d], (resume s d.span.line stopAtBranch s').map fun _ => .pass)
    else (ds, .fail d s')
  | (ds, .endless) => (ds, .endless)

/-- One round of a block : its next statement, or its end. -/
def round (mode : Mode) (kind : BlockKind) (line : Nat) (stopAtBranch : Bool)
    (st : Reporter Statement) : Reporter (Turn Statement) := do
  semicolons
  let t ← peek
  if t = .eof then failAt fun s => s.unterminated kind line
  else if endsRun stopAtBranch t then return .stop
  else attempt mode stopAtBranch st

/-- The statements of a block, one level deeper than their surroundings. -/
def statements (mode : Mode) : Nat → BlockReader
  | 0, _, _, _ => Reporter.ofReader tooDeep
  | room + 1, kind, line, stopAtBranch =>
    Reporter.many (round mode kind line stopAtBranch
      (statement (expression room) (statements mode room)))

end Grammar

end OpsLang
