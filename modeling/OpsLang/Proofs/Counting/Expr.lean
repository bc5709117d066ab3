import OpsLang.Proofs.Counting.Tally
import OpsLang.Proofs.Reports.Grammar

/-!
# Expressions with a counter

The productions that read constructs inside others, with a counter of the open constructs in
place of the number of levels left. What opens a construct is `Tally.nested`. A recursion of the
grammar passes through it each time round, so the limit bounds the recursion as well :
`binary limit bound` goes into fewer than `bound` constructs, and never runs into that bound if
it is larger than the number of levels up to the limit.

The counter is exact in each production (`follows_binary_unary`, `follows_expression`).
-/

namespace OpsLang

namespace Counting

open Grammar Reader

/-! ## Arguments and operands -/

/-- An argument, given the reader of its value. -/
def argument (value : Tally Expr) : Tally Argument := do
  match ← peek, ← peekNext with
  | .name n, .symbol .assign =>
    skip
    skip
    return .named n (← value)
  | _, _ => return .positional (← value)

/-- An argument, unless the parenthesis closes. -/
def argumentRound (value : Tally Expr) : Tally (Turn Argument) := do
  if (← peek) = .symbol .rightParen then return .stop
  let a ← argument value
  if ← eat (.symbol .comma) then return .item a else return .last a

/-- Arguments between parentheses. -/
def arguments (value : Tally Expr) : Tally (List Argument) := do
  symbol .leftParen
  let as ← Tally.many (argumentRound value)
  symbol .rightParen
  return as

/-- A name, a property or a call, given the reader of argument values. -/
def nameOrCall (value : Tally Expr) : Tally Expr := do
  let p ← path
  if (← peek) = .symbol .leftParen then return .call p (← arguments value)
  match p.segments with
  | [n] => return .name n
  | _ => return .property p

/-- An operand without operators outside parentheses. -/
def primary (inside : Tally Expr) : Tally Expr := do
  match ← peek with
  | .number lexeme => number lexeme
  | .string content =>
    skip
    return .string content
  | .truth value =>
    skip
    return .truth value
  | .symbol .leftParen =>
    skip
    let e ← inside
    symbol .rightParen
    return .parens e
  | .name _ => nameOrCall inside
  | .unit u => failAt (α := Expr) fun s => s.strayUnit u
  | _ => refuse (α := Expr) ["expression"]

/-- An operand with the unary operators before it. -/
def operand (behind inside : Tally Expr) : Tally Expr := do
  match UnaryOp.ofToken? (← peek) with
  | some op =>
    skip
    return .unary op (← behind)
  | none => primary inside

/-- An operator of precedence `floor` or more with its right operand. -/
def operation (floor : Nat) (right : Nat → Tally Expr) : Tally (Turn (BinaryOp × Expr)) := do
  match BinaryOp.ofToken? (← peek) with
  | some op =>
    if op.precedence < floor then return .stop
    else
      skip
      return .item (op, ← right op.rightFloor)
  | none => return .stop

/-- An operand with all operations of precedence `floor` or more behind it. -/
def climb (floor : Nat) (first : Tally Expr) (right : Nat → Tally Expr) : Tally Expr := do
  let e ← first
  return applyAll e (← Tally.many (operation floor right))

section Values

variable {limit n : Nat} {value : Reader Expr} {t t' : Tally Expr}
  (h : value.Follows limit n t t')

include h

theorem follows_argument :
    (Grammar.argument value).Follows limit n (argument t) (argument t') := by
  refine marks_peek.follows.bind fun u => marks_peekNext.follows.bind fun v => ?_
  split
  · exact marks_skip.follows.bind fun _ => marks_skip.follows.bind fun _ =>
      h.bind fun _ => follows_pure _
  -- What the copy does is found out here, unless it was together with what the grammar does.
  · try simp only
    exact h.bind fun _ => follows_pure _

theorem follows_arguments :
    (Grammar.arguments value).Follows limit n (arguments t) (arguments t') := by
  have hround : (Grammar.argumentRound value).Follows limit n (argumentRound t)
      (argumentRound t') :=
    marks_peek.follows.bind fun _ => (follows_pure _).ite <| (follows_argument h).bind fun _ =>
      (marks_eat _).follows.bind fun _ => (follows_pure _).ite (follows_pure _)
  exact (marks_symbol id _).follows.bind fun _ => hround.many.bind fun _ =>
    (marks_symbol id _).follows.bind fun _ => follows_pure _

theorem follows_nameOrCall :
    (Grammar.nameOrCall value).Follows limit n (nameOrCall t) (nameOrCall t') := by
  refine (marks_path id).follows.bind fun p => marks_peek.follows.bind fun u => Follows.ite ?_ ?_
  · exact (follows_arguments h).bind fun _ => follows_pure _
  · rcases p.segments with _ | ⟨m, _ | ⟨m', ms⟩⟩
    · exact follows_pure _
    · exact follows_pure _
    · exact follows_pure _

theorem follows_primary :
    (Grammar.primary value).Follows limit n (primary t) (primary t') := by
  refine marks_peek.follows.bind fun u => ?_
  split
  · exact (marks_number _).follows
  · exact marks_skip.follows.bind fun _ => follows_pure _
  · exact marks_skip.follows.bind fun _ => follows_pure _
  · exact marks_skip.follows.bind fun _ => h.bind fun _ =>
      (marks_symbol id _).follows.bind fun _ => follows_pure _
  · exact follows_nameOrCall h
  · exact (marks_failAt fun _ => Stream.explains_strayUnit).follows
  · try simp only
    exact (marks_refuse id _ _).follows

theorem follows_operand {behind : Reader Expr} {u u' : Tally Expr}
    (hb : behind.Follows limit n u u') :
    (Grammar.operand behind value).Follows limit n (operand u t) (operand u' t') := by
  refine marks_peek.follows.bind fun v => ?_
  cases UnaryOp.ofToken? v with
  | some op => exact marks_skip.follows.bind fun _ => hb.bind fun _ => follows_pure _
  | none => exact follows_primary h

theorem follows_climb (floor : Nat) {right : Nat → Reader Expr} {u u' : Nat → Tally Expr}
    (hr : ∀ floor, (right floor).Follows limit n (u floor) (u' floor)) :
    (Grammar.climb floor value right).Follows limit n (climb floor t u) (climb floor t' u') := by
  have hround : (Grammar.operation floor right).Follows limit n (operation floor u)
      (operation floor u') := by
    refine marks_peek.follows.bind fun v => ?_
    cases BinaryOp.ofToken? v with
    | some op =>
      exact (follows_pure _).ite <| marks_skip.follows.bind fun _ => (hr _).bind fun _ =>
        follows_pure _
    | none => exact follows_pure _
  exact h.bind fun _ => hround.many.bind fun _ => follows_pure _

end Values

/-! ## Expressions -/

mutual

/-- An expression whose operators outside parentheses have precedence `floor` or more. -/
def binary (limit : Nat) : Nat → Nat → Tally Expr
  | 0, _ => Tally.ofReader fun _ => .endless
  | bound + 1, floor =>
    climb floor
      (operand ((unary limit bound).nested limit .prefixOperand)
        ((binary limit bound 1).nested limit .expression))
      fun floor => (binary limit bound floor).nested limit .rightOperand

/-- An operand with the unary operators before it. -/
def unary (limit : Nat) : Nat → Tally Expr
  | 0 => Tally.ofReader fun _ => .endless
  | bound + 1 =>
    operand ((unary limit bound).nested limit .prefixOperand)
      ((binary limit bound 1).nested limit .expression)

end

/-- The expression of a statement, in parentheses or of an argument. -/
def expression (limit : Nat) : Tally Expr :=
  (binary limit (limit + 1) 1).nested limit .expression

section Nesting

variable {limit limit' : Nat} (hlt : limit < limit')

include hlt

/-- The levels that are left are those up to the limit. -/
theorem follows_binary_unary {bound : Nat} : ∀ {n room bound' : Nat}, n + room = limit →
    room < bound → room < bound' →
      (∀ floor, (binaryAt (room + 1) floor).Follows limit n (binary limit bound floor)
        (binary limit' bound' floor)) ∧
      (unaryAt (room + 1)).Follows limit n (unary limit bound) (unary limit' bound') := by
  induction bound with
  | zero => exact fun _ hb => absurd hb (Nat.not_lt_zero _)
  | succ bound ih =>
    rintro n room (_ | bound') hn hb hb'
    · exact absurd hb' (Nat.not_lt_zero _)
    -- Whatever is inside is read with one level less.
    have hinner (left) (hleft : room = left + 1) :
        (∀ floor, (binaryAt (left + 1) floor).Follows limit (n + 1) (binary limit bound floor)
          (binary limit' bound' floor)) ∧
        (unaryAt (left + 1)).Follows limit (n + 1) (unary limit bound) (unary limit' bound') :=
      ih (by omega) (by omega) (by omega)
    have hoperand : (Grammar.operand (unaryAt room) (binaryAt room 1)).Follows limit n
        (unary limit (bound + 1)) (unary limit' (bound' + 1)) :=
      follows_operand
        (follows_construct (r := (binaryAt · 1)) hlt _ hn rfl fun left hleft =>
          (hinner left hleft).1 1)
        (follows_construct hlt _ hn rfl fun left hleft => (hinner left hleft).2)
    exact ⟨fun floor => follows_climb hoperand floor fun floor =>
      follows_construct (r := (binaryAt · floor)) hlt _ hn rfl fun left hleft =>
        (hinner left hleft).1 floor, hoperand⟩

theorem follows_expression {n room : Nat} (hn : n + room = limit) :
    (Grammar.expression room).Follows limit n (expression limit) (expression limit') :=
  follows_construct hlt _ hn rfl fun left hleft =>
    (follows_binary_unary hlt (by omega) (by omega) (by omega)).1 1

end Nesting

end Counting

end OpsLang
