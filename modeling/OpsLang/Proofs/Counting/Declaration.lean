import OpsLang.Proofs.Counting.Statement

/-!
# Declarations with a counter

A namespace opens a level for each declaration inside it, and a struct or an array one for each
type inside it. The counter is exact in both (`follows_type`, `follows_declaration`).
-/

namespace OpsLang

namespace Counting

open Grammar Reader

/-! ## Types -/

/-- An array type, given the reader of its element type. -/
def arrayType (inner : Tally TypeExpr) : Tally TypeExpr := do
  symbol .leftBracket
  let element ← inner
  symbol .semicolon
  let size ← arraySize
  symbol .rightBracket
  return .array element size

/-- A field, given the reader of its type. -/
def field (inner : Tally TypeExpr) : Tally Field := do
  let n ← member "field name"
  symbol .colon
  return .mk n (← inner)

/-- A field, unless the brace closes. -/
def fieldRound (inner : Tally TypeExpr) : Tally (Turn Field) := do
  if (← peek) = .symbol .rightBrace then return .stop
  let f ← field inner
  if ← eat (.symbol .comma) then return .item f else return .last f

/-- A struct type, given the reader of field types. -/
def structType (inner : Tally TypeExpr) : Tally TypeExpr := do
  keyword .struct
  symbol .leftBrace
  let fields ← Tally.many (fieldRound inner)
  symbol .rightBrace
  return .struct fields

/-- A type, given the reader of the types inside it. -/
def typeOf (inner : Tally TypeExpr) : Tally TypeExpr := do
  match ← peek with
  | .keyword .struct => structType inner
  | .symbol .leftBracket => arrayType inner
  | .name _ => namedType
  | _ => refuse (α := TypeExpr) ["type"]

/-- A type. -/
def type (limit : Nat) : Nat → Tally TypeExpr
  | 0 => Tally.ofReader fun _ => .endless
  | bound + 1 => typeOf ((type limit bound).nested limit .type)

section Types

variable {limit n : Nat} {inner : Reader TypeExpr} {t t' : Tally TypeExpr}
  (h : inner.Follows limit n t t')

include h

theorem follows_arrayType :
    (Grammar.arrayType inner).Follows limit n (arrayType t) (arrayType t') :=
  (marks_symbol id _).follows.bind fun _ => h.bind fun _ => (marks_symbol id _).follows.bind
    fun _ => (marks_arraySize id).follows.bind fun _ => (marks_symbol id _).follows.bind fun _ =>
      follows_pure _

theorem follows_structType :
    (Grammar.structType inner).Follows limit n (structType t) (structType t') := by
  have hfield : (Grammar.field inner).Follows limit n (field t) (field t') :=
    (marks_member id _).follows.bind fun _ => (marks_symbol id _).follows.bind fun _ =>
      h.bind fun _ => follows_pure _
  have hround : (Grammar.fieldRound inner).Follows limit n (fieldRound t) (fieldRound t') :=
    marks_peek.follows.bind fun _ => (follows_pure _).ite <| hfield.bind fun _ =>
      (marks_eat _).follows.bind fun _ => (follows_pure _).ite (follows_pure _)
  exact (marks_keyword id _).follows.bind fun _ => (marks_symbol id _).follows.bind fun _ =>
    hround.many.bind fun _ => (marks_symbol id _).follows.bind fun _ => follows_pure _

theorem follows_typeOf : (Grammar.typeOf inner).Follows limit n (typeOf t) (typeOf t') := by
  refine marks_peek.follows.bind fun u => ?_
  split
  · exact follows_structType h
  · exact follows_arrayType h
  · exact (marks_namedType id).follows
  · try simp only
    exact (marks_refuse id _ _).follows

end Types

/-! ## Declarations -/

/-- The declaration of a type, given the reader of the types inside it. -/
def typeDeclaration (inner : Tally TypeExpr) : Tally Declaration := do
  let line := (← here).line
  skip
  let n ← name "type name"
  match ← typeOf inner with
  | .struct fields => return .type n (.struct fields) line
  | .primitive p => return .type n (.primitive p) line
  | .array element size => return .type n (.array element size) line
  | .named p => failAt (α := Declaration) fun s => s.bareAlias n p

/-- A declaration inside a namespace, unless the brace closes. -/
def childRound (inner : Tally Declaration) : Tally (Turn Declaration) := do
  semicolons
  match ← peek with
  | .symbol .rightBrace =>
    skip
    return .stop
  | .keyword .namespace_ | .keyword .type => return .item (← inner)
  | _ => refuse (α := Turn Declaration) ["'namespace'", "'type'", "'\x7d'"]

/-- A namespace, given the reader of the declarations inside it. -/
def namespaceDeclaration (inner : Tally Declaration) : Tally Declaration := do
  let line := (← here).line
  skip
  let p ← path
  symbol .leftBrace
  let children ← Tally.many (childRound inner)
  return .space p children line

/-- A declaration, given the readers of the types and the declarations inside it. -/
def declarationOf (types : Tally TypeExpr) (inner : Tally Declaration) : Tally Declaration := do
  match ← peek with
  | .keyword .namespace_ => namespaceDeclaration inner
  | .keyword .type => typeDeclaration types
  | _ => refuse (α := Declaration) ["'namespace'", "'type'"]

/-- A declaration. -/
def declaration (limit : Nat) : Nat → Tally Declaration
  | 0 => Tally.ofReader fun _ => .endless
  | bound + 1 =>
    declarationOf ((type limit (limit + 1)).nested limit .type)
      ((declaration limit bound).nested limit .declaration)

theorem follows_typeDeclaration {limit n : Nat} {inner : Reader TypeExpr} {t t' : Tally TypeExpr}
    (h : inner.Follows limit n t t') :
    (Grammar.typeDeclaration inner).Follows limit n (typeDeclaration t) (typeDeclaration t') := by
  refine marks_here.follows.bind fun _ => marks_skip.follows.bind fun _ =>
    (marks_name id _).follows.bind fun _ => (follows_typeOf h).bind fun t => ?_
  cases t with
  | named p => exact (marks_failAt fun _ => Stream.explains_bareAlias).follows
  | _ => exact follows_pure _

theorem follows_namespaceDeclaration {limit n : Nat} {inner : Reader Declaration}
    {t t' : Tally Declaration} (h : inner.Follows limit n t t') :
    (Grammar.namespaceDeclaration inner).Follows limit n (namespaceDeclaration t)
      (namespaceDeclaration t') := by
  have hround : (Grammar.childRound inner).Follows limit n (childRound t) (childRound t') := by
    refine marks_semicolons.follows.bind fun _ => marks_peek.follows.bind fun u => ?_
    split
    · exact marks_skip.follows.bind fun _ => follows_pure _
    · exact h.bind fun _ => follows_pure _
    · exact h.bind fun _ => follows_pure _
    · try simp only
      exact (marks_refuse id _ _).follows
  exact marks_here.follows.bind fun _ => marks_skip.follows.bind fun _ =>
    (marks_path id).follows.bind fun _ => (marks_symbol id _).follows.bind fun _ =>
      hround.many.bind fun _ => follows_pure _

theorem follows_declarationOf {limit n : Nat} {types : Reader TypeExpr} {t t' : Tally TypeExpr}
    {inner : Reader Declaration} {u u' : Tally Declaration} (ht : types.Follows limit n t t')
    (hi : inner.Follows limit n u u') :
    (Grammar.declarationOf types inner).Follows limit n (declarationOf t u)
      (declarationOf t' u') := by
  refine marks_peek.follows.bind fun v => ?_
  split
  · exact follows_namespaceDeclaration hi
  · exact follows_typeDeclaration ht
  · try simp only
    exact (marks_refuse id _ _).follows

section Nesting

variable {limit limit' : Nat} (hlt : limit < limit')

include hlt

theorem follows_type {bound : Nat} : ∀ {n room bound' : Nat}, n + room = limit →
    room < bound → room < bound' →
      (typeAt (room + 1)).Follows limit n (type limit bound) (type limit' bound') := by
  induction bound with
  | zero => exact fun _ hb => absurd hb (Nat.not_lt_zero _)
  | succ bound ih =>
    rintro n room (_ | bound') hn hb hb'
    · exact absurd hb' (Nat.not_lt_zero _)
    · exact follows_typeOf (follows_construct hlt _ hn rfl fun left hleft =>
        ih (by omega) (by omega) (by omega))

/-- A type inside another construct. -/
theorem follows_typeAt {n room : Nat} (hn : n + room = limit) :
    (typeAt room).Follows limit n ((type limit (limit + 1)).nested limit .type)
      ((type limit' (limit' + 1)).nested limit' .type) :=
  follows_construct hlt _ hn rfl fun left hleft =>
    follows_type hlt (by omega) (by omega) (by omega)

theorem follows_declaration {bound : Nat} : ∀ {n room bound' : Nat}, n + room = limit →
    room < bound → room < bound' →
      (Grammar.declaration room).Follows limit n (declaration limit bound)
        (declaration limit' bound') := by
  induction bound with
  | zero => exact fun _ hb => absurd hb (Nat.not_lt_zero _)
  | succ bound ih =>
    rintro n room (_ | bound') hn hb hb'
    · exact absurd hb' (Nat.not_lt_zero _)
    · exact follows_declarationOf (follows_typeAt hlt hn)
        (follows_construct hlt _ hn rfl fun left hleft =>
          ih (by omega) (by omega) (by omega))

/-- A declaration inside a namespace. -/
theorem follows_declarationAt {n room : Nat} (hn : n + room = limit) :
    (declarationAt room).Follows limit n
      ((declaration limit (limit + 1)).nested limit .declaration)
      ((declaration limit' (limit' + 1)).nested limit' .declaration) :=
  follows_construct hlt _ hn rfl fun left hleft => by
    have hinner : (Grammar.declaration left).Follows limit (n + 1)
        (declaration limit (limit + 1)) (declaration limit' (limit' + 1)) :=
      follows_declaration hlt (by omega) (by omega) (by omega)
    exact hinner

end Nesting

end Counting

end OpsLang
