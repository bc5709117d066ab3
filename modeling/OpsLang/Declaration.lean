import OpsLang.Expr

/-!
# Declarations

The trees of namespace and type declarations. A `TypeExpr` is a type where a field or an
element has one; the right-hand side of a declaration is a `TypeBody`, which may not be a
mere name.
-/

namespace OpsLang

/-- A built-in type. -/
inductive Primitive where
  | u8
  | u16
  | u32
  | u64
  | i8
  | i16
  | i32
  | i64
  | f32
  | f64
  | bool
  | string
  deriving DecidableEq, Repr, Inhabited

namespace Primitive

/-- Every built-in type. -/
def all : List Primitive := [u8, u16, u32, u64, i8, i16, i32, i64, f32, f64, bool, string]

/-- The name of a built-in type. -/
def text : Primitive → String
  | u8 => "u8"
  | u16 => "u16"
  | u32 => "u32"
  | u64 => "u64"
  | i8 => "i8"
  | i16 => "i16"
  | i32 => "i32"
  | i64 => "i64"
  | f32 => "f32"
  | f64 => "f64"
  | bool => "bool"
  | string => "string"

/-- The built-in type of a name. -/
def ofText? (name : String) : Option Primitive :=
  all.find? fun p => p.text == name

theorem mem_all (p : Primitive) : p ∈ all := by
  cases p <;> decide

theorem ofText?_text (p : Primitive) : ofText? p.text = some p := by
  cases p <;> decide

end Primitive

mutual

/-- The type of a field or of an element. -/
inductive TypeExpr where
  | primitive (p : Primitive)
  | array (element : TypeExpr) (size : UInt64)
  | struct (fields : List Field)
  /-- A type declared elsewhere. -/
  | named (path : Path)
  deriving Repr, Inhabited

/-- A field of a struct. -/
inductive Field where
  | mk (name : String) (type : TypeExpr)
  deriving Repr

end

/-- The name of a field. -/
def Field.name : Field → String
  | .mk n _ => n

/-- The type of a field. -/
def Field.type : Field → TypeExpr
  | .mk _ t => t

/-- The right-hand side of a type declaration. -/
inductive TypeBody where
  | struct (fields : List Field)
  | primitive (p : Primitive)
  | array (element : TypeExpr) (size : UInt64)
  deriving Repr, Inhabited

/-- A namespace with its declarations, or a type. Each knows the line of its keyword. -/
inductive Declaration where
  | space (path : Path) (children : List Declaration) (line : Nat)
  | type (name : String) (body : TypeBody) (line : Nat)
  deriving Repr, Inhabited

/-- The line of the keyword of a declaration. -/
def Declaration.line : Declaration → Nat
  | .space _ _ n | .type _ _ n => n

end OpsLang
