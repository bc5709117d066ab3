import OpsLang.Highlight
import OpsLang.Layout.File
import OpsLang.Proofs.Spelling.Expr
import OpsLang.Proofs.Words

/-!
# Names and what they stand for

`SourceFile.mentions` are the names and units in the text of a file, in order, each with the
`Role` that the grammar gives it. `shownNames` are the names and units of a row of tokens with
the categories that `highlight` gives them. The two rows can be compared one by one
(`Mention.ShownAs`), since no token that a spelling leaves open is a name.

The classifier asks of every name behind the word `confirm` whether an operator stands behind it,
also where the words are `initiate and confirm` and the reader does not ask. So the role of an
activity that is initiated and confirmed is shown only if no operator stands behind it
(`Shown.operatorBehind`).
-/

namespace OpsLang

/-! ## Roles -/

/-- What a name or a unit stands for. -/
inductive Role where
  | procedure
  /-- A segment of the name of a namespace. -/
  | space
  /-- The name of a type, or a segment of it. -/
  | type
  | field
  /-- The last segment of the name of a function that is called. -/
  | function
  | variableName
  /-- A later segment of a name in an expression. -/
  | property
  | unit
  /-- The last segment of the name of an activity. -/
  | activity (mode : ActivityMode)
  /-- An earlier segment of the name of an activity. -/
  | activitySpace (mode : ActivityMode)
  deriving DecidableEq, Repr

namespace Role

/-- The category that shows a role. -/
def category : Role → Category
  | procedure => .procedureName
  | space | activitySpace _ => .namespaceName
  | type => .type
  | field => .field
  | function | activity _ => .function
  | variableName => .variableName
  | property => .property
  | unit => .unit

/-- What is asked of the activity that the name belongs to. -/
def mode? : Role → Option ActivityMode
  | activity mode | activitySpace mode => some mode
  | _ => none

theorem eq_procedure_of_category {r : Role} (h : r.category = .procedureName) :
    r = procedure := by
  cases r <;> cases h
  rfl

theorem eq_unit_of_category {r : Role} (h : r.category = .unit) : r = unit := by
  cases r <;> cases h
  rfl

end Role

/-- A name or a unit in a text. -/
structure Mention where
  text : String
  role : Role
  deriving DecidableEq, Repr

/-- What a dotted name is used for. -/
inductive PathUse where
  | value
  | call
  | activity (mode : ActivityMode)
  | space
  | type

namespace PathUse

/-- The role of a segment of a dotted name, given whether it is the first and the last one. -/
def role (use : PathUse) (first last : Bool) : Role :=
  match use with
  | value => if first then .variableName else .property
  | call => if last then .function else if first then .variableName else .property
  | activity mode => if last then .activity mode else .activitySpace mode
  | space => .space
  | type => .type

/-- The segments of a dotted name, given whether the first of them begins it. -/
def segments (use : PathUse) (first : Bool) : List String → List Mention
  | [] => []
  | n :: ns => ⟨n, use.role first ns.isEmpty⟩ :: use.segments false ns

end PathUse

/-! ## The mentions of a tree -/

/-- The segments of a dotted name. -/
def Path.mentions (use : PathUse) (p : Path) : List Mention :=
  use.segments true p.segments

mutual

/-- The names and units in an expression. -/
def Expr.mentions : Expr → List Mention
  | .name n => [⟨n, .variableName⟩]
  | .number _ | .string _ | .truth _ => []
  | .measure _ u => [⟨u.spelling, .unit⟩]
  | .property p => p.mentions .value
  | .call p as => p.mentions .call ++ Argument.allMentions as
  | .binary _ l r => l.mentions ++ r.mentions
  | .unary _ e | .parens e => e.mentions

/-- The names and units in an argument. -/
def Argument.mentions : Argument → List Mention
  | .positional v => v.mentions
  | .named n v => ⟨n, .variableName⟩ :: v.mentions

/-- The names and units in arguments. -/
def Argument.allMentions : List Argument → List Mention
  | [] => []
  | a :: as => a.mentions ++ Argument.allMentions as

end

mutual

/-- The names and units in a statement. -/
def Statement.mentions : Statement → List Mention
  | .activity mode p as _ => p.mentions (.activity mode) ++ Argument.allMentions as
  | .check e _ | .wait e _ | .expr e _ => e.mentions
  | .assign n v _ => ⟨n, .variableName⟩ :: v.mentions
  | .conditional branches none _ => Branch.allMentions branches
  | .conditional branches (some body) _ => Branch.allMentions branches ++ Block.mentions body
  | .whileLoop c body _ => c.mentions ++ Block.mentions body
  | .forLoop n e body _ => ⟨n, .variableName⟩ :: (e.mentions ++ Block.mentions body)

/-- The names and units in the statements of a block. -/
def Block.mentions : List Statement → List Mention
  | [] => []
  | st :: rest => st.mentions ++ Block.mentions rest

/-- The names and units in branches. -/
def Branch.allMentions : List Branch → List Mention
  | [] => []
  | .mk c body :: rest => c.mentions ++ (Block.mentions body ++ Branch.allMentions rest)

end

mutual

/-- The names in a type. -/
def TypeExpr.mentions : TypeExpr → List Mention
  | .primitive p => [⟨p.text, .type⟩]
  | .array element _ => element.mentions
  | .struct fields => Field.allMentions fields
  | .named p => p.mentions .type

/-- The names in fields. -/
def Field.allMentions : List Field → List Mention
  | [] => []
  | .mk n t :: fields => ⟨n, .field⟩ :: (t.mentions ++ Field.allMentions fields)

end

mutual

/-- The names in a declaration. -/
def Declaration.mentions : Declaration → List Mention
  | .space p ds _ => p.mentions .space ++ Declaration.allMentions ds
  | .type n body _ => ⟨n, .type⟩ :: body.type.mentions

/-- The names in declarations. -/
def Declaration.allMentions : List Declaration → List Mention
  | [] => []
  | d :: ds => d.mentions ++ Declaration.allMentions ds

end

/-- The names and units in a section that may be missing. -/
def optionalMentions : Option Block → List Mention
  | some body => Block.mentions body
  | none => []

/-- The names and units in a procedure. -/
def Procedure.mentions (p : Procedure) : List Mention :=
  ⟨p.name, .procedure⟩ :: (optionalMentions p.preconditions ++
    (Block.mentions p.main ++ optionalMentions p.confirmation))

/-- The names and units in an item. -/
def Item.mentions : Item → List Mention
  | .procedure p => p.mentions
  | .declaration d => d.mentions

/-- The names and units in a file, in the order of its text. -/
def SourceFile.mentions (f : SourceFile) : List Mention :=
  f.items.flatMap Item.mentions

/-! ## The names of a row -/

namespace Highlight

/-- A binary operator stands behind the rest of a dotted name and its arguments. -/
def operatorBehind (after : List Token) : Bool :=
  ((afterArguments (beyondPath after)).head?.bind BinaryOp.ofToken?).isSome

end Highlight

/-- A name or a unit of a row, with its category and whether a binary operator stands behind the
dotted name it belongs to and the arguments of that. -/
structure Shown where
  text : String
  category : Category
  operatorBehind : Bool
  deriving DecidableEq, Repr

/-- The names and units of a row with their highlights. -/
def shownFrom : List Located → List Highlight → List Shown
  | t :: ts, h :: hs =>
    if Highlight.isSegment t.token then
      ⟨t.token.text, h.category, Highlight.operatorBehind (words ts)⟩ :: shownFrom ts hs
    else shownFrom ts hs
  | _, _ => []

/-- The names and units of a row as `highlight` shows them. -/
def shownNames (ts : List Located) : List Shown :=
  shownFrom ts (highlight ts)

/-- A mention is shown in its role, but perhaps for an activity that is initiated and confirmed
with an operator behind it, and nothing is shown as the name of a procedure or as a unit that is
none. -/
structure Mention.ShownAs (m : Mention) (s : Shown) : Prop where
  text : s.text = m.text
  category : (m.role.mode? = some .initiateAndConfirm → s.operatorBehind = false) →
    s.category = m.role.category
  procedure : s.category = .procedureName → m.role = .procedure
  unit : s.category = .unit → m.role = .unit

theorem Mention.ShownAs.of_eq {m : Mention} {s : Shown} (htext : s.text = m.text)
    (h : s.category = m.role.category) : m.ShownAs s where
  text := htext
  category _ := h
  procedure hp := Role.eq_procedure_of_category (h.symm.trans hp)
  unit hu := Role.eq_unit_of_category (h.symm.trans hu)

/-- The mentions are shown one by one. -/
def ShowsAll (ms : List Mention) (ss : List Shown) : Prop :=
  List.Forall₂ Mention.ShownAs ms ss

namespace ShowsAll

variable {m : Mention} {s : Shown} {ms ms' : List Mention} {ss ss' : List Shown}

theorem nil : ShowsAll [] [] :=
  List.Forall₂.nil

theorem cons (h : m.ShownAs s) (h' : ShowsAll ms ss) : ShowsAll (m :: ms) (s :: ss) :=
  List.Forall₂.cons h h'

theorem append (h : ShowsAll ms ss) (h' : ShowsAll ms' ss') :
    ShowsAll (ms ++ ms') (ss ++ ss') :=
  List.rel_append h h'

end ShowsAll

end OpsLang
