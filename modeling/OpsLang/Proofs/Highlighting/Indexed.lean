import OpsLang.Highlight

/-!
# The highlighter by indices

`highlight` sees a token between the tokens before it and those behind it. A row that is held in
one piece is read by the index of a token instead : to go back is to take from the index, to go
forward is to add to it, and the parentheses of an argument list are counted.

Here the same categories are found in this way. Nothing keeps such a walk inside the row but the
conditions it asks on the way, so each reading at an index (`tokenAt`) and each subtraction
(`minus`) is checked, and a walk that goes wrong ends in what was `OutOfRange`. A token that may
be missing is asked for with `previous?` and `next?`, as there is none before the first and none
behind the last.
-/

namespace OpsLang.Highlight

/-- What a walk by indices may not do. -/
inductive OutOfRange where
  /-- Reading a row where it has no token. -/
  | outside (index length : Nat)
  /-- Taking more from a number than it is. -/
  | below (a b : Nat)
  deriving DecidableEq, Repr

/-- A result, or what was out of range on the way to it. -/
abbrev Checked := Except OutOfRange

namespace Indexed

@[simp]
theorem ok_bind {α β : Type} (a : α) (f : α → Checked β) : (Except.ok a >>= f) = f a := rfl

@[simp]
theorem pure_eq_ok {α : Type} (a : α) : (pure a : Checked α) = .ok a := rfl

theorem mapM_eq_ok {α β : Type} {f : α → Checked β} {g : α → β} :
    ∀ {as : List α}, (∀ a ∈ as, f a = .ok (g a)) → as.mapM f = .ok (as.map g)
  | [], _ => rfl
  | a :: as, h => by
    obtain ⟨ha, has⟩ := List.forall_mem_cons.1 h
    rw [List.mapM_cons, ha, ok_bind, mapM_eq_ok has]
    rfl

/-! ## Reading and counting -/

/-- The token at an index. -/
def tokenAt (ts : List Token) (i : Nat) : Checked Token :=
  if h : i < ts.length then .ok ts[i] else .error (.outside i ts.length)

@[simp]
theorem tokenAt_of_lt {ts : List Token} {i : Nat} (h : i < ts.length) : tokenAt ts i = .ok ts[i] :=
  dif_pos h

/-- What is left of `a` when `b` is taken from it. -/
def minus (a b : Nat) : Checked { c : Nat // c + b = a } :=
  if h : b ≤ a then .ok ⟨a - b, Nat.sub_add_cancel h⟩ else .error (.below a b)

@[simp]
theorem minus_add (c b : Nat) : minus (c + b) b = .ok ⟨c, rfl⟩ := by
  simp [minus]

/-- The token before an index, if there is one. -/
def previous? (ts : List Token) : Nat → Option Token
  | 0 => none
  | i + 1 => ts[i]?

/-- The token behind an index, if there is one. -/
def next? (ts : List Token) (i : Nat) : Option Token :=
  ts[i + 1]?

/-! ## Dotted names and arguments -/

/-- A segment and a dot stand before an index. The segment is read only if the dot is there. -/
def segmentBefore (ts : List Token) (i : Nat) : Checked Bool := do
  let t ← tokenAt ts (← minus i 1)
  if t = .symbol .dot then return isSegment (← tokenAt ts (← minus i 2))
  else return false

/-- A dot and a segment stand behind an index. -/
def segmentBehind (ts : List Token) (i : Nat) : Checked Bool := do
  let t ← tokenAt ts (i + 1)
  if t = .symbol .dot then return isSegment (← tokenAt ts (i + 2))
  else return false

/-- The index of the first segment of the dotted name that a token belongs to. -/
def pathStart (ts : List Token) (i : Nat) : Checked Nat := do
  if 2 ≤ i then
    if ← segmentBefore ts i then
      let earlier ← minus i 2
      pathStart ts earlier
    else return i
  else return i
termination_by i
decreasing_by
  have := earlier.2
  omega

/-- The index of the last segment of the dotted name that a token belongs to. -/
def pathLast (ts : List Token) (i : Nat) : Checked Nat := do
  if i + 2 < ts.length then
    if ← segmentBehind ts i then pathLast ts (i + 2)
    else return i
  else return i
termination_by ts.length - i

/-- The indices of the first and of the last segment of a dotted name. -/
def pathBounds (ts : List Token) (i : Nat) : Checked (Nat × Nat) := do
  return (← pathStart ts i, ← pathLast ts i)

/-- The index behind the parenthesis that closes the outermost of `depth` open ones, among the
tokens from index `j` on. The end of the text closes them all and is kept. -/
def closing (depth j : Nat) : List Token → Checked Nat
  | [] => return j
  | .eof :: _ => return j
  | .symbol .leftParen :: after => closing (depth + 1) (j + 1) after
  | .symbol .rightParen :: after => do
    let inner ← minus depth 1
    if inner.val = 0 then return j + 1 else closing inner (j + 1) after
  | _ :: after => closing depth (j + 1) after

/-- The index behind the argument list that begins at an index, or that index if none does. -/
def skipArguments (ts : List Token) (i : Nat) : Checked Nat :=
  if ts[i]? = some (.symbol .leftParen) then closing 0 i (ts.drop i) else return i

/-! ## Categories -/

/-- A dotted name that begins at an index is the name of a declaration. -/
def declared? (ts : List Token) (start : Nat) : Checked (Option Category) :=
  match previous? ts start with
  | some (.keyword .namespace_) => return some .namespaceName
  | some (.keyword .type) => return some .type
  | some (.keyword .procedure) => do
    let before ← minus start 1
    if previous? ts before == some (.keyword .end_) then return none
    else return some .procedureName
  | _ => return none

/-- The second token before an index is the word `type`. -/
def typeBefore (ts : List Token) (start : Nat) : Checked Bool := do
  if 2 ≤ start then return (← tokenAt ts (← minus start 2)) == .keyword .type
  else return false

/-- A dotted name that begins at an index is a type. -/
def inTypePosition (ts : List Token) (start : Nat) : Checked Bool :=
  match previous? ts start with
  | some (.symbol .colon) | some (.symbol .leftBracket) => return true
  | _ => typeBefore ts start

/-- A dotted name from one index to another is an activity : behind `confirm` only if no binary
operator goes on from it and its arguments. -/
def isActivity (ts : List Token) (start last : Nat) : Checked Bool := do
  match previous? ts start with
  | some (.keyword .initiate) => return true
  | some (.keyword .confirm) =>
    let after ← skipArguments ts (last + 1)
    return (ts[after]?.bind BinaryOp.ofToken?).isNone
  | _ => return false

/-- The category of a segment of a dotted name at an index. -/
def nameCategory (ts : List Token) (i : Nat) : Checked Category := do
  let (start, last) ← pathBounds ts i
  match ← declared? ts start with
  | some c => return c
  | none =>
    if next? ts i == some (.symbol .colon) then return .field
    else if ← inTypePosition ts start then return .type
    else
      let activity ← isActivity ts start last
      if i = last && (activity || next? ts last == some (.symbol .leftParen)) then return .function
      else if activity then return .namespaceName
      else if i = start then return .variableName
      else return .property

/-- The category of the token at an index. -/
def tokenCategory (ts : List Token) (i : Nat) : Checked Category := do
  match ← tokenAt ts i with
  | .keyword .and =>
    if previous? ts i == some (.keyword .initiate) && next? ts i == some (.keyword .confirm) then
      return .keyword .activity
    else return .keyword .operator
  | .keyword k => return .keyword k.role
  | .name _ => nameCategory ts i
  | .unit _ =>
    if previous? ts i == some (.symbol .dot) || next? ts i == some (.symbol .colon) then
      nameCategory ts i
    else return .unit
  | .number _ => return .number
  | .string _ => return .string
  | .truth _ => return .truth
  | .symbol s => return if s.isPunctuation then .punctuation else .operator
  | .eof => return .operator

/-- The highlights of a row of tokens, one for each but the end of the text. -/
def highlight (tokens : List Located) : Checked (List Highlight) :=
  (tokens.zipIdx.filter fun r => r.1.token != .eof).mapM fun r => do
    return ⟨r.1.span, ← tokenCategory (tokens.map Located.token) r.2⟩

end Indexed

end OpsLang.Highlight
