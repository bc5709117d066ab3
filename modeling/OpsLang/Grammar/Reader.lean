import OpsLang.Grammar.Stream

/-!
# Readers

A `Reader` takes a construct off the front of a token stream. It yields a value, or a
diagnostic, each with the place it came to, or it would never end (`Outcome.endless`). A
`Reporter` is a reader that may pass over faults : it also yields the diagnostics it
passed over, in order.

Every repetition in the grammar is a `Reader.many` or a `Reporter.many`. A round that comes
back to the place it began at would repeat for ever, so it has the outcome `.endless`;
this cannot happen on a stream that ends in `.eof`.
-/

namespace OpsLang

/-- What comes of reading. -/
inductive Outcome (α : Type) where
  | ok (value : α) (rest : Stream)
  | fail (d : Diagnostic) (rest : Stream)
  | endless
  deriving Repr

/-- Go on from a value. -/
def Outcome.andThen {α β : Type} (o : Outcome α) (f : α → Stream → Outcome β) : Outcome β :=
  match o with
  | ok a s => f a s
  | fail d s => fail d s
  | endless => endless

/-- The outcome with another value. -/
def Outcome.map {α β : Type} (f : α → β) (o : Outcome α) : Outcome β :=
  o.andThen fun a s => ok (f a) s

/-- One round of a repetition. -/
inductive Turn (α : Type) where
  /-- The repetition is over. -/
  | stop
  /-- Nothing to keep, and go on. -/
  | pass
  /-- Keep an item and go on. -/
  | item (a : α)
  /-- Keep an item, and the repetition is over. -/
  | last (a : α)
  deriving Repr

/-! ## Readers of constructs -/

/-- A reader of a construct. -/
def Reader (α : Type) : Type :=
  Stream → Outcome α

namespace Reader

variable {α β : Type}

instance : Monad Reader where
  pure a := fun s => .ok a s
  bind r f := fun s => (r s).andThen fun a s => f a s

/-- The current token with its place. -/
def here : Reader Located :=
  fun s => .ok s.here s

/-- The current token. -/
def peek : Reader Token :=
  fun s => .ok s.token s

/-- The token after the current one. -/
def peekNext : Reader Token :=
  fun s => .ok s.next s

/-- Pass over the current token. -/
def skip : Reader Unit :=
  fun s => .ok () s.advance

/-- Fail with a diagnostic about the current place. -/
def failAt (d : Stream → Diagnostic) : Reader α :=
  fun s => .fail (d s) s

/-- Fail because the current token is none of `expected`. -/
def refuse (expected : List String) : Reader α :=
  failAt fun s => s.expecting expected

/-- Pass over a keyword. -/
def keyword (k : Keyword) : Reader Unit := do
  if (← peek) = .keyword k then skip else refuse ["'" ++ k.text ++ "'"]

/-- Pass over a symbol. -/
def symbol (s : Symbol) : Reader Unit := do
  if (← peek) = .symbol s then skip else refuse ["'" ++ s.text ++ "'"]

/-- Pass over a token if it is the current one, and tell whether it was. -/
def eat (t : Token) : Reader Bool := do
  if (← peek) = t then
    skip
    return true
  else return false

/-- Take a name; `what` says which name. -/
def name (what : String) : Reader String := do
  match ← peek with
  | .name n =>
    skip
    return n
  | _ => refuse [what]

/-- Take a name behind a dot or of a field, where the spelling of a unit that is a word
serves as well. -/
def member (what : String) : Reader String := do
  match ← peek with
  | .name n =>
    skip
    return n
  | .unit u =>
    if u.toList.all isWordChar then
      skip
      return u
    else refuse [what]
  | _ => refuse [what]

/-- Repeat a round and collect what it keeps. -/
def many (round : Reader (Turn α)) (s : Stream) : Outcome (List α) :=
  match round s with
  | .ok .stop s' => .ok [] s'
  | .ok .pass s' => if s'.size < s.size then many round s' else .endless
  | .ok (.item a) s' => if s'.size < s.size then (many round s').map (a :: ·) else .endless
  | .ok (.last a) s' => .ok [a] s'
  | .fail d s' => .fail d s'
  | .endless => .endless
termination_by s.size

/-- Pass over semicolons. -/
def semicolons : Reader Unit := do
  let _ ← many do
    if ← eat (.symbol .semicolon) then return Turn.pass else return (Turn.stop : Turn Unit)
  return ()

end Reader

/-! ## Nesting -/

/-- The number of constructs that may be open inside one another. -/
def maxNesting : Nat := 128

/-- The current token would open a construct too many. -/
def Stream.tooDeep (s : Stream) : Diagnostic :=
  { Diagnostic.grammar s.here.span
      ("nesting is deeper than " ++ toString maxNesting ++ " levels") with
    found := some s.token.describe }

/-- Fail because a construct would be open inside too many others. -/
def Reader.tooDeep {α : Type} : Reader α :=
  failAt Stream.tooDeep

/-! ## Readers that report -/

/-- A reader that may pass over faults and reports them. -/
def Reporter (α : Type) : Type :=
  Stream → List Diagnostic × Outcome α

namespace Reporter

variable {α β : Type}

/-- Put reports before those of a reading. -/
def prepend (ds : List Diagnostic) (r : List Diagnostic × Outcome α) :
    List Diagnostic × Outcome α :=
  (ds ++ r.1, r.2)

instance : Monad Reporter where
  pure a := fun s => ([], .ok a s)
  bind r f := fun s =>
    match r s with
    | (ds, .ok a s') => prepend ds (f a s')
    | (ds, .fail d s') => (ds, .fail d s')
    | (ds, .endless) => (ds, .endless)

/-- A reader that has nothing to report. -/
def ofReader (r : Reader α) : Reporter α :=
  fun s => ([], r s)

instance : MonadLift Reader Reporter := ⟨ofReader⟩

/-- Repeat a round and collect what it keeps. -/
def many (round : Reporter (Turn α)) (s : Stream) : List Diagnostic × Outcome (List α) :=
  match round s with
  | (ds, .ok .stop s') => (ds, .ok [] s')
  | (ds, .ok .pass s') =>
    if s'.size < s.size then prepend ds (many round s') else (ds, .endless)
  | (ds, .ok (.item a) s') =>
    if s'.size < s.size then
      let (ds', o) := many round s'
      (ds ++ ds', o.map (a :: ·))
    else (ds, .endless)
  | (ds, .ok (.last a) s') => (ds, .ok [a] s')
  | (ds, .fail d s') => (ds, .fail d s')
  | (ds, .endless) => (ds, .endless)
termination_by s.size

end Reporter

end OpsLang
