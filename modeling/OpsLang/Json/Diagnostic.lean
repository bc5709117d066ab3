import OpsLang.Diagnostic
import OpsLang.Json

/-!
# The JSON forms of diagnostics

`Diagnostic.report` is the form for consumers : it is flat and has every member.
`Diagnostic.stored` is the form for storage : it keeps the span apart and leaves out what is
empty, and `Diagnostic.ofStored?` reads it back. In the stored form an object may list its
members in any order among unknown ones, and an array may stand for an object and list its
members' values in their order.
-/

namespace OpsLang

/-- The name of a kind in JSON. -/
def DiagnosticKind.tag : DiagnosticKind → String
  | lexical => "Lexical"
  | grammar => "Syntax"
  | unterminated => "UnterminatedBlock"

/-- The kind of a name in JSON. -/
def DiagnosticKind.ofTag? : String → Option DiagnosticKind
  | "Lexical" => some lexical
  | "Syntax" => some grammar
  | "UnterminatedBlock" => some unterminated
  | _ => none

/-- The form for consumers, with its members in the order of their names. -/
def Diagnostic.report (d : Diagnostic) : Json :=
  .object [("column", .nat d.span.column), ("end", .nat d.span.stop),
    ("expected", .strings d.expected), ("found", .stringOrNull d.found),
    ("kind", .string d.kind.tag), ("line", .nat d.span.line), ("message", .string d.message),
    ("offset", .nat d.span.start)]

/-! ## The stored form -/

/-- The stored form of a span. -/
def Span.stored (s : Span) : Json :=
  .object [("start", .nat s.start), ("end", .nat s.stop), ("line", .nat s.line),
    ("column", .nat s.column)]

/-- The member of the expected descriptions, if there are any. -/
def expectedMember (expected : List String) : List (String × Json) :=
  if expected.isEmpty then [] else [("expected", .strings expected)]

/-- The member of what was found, if it is known. -/
def foundMember : Option String → List (String × Json)
  | some f => [("found", .string f)]
  | none => []

/-- The form for storage. -/
def Diagnostic.stored (d : Diagnostic) : Json :=
  .object ([("kind", .string d.kind.tag), ("message", .string d.message), ("span", d.span.stored)]
    ++ expectedMember d.expected ++ foundMember d.found)

/-! ## Reading the stored form -/

namespace Json

/-- The string that a value is. -/
def asString? : Json → Option String
  | string s => some s
  | _ => none

/-- The natural number below `size` that a value is. -/
def asWord? (size : Nat) : Json → Option Nat
  | integer n => if 0 ≤ n ∧ n.toNat < size then some n.toNat else none
  | _ => none

/-- The strings that a value lists. -/
def asStrings? : Json → Option (List String)
  | array items => items.mapM asString?
  | _ => none

/-- The values of the named members, each with none for a missing one. An array lists them
in order and may be shorter, but not longer. -/
def slots? (names : List String) : Json → Option (List (Option Json))
  | array items =>
    if items.length ≤ names.length then
      some (items.map some ++ List.replicate (names.length - items.length) none)
    else none
  | object members =>
    if names.all fun n => (members.filter fun m => m.1 == n).length ≤ 1 then
      some (names.map fun n => (members.find? fun m => m.1 == n).map Prod.snd)
    else none
  | _ => none

end Json

/-- The kind that a value names : its name, or an object that has it as its only key, with
the value null. -/
def DiagnosticKind.ofJson? : Json → Option DiagnosticKind
  | .string s => ofTag? s
  | .object [(s, .null)] => ofTag? s
  | _ => none

/-- The span that a value stores. -/
def Span.ofStored? (j : Json) : Option Span :=
  match j.slots? ["start", "end", "line", "column"] with
  | some [some start, some stop, some line, some column] => do
    return ⟨← start.asWord? UInt64.size, ← stop.asWord? UInt64.size,
      ← line.asWord? UInt32.size, ← column.asWord? UInt32.size⟩
  | _ => none

/-- The expected descriptions of a stored diagnostic, none if the member is missing. -/
def expectedOf? : Option Json → Option (List String)
  | none => some []
  | some j => j.asStrings?

/-- What a stored diagnostic found, which may be missing or null. -/
def foundOf? : Option Json → Option (Option String)
  | none | some .null => some none
  | some j => j.asString?.map some

/-- The diagnostic that a value stores. -/
def Diagnostic.ofStored? (j : Json) : Option Diagnostic :=
  match j.slots? ["kind", "message", "span", "expected", "found"] with
  | some [some kind, some message, some span, expected, found] => do
    return ⟨← DiagnosticKind.ofJson? kind, ← message.asString?, ← Span.ofStored? span,
      ← expectedOf? expected, ← foundOf? found⟩
  | _ => none

end OpsLang
