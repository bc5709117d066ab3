import OpsLang.Span

/-!
# Diagnostics

A `Diagnostic` says why a text was refused and where. Its constructors write the messages :
`Diagnostic.expecting` lists what would have been accepted in place of what was found, and
`Diagnostic.unterminated` names the block whose end is missing. Only a `.grammar`
diagnostic lets reading go on (`Diagnostic.isFatal`).
-/

namespace OpsLang

/-- The stage that refused the text. -/
inductive DiagnosticKind where
  /-- The text holds no token at this point. -/
  | lexical
  /-- The token cannot stand here. -/
  | grammar
  /-- The text ended inside a block. -/
  | unterminated
  deriving DecidableEq, Repr, Inhabited

/-- The stage, as messages speak of it. -/
def DiagnosticKind.text : DiagnosticKind → String
  | lexical => "lexical"
  | grammar => "syntax"
  | unterminated => "unterminated block"

/-- Why a text was refused. -/
structure Diagnostic where
  kind : DiagnosticKind
  message : String
  span : Span
  /-- Descriptions of what would have been accepted. -/
  expected : List String
  /-- A description of what stood there instead. -/
  found : Option String
  deriving DecidableEq, Repr, Inhabited

/-- Alternatives, as a message lists them. -/
def alternatives : List String → String
  | [] => "something else"
  | [one] => one
  | [one, last] => one ++ " or " ++ last
  | one :: rest => one ++ ", " ++ alternatives rest

namespace Diagnostic

/-- A text that holds no token. -/
def lexical (span : Span) (message : String) : Diagnostic :=
  ⟨.lexical, message, span, [], none⟩

/-- A character that begins no token. -/
def unexpectedChar (span : Span) (c : Char) : Diagnostic :=
  ⟨.lexical, "unexpected character '" ++ c.toString ++ "'", span, [], some c.toString⟩

/-- A token that cannot stand where it stands. -/
def grammar (span : Span) (message : String) : Diagnostic :=
  ⟨.grammar, message, span, [], none⟩

/-- A token that stands where only `expected` may stand. -/
def expecting (span : Span) (expected : List String) (found : String) : Diagnostic :=
  ⟨.grammar, "expected " ++ alternatives expected ++ ", found " ++ found, span, expected, some found⟩

/-- A block, opened on `line`, whose end is missing. -/
def unterminated (span : Span) (block : String) (line : Nat) : Diagnostic :=
  ⟨.unterminated,
    "'" ++ block ++ "' block opened on line " ++ toString line ++ " is missing 'end " ++ block
      ++ "' before end of input",
    span, ["'end " ++ block ++ "'"], some "end of input"⟩

/-- Reading cannot go on after this diagnostic. -/
def isFatal (d : Diagnostic) : Bool :=
  d.kind != .grammar

/-- The diagnostic on one line. -/
def text (d : Diagnostic) : String :=
  d.kind.text ++ " error at " ++ d.span.position ++ ": " ++ d.message

end Diagnostic

end OpsLang
