import OpsLang.Grammar.Procedure
import OpsLang.Token.Lexer

/-!
# Reading files

`parseFile` reads the items of a file up to the first fault. `recoverFile` goes on after
faults : inside a block at the next statement, between items at the next keyword that can
begin one. It gives up at the end of the text, after a fatal fault, and once as many
diagnostics are there as it was asked for.

Other entry points read one construct that has to fill the whole row of tokens. Each has a
second form that takes a text.
-/

namespace OpsLang

/-- The verdict on a row of tokens. A reading is `endless` only on a row without `.eof`. -/
inductive Verdict (α : Type) where
  | accepted (value : α)
  | refused (d : Diagnostic)
  | endless
  deriving Repr, DecidableEq

/-- The verdict that an outcome amounts to. -/
def Outcome.verdict {α : Type} : Outcome α → Verdict α
  | ok a _ => .accepted a
  | fail d _ => .refused d
  | endless => .endless

namespace Grammar

open Reader

/-- The current token has to be the end of the text. -/
def endOfInput : Reader Unit := do
  if (← peek) = .eof then return () else refuse ["end of input"]

/-! ## Strict reading -/

/-- One round of a file : its next item, or its end. -/
def fileRound : Reporter (Turn Item) := do
  semicolons
  if (← peek) = .eof then return .stop else return .item (← item .strict)

/-- The items of a file up to its end. -/
def file : Reporter SourceFile := do
  return ⟨← Reporter.many fileRound⟩

/-! ## Recovering reading -/

/-- The token can begin an item. -/
def beginsItem (t : Token) : Bool :=
  t = .keyword .procedure || t = .keyword .namespace_ || t = .keyword .type

/-- The number of open braces after a token, when `depth` were open before it. -/
def braceDepth (depth : Nat) (t : Token) : Nat :=
  if t = .symbol .leftBrace then depth + 1
  else if t = .symbol .rightBrace then depth - 1
  else depth

/-- Skip to a keyword that begins an item, outside the braces opened on the way. The keyword
may not stand where the skipping starts, nor behind `end`. -/
def nextItemFrom : Nat → Bool → Located → List Located → Outcome Unit
  | depth, mayStop, t, ts =>
    if t.token = .eof then .ok () ⟨t, ts⟩
    else if depth = 0 ∧ mayStop ∧ beginsItem t.token then .ok () ⟨t, ts⟩
    else
      match ts with
      | [] => .endless
      | t' :: ts' => nextItemFrom (braceDepth depth t.token) (t.token ≠ .keyword .end_) t' ts'

/-- Skip from a fault to where an item may begin. -/
def nextItem : Reader Unit := fun s =>
  nextItemFrom 0 false s.here s.ahead

/-- What a recovering reading of a file found : the items it could read, and all
diagnostics. -/
structure Findings where
  items : List Item
  reports : List Diagnostic
  deriving Repr

/-- The findings with others before them. -/
def Findings.prepend (items : List Item) (reports : List Diagnostic) (f : Findings) : Findings :=
  ⟨items ++ f.items, reports ++ f.reports⟩

/-- Read items until the text ends, a fault is fatal or `cap` diagnostics are there; `count`
tells how many there were before. The result is `none` for a reading that never ends. -/
def recoverFrom (cap count : Nat) (s : Stream) : Option Findings :=
  match semicolons s with
  | .ok () s₁ =>
    if s₁.token = .eof ∨ cap ≤ count then some ⟨[], []⟩
    else
      match item .recovering s₁ with
      | (ds, .ok a s₂) =>
        if s₂.size < s.size then
          (recoverFrom cap (count + ds.length) s₂).map (.prepend [a] ds)
        else none
      | (ds, .fail d s₂) =>
        if d.isFatal then some ⟨[], ds ++ [d]⟩
        else
          match nextItem s₂ with
          | .ok () s₃ =>
            if s₃.size < s.size then
              (recoverFrom cap (count + ds.length + 1) s₃).map (.prepend [] (ds ++ [d]))
            else none
          | _ => none
      | (_, .endless) => none
  | _ => none
termination_by s.size

end Grammar

/-! ## Entry points on tokens -/

/-- The file that a row of tokens is. -/
def parseFile (tokens : List Located) : Verdict SourceFile :=
  (Grammar.file (.ofTokens tokens)).2.verdict

/-- The expression that a row of tokens is. -/
def parseExpr (tokens : List Located) : Verdict Expr :=
  let reader : Reader Expr := do
    let e ← Grammar.expression maxNesting
    Grammar.endOfInput
    return e
  (reader (.ofTokens tokens)).verdict

/-- The declaration that a row of tokens is. -/
def parseDeclaration (tokens : List Located) : Verdict Declaration :=
  let reader : Reader Declaration := do
    let d ← Grammar.declaration maxNesting
    Reader.semicolons
    Grammar.endOfInput
    return d
  (reader (.ofTokens tokens)).verdict

/-- The procedure that a row of tokens is. -/
def parseProcedure (tokens : List Located) : Verdict Procedure :=
  let reporter : Reporter Procedure := do
    let p ← Grammar.procedure .strict
    Reader.semicolons
    Grammar.endOfInput
    return p
  (reporter (.ofTokens tokens)).2.verdict

/-- The rest of a block, with its end, that a row of tokens is. The block counts as opened on
the line of the first token. -/
def parseBlock (kind : BlockKind) (tokens : List Located) : Verdict Block :=
  let reporter : Reporter Block := do
    let line := (← Reader.here).line
    let block ← Grammar.statements .strict maxNesting kind line false
    Grammar.endOf kind line
    Reader.semicolons
    Grammar.endOfInput
    return block
  (reporter (.ofTokens tokens)).2.verdict

/-- The number of diagnostics a recovering reading collects when not told otherwise. -/
def defaultMaxErrors : Nat := 10

/-- A file with the diagnostics of a recovering reading. -/
structure Recovered where
  file : SourceFile
  diagnostics : List Diagnostic
  deriving Repr

/-- The items that can be read from a row of tokens, with at most `maxErrors` diagnostics,
and with at most one if that is zero. -/
def recoverFile (maxErrors : Nat) (tokens : List Located) : Option Recovered :=
  let cap := max 1 maxErrors
  (Grammar.recoverFrom cap 0 (.ofTokens tokens)).map fun f => ⟨⟨f.items⟩, f.reports.take cap⟩

/-! ## Entry points on texts -/

/-- The verdict on a text, given the reading of its tokens. -/
def ofText {α : Type} (parse : List Located → Verdict α) (text : String) : Verdict α :=
  match tokenize text with
  | .ok tokens => parse tokens
  | .error d => .refused d

/-- The file that a text is. -/
def parseSource (text : String) : Verdict SourceFile :=
  ofText parseFile text

/-- What a recovering reading finds in a text. A text with a lexical fault is refused. -/
def recoverSource (maxErrors : Nat) (text : String) : Verdict Recovered :=
  ofText
    (fun tokens =>
      match recoverFile maxErrors tokens with
      | some r => .accepted r
      | none => .endless)
    text

end OpsLang
