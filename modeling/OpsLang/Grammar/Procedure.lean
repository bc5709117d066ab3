import OpsLang.Grammar.Declaration
import OpsLang.Grammar.Statement
import OpsLang.SourceFile

/-!
# Reading procedures and items

A procedure is its name and up to three sections in fixed order, of which `main` is
required. An item is a procedure or a declaration.
-/

namespace OpsLang

namespace Grammar

open Reader

/-- A section, from its keyword to its end. -/
def section_ (mode : Mode) (kind : BlockKind) : Reporter Block := do
  let line := (← here).line
  skip
  let block ← statements mode maxNesting kind line false
  endOf kind line
  return block

/-- A section that may be missing. -/
def optionalSection (mode : Mode) (kind : BlockKind) : Reporter (Option Block) := do
  if (← peek) = .keyword kind.closer then return some (← section_ mode kind) else return none

/-- The current token has to open `main`. -/
def mainAhead (line : Nat) (hasPreconditions : Bool) : Reader Unit := do
  match ← peek with
  | .keyword .main => return ()
  | .eof => failAt fun s => s.unterminated .procedure line
  | _ => refuse (if hasPreconditions then ["'main'"] else ["'preconditions'", "'main'"])

/-- The current token has to be `end`, or the end of the text. -/
def endAhead (hasConfirmation : Bool) : Reader Unit := do
  match ← peek with
  | .keyword .end_ | .eof => return ()
  | _ =>
    refuse (if hasConfirmation then ["'end procedure'"] else ["'confirmation'", "'end procedure'"])

/-- A procedure. -/
def procedure (mode : Mode) : Reporter Procedure := do
  let line := (← here).line
  keyword .procedure
  let n ← name "procedure name"
  let preconditions ← optionalSection mode .preconditions
  mainAhead line preconditions.isSome
  let main ← section_ mode .main
  let confirmation ← optionalSection mode .confirmation
  endAhead confirmation.isSome
  endOf .procedure line
  return ⟨n, preconditions, main, confirmation, line⟩

/-- A procedure or a declaration. -/
def item (mode : Mode) : Reporter Item := do
  match ← peek with
  | .keyword .procedure => return .procedure (← procedure mode)
  | .keyword .namespace_ | .keyword .type => return .declaration (← declaration maxNesting)
  | _ => Reader.refuse ["'procedure'", "'namespace'", "'type'"]

end Grammar

end OpsLang
