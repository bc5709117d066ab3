import OpsLang.Layout.Expr
import OpsLang.Statement
import OpsLang.Text.Blank

/-!
# The text of statements

A statement is written on lines of its own, and the statements of a block stand one level
further to the right. Line ends mean nothing to a reader, so where the next statement is an
expression that begins with a sign or a parenthesis, a semicolon keeps the two apart
(`needsSeparator`).

A condition behind `confirm` that would read as an activity is written in parentheses
(`Expr.readsAsActivity`).
-/

namespace OpsLang

/-- A line at a level, two spaces to each. -/
def indented (level : Nat) (line : String) : String :=
  String.ofList (List.replicate (2 * level) ' ') ++ line

/-- Lines as a text, each with its line feed. -/
def linesText (ls : List String) : String :=
  String.join (ls.map (· ++ "\n"))

/-- The lines with a semicolon at the end of the last one. -/
def closeLast : List String → List String
  | [] => []
  | [l] => [l ++ ";"]
  | l :: ls => l :: closeLast ls

/-- The words for what is asked of an activity. -/
def ActivityMode.text : ActivityMode → String
  | initiate => "initiate"
  | confirm => "confirm"
  | initiateAndConfirm => "initiate and confirm"

/-- The expression behind `confirm` would be read as an activity. -/
def Expr.readsAsActivity : Expr → Bool
  | .name _ | .property _ | .call _ _ => true
  | _ => false

/-- The text of arguments, or nothing for none. -/
def Argument.optionalText (as : List Argument) : String :=
  if as.isEmpty then "" else argumentList (Argument.texts as)

/-- The text begins with a character that could go on from the expression before it. -/
def beginsWithSign (text : String) : Bool :=
  match text.toList with
  | c :: _ => c == '-' || c == '+' || c == '('
  | [] => false

/-- A statement before these has to be closed by a semicolon. -/
def needsSeparator : List Statement → Bool
  | .expr v _ :: _ => beginsWithSign v.text
  | _ => false

mutual

/-- The lines of a statement at a level. -/
def Statement.lines (level : Nat) : Statement → List String
  | .activity mode p as _ =>
    [indented level (mode.text ++ " " ++ p.text ++ Argument.optionalText as)]
  | .check c _ => [indented level ("confirm " ++ inParens c.readsAsActivity c.text)]
  | .wait c _ => [indented level ("wait until " ++ c.text)]
  | .assign n v _ => [indented level (n ++ " = " ++ v.text)]
  | .conditional branches none _ =>
    Branch.lines level "if" branches ++ [indented level "end if"]
  | .conditional branches (some body) _ =>
    Branch.lines level "if" branches ++ [indented level "else"] ++ Block.lines (level + 1) body
      ++ [indented level "end if"]
  | .whileLoop c body _ =>
    [indented level ("while " ++ c.text ++ " do")] ++ Block.lines (level + 1) body
      ++ [indented level "end while"]
  | .forLoop n e body _ =>
    [indented level ("for " ++ n ++ " in " ++ e.text ++ " do")] ++ Block.lines (level + 1) body
      ++ [indented level "end for"]
  | .expr v _ => [indented level v.text]

/-- The lines of statements at a level. -/
def Block.lines (level : Nat) : List Statement → List String
  | [] => []
  | st :: rest =>
    (if needsSeparator rest then closeLast (st.lines level) else st.lines level)
      ++ Block.lines level rest

/-- The lines of branches at a level, the first of which begins with `word`. -/
def Branch.lines (level : Nat) (word : String) : List Branch → List String
  | [] => []
  | .mk c body :: rest =>
    [indented level (word ++ " " ++ c.text ++ " then")] ++ Block.lines (level + 1) body
      ++ Branch.lines level "elsif" rest

end

/-- The text of a statement, without a line feed at its end. -/
def Statement.text (st : Statement) : String :=
  dropBlankEnd (linesText (st.lines 0))

end OpsLang
