import OpsLang.CommandLine.Folder
import OpsLang.CommandLine.Options
import OpsLang.Grammar.File
import OpsLang.Highlight
import OpsLang.Json.Diagnostic
import OpsLang.Json.Tree
import OpsLang.Layout.File

/-!
# Running commands

`run` answers a command line with an exit code and what is written to the two output
streams. `parse` prints the tree of a file as JSON, `check` its faults, `fmt` its canonical
text, `tokens` its tokens with their categories, and `units` the table of units.

A file with a fault, and one that cannot be read, ends with code 1, a command line that asks
for nothing with code 2. `--quiet` keeps messages back, but neither the JSON of a fault nor
the report of `check` in JSON.
-/

namespace OpsLang

/-- The exit code of a program and what it wrote. -/
structure Answer where
  code : Nat
  out : String
  err : String
  deriving DecidableEq, Repr

namespace Answer

/-- Success with some output. -/
def done (out : String) : Answer := ⟨0, out, ""⟩

/-- Failure with a message. -/
def failed (err : String) : Answer := ⟨1, "", err⟩

end Answer

/-! ## Messages -/

/-- How answers are written, and whether messages are kept back. -/
structure Manner where
  output : OutputFormat
  quiet : Bool
  deriving DecidableEq, Repr

/-- A text on a line of its own. -/
def onLine (text : String) : String :=
  text ++ "\n"

/-- A message about a fault outside the source text. -/
def Manner.message (m : Manner) (text : String) : String :=
  if m.quiet then ""
  else
    match m.output with
    | .text => onLine text
    | .json => onLine (Json.object [("error", .string text)]).compact

/-- A diagnostic on one line, with the file it is about. -/
def diagnosticLine (file : String) (d : Diagnostic) : String :=
  onLine (file ++ ":" ++ d.span.position ++ ": " ++ d.kind.text ++ " error: " ++ d.message)

/-- A diagnostic that ends a command. -/
def Manner.fault (m : Manner) (file : String) (d : Diagnostic) : String :=
  match m.output with
  | .json => onLine d.report.pretty
  | .text => if m.quiet then "" else diagnosticLine file d

/-! ## Files -/

/-- The text of a file, or why it cannot be read. -/
def readText (files : Files) (path : String) : Except String String :=
  match files path with
  | .ok bytes =>
    match String.fromUTF8? bytes with
    | some text => .ok text
    | none => .error ("could not read '" ++ path ++ "': stream did not contain valid UTF-8")
  | .error reason => .error ("could not read '" ++ path ++ "': " ++ reason)

/-- The settings of a file, or why there are none. -/
def readSettings (files : Files) (path : String) : Except String Settings := do
  let text ← readText files path
  match Settings.ofText? text with
  | some s => return s
  | none => throw ("could not parse '" ++ path ++ "': these are no settings")

/-- Where the settings are when no file is named. -/
def settingsPath : String := "pluto.toml"

/-- The settings of the file that is named, or else of the usual one if it is there. -/
def loadSettings (files : Files) : Option String → Except String Settings
  | some path => readSettings files path
  | none =>
    match files settingsPath with
    | .ok _ => readSettings files settingsPath
    | .error _ => .ok .standard

/-- Answer with the text of a file. -/
def withText (files : Files) (m : Manner) (path : String) (f : String → Answer) : Answer :=
  match readText files path with
  | .ok text => f text
  | .error reason => .failed (m.message reason)

/-- Answer with a value that was read, or with the fault that kept it from being read. A
reading that never ends has no answer to give. -/
def withVerdict {α : Type} (m : Manner) (path : String) (v : Verdict α) (f : α → Answer) :
    Answer :=
  match v with
  | .accepted a => f a
  | .refused d => .failed (m.fault path d)
  | .endless => .failed ""

/-! ## Commands -/

/-- Print the tree of a text. -/
def parseAnswer (m : Manner) (path text : String) : Answer :=
  withVerdict m path (parseSource text) fun f => .done (onLine f.toJson.pretty)

/-- Print the canonical form of a text, or tell whether the text is in it. -/
def fmtAnswer (m : Manner) (path : String) (checkOnly : Bool) (text : String) : Answer :=
  withVerdict m path (parseSource text) fun f =>
    if !checkOnly then .done f.text
    else if f.text = text then .done ""
    else .failed (m.message (path ++ ": not in canonical form"))

/-- What `check` found : the file, if there is one, and the diagnostics. -/
def checkFindings (recover : Bool) (maxErrors : Nat) (text : String) :
    SourceFile × List Diagnostic :=
  if recover then
    match recoverSource maxErrors text with
    | .accepted r => (r.file, r.diagnostics)
    | .refused d => (⟨[]⟩, [d])
    | .endless => (⟨[]⟩, [])
  else
    match parseSource text with
    | .accepted f => (f, [])
    | .refused d => (⟨[]⟩, [d])
    | .endless => (⟨[]⟩, [])

/-- The report of `check` in JSON. -/
def checkReport (path : String) (ds : List Diagnostic) : Json :=
  .object [("diagnostics", .array (ds.map Diagnostic.report)), ("file", .string path),
    ("ok", .truth ds.isEmpty)]

/-- The line of `check` about a file without faults. -/
def okLine (path : String) (f : SourceFile) : String :=
  onLine (path ++ ": ok (" ++ toString f.procedures.length ++ " procedure(s), "
    ++ toString f.declarations.length ++ " declaration(s))")

/-- The lines of `check` about faults. A reading that goes on after faults counts them. -/
def faultLines (path : String) (recover : Bool) (ds : List Diagnostic) : String :=
  String.join (ds.map (diagnosticLine path)) ++
    if recover then onLine (path ++ ": " ++ toString ds.length ++ " error(s)") else ""

/-- Tell the faults of a text. -/
def checkAnswer (m : Manner) (path : String) (recover : Bool) (maxErrors : Nat) (text : String) :
    Answer :=
  let (f, ds) := checkFindings recover maxErrors text
  let code := if ds.isEmpty then 0 else 1
  match m.output with
  | .json => ⟨code, onLine (checkReport path ds).pretty, ""⟩
  | .text =>
    if m.quiet then ⟨code, "", ""⟩
    else if ds.isEmpty then ⟨code, okLine path f, ""⟩
    else ⟨code, "", faultLines path recover ds⟩

/-- The text with blanks behind it up to a width. -/
def padRight (width : Nat) (text : String) : String :=
  text ++ String.ofList (List.replicate (width - text.length) ' ')

/-- The text with blanks before it up to a width. -/
def padLeft (width : Nat) (text : String) : String :=
  String.ofList (List.replicate (width - text.length) ' ') ++ text

/-- A token with its category, in JSON. -/
def tokenJson (t : Located) (h : Highlight) : Json :=
  .object [("category", .string h.category.text), ("column", .nat t.span.column),
    ("kind", .string t.token.kind.text), ("lexeme", .string t.token.lexeme),
    ("line", .nat t.span.line)]

/-- A token with its category, on a line. -/
def tokenLine (t : Located) (h : Highlight) : String :=
  onLine (padLeft 4 (toString t.span.line) ++ ":" ++ padRight 3 (toString t.span.column) ++ " "
    ++ padRight 20 h.category.text ++ " " ++ t.token.lexeme)

/-- List the tokens of a text. -/
def tokensAnswer (m : Manner) (path text : String) : Answer :=
  match tokenize text with
  | .error d => .failed (m.fault path d)
  | .ok tokens =>
    let rows := tokens.zip (highlight tokens)
    match m.output with
    | .json => .done (onLine (Json.array (rows.map fun r => tokenJson r.1 r.2)).pretty)
    | .text => .done (String.join (rows.map fun r => tokenLine r.1 r.2))

/-- The units of a quantity, in JSON. -/
def unitsJson (q : Quantity) : Json :=
  .object [("kind", .string q.text), ("units", .strings q.units)]

/-- The units of a quantity, on a line. -/
def unitsLine (q : Quantity) : String :=
  onLine (padRight 20 q.text ++ " " ++ " ".intercalate q.units)

/-- List the units. -/
def unitsAnswer (m : Manner) : Answer :=
  match m.output with
  | .json => .done (onLine (Json.array (Quantity.all.map unitsJson)).pretty)
  | .text => .done (String.join (Quantity.all.map unitsLine))

/-- Answer a command. -/
def Command.answer (files : Files) (m : Manner) (s : Settings) : Command → Answer
  | parse path => withText files m path (parseAnswer m path)
  | check path recover maxErrors =>
    withText files m path
      (checkAnswer m path (recover || s.recover) (maxErrors.getD s.maxErrors))
  | fmt path checkOnly => withText files m path (fmtAnswer m path checkOnly)
  | tokens path => withText files m path (tokensAnswer m path)
  | units => unitsAnswer m

/-- Answer a request. -/
def Request.answer (files : Files) (r : Request) : Answer :=
  match loadSettings files r.config with
  | .error reason => .failed (Manner.message ⟨r.output.getD .text, r.quiet⟩ reason)
  | .ok s => r.command.answer files ⟨(r.output <|> s.format).getD .text, r.quiet⟩ s

/-! ## The program -/

/-- The program and its version. -/
def versionLine : String := "pluto 0.1.0\n"

/-- How the program is used. -/
def usageText : String :=
  "Usage: pluto [--output text|json] [--quiet] [--verbose] [--config FILE] COMMAND\n\n" ++
  "Commands:\n" ++
  "  parse FILE                                print the tree of a file as JSON\n" ++
  "  check [--recover] [--max-errors N] FILE   report the faults of a file\n" ++
  "  fmt [--check] FILE                        print a file in canonical form\n" ++
  "  tokens FILE                               list the tokens of a file\n" ++
  "  units                                     list the unit spellings\n"

/-- Answer a command line. -/
def run (files : Files) (args : List String) : Answer :=
  match Request.ofArgs args with
  | .ok r => r.answer files
  | .error .version => .done versionLine
  | .error .help => .done usageText
  | .error .usage => ⟨2, "", usageText⟩

end OpsLang
