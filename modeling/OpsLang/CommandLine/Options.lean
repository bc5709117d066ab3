import OpsLang.Numeral
import OpsLang.Settings

/-!
# Command lines

`Request.ofArgs` reads the arguments of the program. They are options of the program, the
name of a command, and the options and the file of that command. The options of the program
may also stand behind the command; what is given there counts more.

An option is given at most once on either side. One that takes a value takes it from behind
`=` or from the next argument, which may not begin with a dash unless it is only that.
Behind `--` there are no options. Arguments are read in order, so of a fault and a request
for help or for the version the first one counts.
-/

namespace OpsLang

/-- What an option is about. -/
inductive OptionName where
  | output
  | quiet
  | verbose
  | config
  | recover
  | maxErrors
  | checkOnly
  deriving DecidableEq, Repr

/-- The name of a command. -/
inductive CommandName where
  | parse
  | check
  | fmt
  | tokens
  | units
  deriving DecidableEq, Repr

/-- The command of a word. -/
def CommandName.ofText? : String → Option CommandName
  | "parse" => some parse
  | "check" => some check
  | "fmt" => some fmt
  | "tokens" => some tokens
  | "units" => some units
  | _ => none

namespace OptionName

/-- The option takes a value. -/
def takesValue : OptionName → Bool
  | output | config | maxErrors => true
  | _ => false

/-- The option of a word, before the command or behind it. -/
def ofText? (command : Option CommandName) : String → Option OptionName
  | "output" => some output
  | "quiet" => some quiet
  | "verbose" => some verbose
  | "config" => some config
  | "recover" => if command = some .check then some recover else none
  | "max-errors" => if command = some .check then some maxErrors else none
  | "check" => if command = some .fmt then some checkOnly else none
  | _ => none

end OptionName

/-- What is given before the command, or behind it. -/
structure Given where
  output : Option OutputFormat
  quiet : Bool
  verbose : Bool
  config : Option String
  recover : Bool
  maxErrors : Option Nat
  checkOnly : Bool
  file : Option String
  deriving DecidableEq, Repr

namespace Given

/-- Nothing is given. -/
def nothing : Given := ⟨none, false, false, none, false, none, false, none⟩

/-- The positive number of at most sixty-four bits that a text spells. -/
def positive? (text : String) : Option Nat :=
  (wholeValue? 10 text.toList).filter fun n => 0 < n && n < UInt64.size

/-- Give an option without a value. -/
def flag (g : Given) : OptionName → Option Given
  | .quiet => if g.quiet then none else some { g with quiet := true }
  | .verbose => if g.verbose then none else some { g with verbose := true }
  | .recover => if g.recover then none else some { g with recover := true }
  | .checkOnly => if g.checkOnly then none else some { g with checkOnly := true }
  | _ => none

/-- Give an option with its value. -/
def option (g : Given) (o : OptionName) (value : String) : Option Given :=
  match o with
  | .output =>
    if g.output.isSome then none
    else (OutputFormat.ofText? value).map fun f => { g with output := some f }
  | .config =>
    if g.config.isSome || value.isEmpty then none else some { g with config := some value }
  | .maxErrors =>
    if g.maxErrors.isSome then none
    else (positive? value).map fun n => { g with maxErrors := some n }
  | _ => none

/-- Give the file of a command. There is at most one, and `units` takes none. -/
def addFile (command : CommandName) (g : Given) (path : String) : Option Given :=
  if g.file.isSome || path.isEmpty || command = .units then none
  else some { g with file := some path }

end Given

/-! ## Arguments -/

/-- What an argument looks like. -/
inductive ArgShape where
  /-- `--` alone. -/
  | separator
  /-- Two dashes, a name, and perhaps a value behind `=`. -/
  | long (name : String) (value : Option String)
  /-- A dash and the letter behind it. -/
  | short (letter : Char)
  | plain
  deriving DecidableEq, Repr

/-- The shape of an argument. -/
def ArgShape.of (arg : String) : ArgShape :=
  match arg.toList with
  | ['-', '-'] => .separator
  | '-' :: '-' :: cs =>
    let name := String.ofList (cs.takeWhile (· != '='))
    match cs.dropWhile (· != '=') with
    | [] => .long name none
    | _ :: value => .long name (some (String.ofList value))
  | '-' :: c :: _ => .short c
  | _ => .plain

/-- Why the arguments ask for no command. -/
inductive Halt where
  | usage
  | help
  | version
  deriving DecidableEq, Repr

/-- What an argument amounts to. -/
inductive ArgStep where
  /-- An option that is complete. -/
  | given (g : Given)
  /-- An option whose value is the next argument. -/
  | needsValue (o : OptionName)
  /-- The end of the options. -/
  | separator
  | plain
  | halt (why : Halt)

/-- The step of an option that may be refused. -/
def ArgStep.ofOption : Option Given → ArgStep
  | some g => .given g
  | none => .halt .usage

/-- Read an argument, before the command or behind it. -/
def readArg (command : Option CommandName) (g : Given) (arg : String) : ArgStep :=
  match ArgShape.of arg with
  | .separator => .separator
  | .plain => .plain
  | .short 'h' | .long "help" none => .halt .help
  | .short 'V' | .long "version" none => .halt (if command.isNone then .version else .usage)
  | .short _ => .halt .usage
  | .long name value =>
    match OptionName.ofText? command name, value with
    | none, _ => .halt .usage
    | some o, some v => .ofOption (g.option o v)
    | some o, none => if o.takesValue then .needsValue o else .ofOption (g.flag o)

/-- Give an option whose value is the next argument. -/
def Given.optionFrom (g : Given) (o : OptionName) (value : String) : Option Given :=
  if ArgShape.of value = .plain then g.option o value else none

/-- Read what is given behind a command. -/
def readCommand (command : CommandName) (g : Given) : List String → Except Halt Given
  | [] => .ok g
  | arg :: rest =>
    match readArg (some command) g arg with
    | .given g => readCommand command g rest
    | .needsValue o =>
      match rest with
      | [] => .error .usage
      | value :: rest =>
        match g.optionFrom o value with
        | some g => readCommand command g rest
        | none => .error .usage
    | .separator =>
      match rest.foldlM (Given.addFile command) g with
      | some g => .ok g
      | none => .error .usage
    | .plain =>
      match Given.addFile command g arg with
      | some g => readCommand command g rest
      | none => .error .usage
    | .halt why => .error why

/-- The arguments behind `help` name at most one command. -/
def isHelpTopic : List String → Bool
  | [] => true
  | [topic] => topic == "help" || (CommandName.ofText? topic).isSome
  | _ => false

/-- What is given before the command, the command, and the arguments behind it. -/
def readProgram (g : Given) : List String → Except Halt (Given × CommandName × List String)
  | [] => .error .usage
  | arg :: rest =>
    match readArg none g arg with
    | .given g => readProgram g rest
    | .needsValue o =>
      match rest with
      | [] => .error .usage
      | value :: rest =>
        match g.optionFrom o value with
        | some g => readProgram g rest
        | none => .error .usage
    | .separator => .error .usage
    | .plain =>
      match CommandName.ofText? arg with
      | some c => .ok (g, c, rest)
      | none => .error (if arg = "help" ∧ isHelpTopic rest then .help else .usage)
    | .halt why => .error why

/-! ## Requests -/

/-- What to do. -/
inductive Command where
  | parse (file : String)
  | check (file : String) (recover : Bool) (maxErrors : Option Nat)
  | fmt (file : String) (checkOnly : Bool)
  | tokens (file : String)
  | units
  deriving DecidableEq, Repr

/-- What to do and how. -/
structure Request where
  output : Option OutputFormat
  quiet : Bool
  verbose : Bool
  config : Option String
  command : Command
  deriving DecidableEq, Repr

/-- The command with what is given behind it. Each but `units` needs a file. -/
def Command.ofGiven? (g : Given) : CommandName → Option Command
  | .parse => g.file.map .parse
  | .check => g.file.map fun f => .check f g.recover g.maxErrors
  | .fmt => g.file.map fun f => .fmt f g.checkOnly
  | .tokens => g.file.map .tokens
  | .units => some .units

/-- The request of what is given before a command and behind it. -/
def Request.ofGiven? (before behind : Given) (command : CommandName) : Option Request := do
  return ⟨behind.output <|> before.output, behind.quiet || before.quiet,
    behind.verbose || before.verbose, behind.config <|> before.config,
    ← Command.ofGiven? behind command⟩

/-- The request that some arguments make. -/
def Request.ofArgs (args : List String) : Except Halt Request := do
  let (before, command, rest) ← readProgram .nothing args
  let behind ← readCommand command .nothing rest
  match Request.ofGiven? before behind command with
  | some r => return r
  | none => throw .usage

end OpsLang
