import OpsLang.Toml.Reader

/-!
# Settings

The settings of the command line, as a TOML document gives them. Every key is optional and
no other key is allowed.
-/

namespace OpsLang

/-- How answers are written. -/
inductive OutputFormat where
  | text
  | json
  deriving DecidableEq, Repr

/-- The format of a word. -/
def OutputFormat.ofText? : String → Option OutputFormat
  | "text" => some text
  | "json" => some json
  | _ => none

/-- The settings. -/
structure Settings where
  recover : Bool
  maxErrors : Nat
  format : Option OutputFormat
  logLevel : Option String
  deriving DecidableEq, Repr

namespace Settings

/-- The settings without a document. -/
def standard : Settings := ⟨false, 10, none, none⟩

/-- The truth value of a setting. -/
def truth? : Toml → Option Bool
  | .truth b => some b
  | _ => none

/-- The positive number of a setting. -/
def positive? : Toml → Option Nat
  | .integer n => if 0 < n then some n.toNat else none
  | _ => none

/-- The format of a setting. -/
def format? (t : Toml) : Option OutputFormat :=
  t.word?.bind OutputFormat.ofText?

/-- The text of a setting. -/
def string? : Toml → Option String
  | .string s => some s
  | _ => none

/-- The value of a setting, or its default if it is missing. -/
def orDefault {α : Type} (read? : Toml → Option α) (default : α) : Option Toml → Option α
  | some t => read? t
  | none => some default

/-- The settings of reading, from their table. -/
def readParse? (s : Settings) (t : Toml) : Option Settings :=
  match t.slots? ["recover", "max_errors"] with
  | some [recover, maxErrors] => do
    return { s with
      recover := ← orDefault truth? s.recover recover
      maxErrors := ← orDefault positive? s.maxErrors maxErrors }
  | _ => none

/-- The settings of output, from their table. -/
def readOutput? (s : Settings) (t : Toml) : Option Settings :=
  match t.slots? ["format", "log_level"] with
  | some [format, logLevel] => do
    return { s with
      format := ← orDefault (fun t => (format? t).map some) s.format format
      logLevel := ← orDefault (fun t => (string? t).map some) s.logLevel logLevel }
  | _ => none

/-- The settings of a document. -/
def ofToml? (t : Toml) : Option Settings :=
  match t.slots? ["parse", "output"] with
  | some [parse, output] => do
    let s ← orDefault (readParse? standard) standard parse
    orDefault (readOutput? s) s output
  | _ => none

/-- The settings that a text gives. -/
def ofText? (text : String) : Option Settings :=
  (Toml.ofText? text).bind ofToml?

end Settings

end OpsLang
