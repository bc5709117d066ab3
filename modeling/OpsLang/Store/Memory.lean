import OpsLang.Grammar.File
import OpsLang.Store.Location

/-!
# Sources in memory

A `Store` holds texts under locations, so all spellings of a path lead to one text.
`Store.put` adds or replaces a text, `Store.text?` is the last one put there, and
`Store.parse` reads it as a file.
-/

namespace OpsLang

/-- Texts under locations, the latest first. -/
structure Store where
  entries : List (Location × String)
  deriving Repr, Inhabited

/-- Why a path leads to no file. -/
inductive StoreFault where
  /-- No text is there. -/
  | missing (path : String)
  /-- The text is no file. -/
  | refused (path : String) (d : Diagnostic)
  deriving Repr, DecidableEq

namespace StoreFault

/-- No text is at a location. -/
def missingText (l : Location) : String :=
  "no in-memory source at " ++ l.text

/-- The fault on one line. -/
def text : StoreFault → String
  | missing path => "cannot read " ++ path ++ ": " ++ missingText (.ofPath path)
  | refused path d => path ++ ": " ++ d.text

end StoreFault

namespace Store

/-- The store without texts. -/
def empty : Store := ⟨[]⟩

/-- Put a text where a path leads. -/
def put (s : Store) (path : String) (text : String) : Store :=
  ⟨(.ofPath path, text) :: s.entries⟩

/-- The store of some paths with their texts, the later of which replace earlier ones. -/
def ofList (sources : List (String × String)) : Store :=
  sources.foldl (fun s e => s.put e.1 e.2) empty

/-- The text where a path leads. -/
def text? (s : Store) (path : String) : Option String :=
  s.entries.lookup (.ofPath path)

/-- A file, or why there is none. -/
inductive Answer where
  | file (f : SourceFile)
  | fault (f : StoreFault)
  | endless
  deriving Repr

/-- The file where a path leads. -/
def parse (s : Store) (path : String) : Answer :=
  match s.text? path with
  | none => .fault (.missing path)
  | some text =>
    match parseSource text with
    | .accepted f => .file f
    | .refused d => .fault (.refused path d)
    | .endless => .endless

end Store

end OpsLang
