/-!
# Keywords

The twenty-four reserved words of the procedure language, each with its spelling
(`Keyword.text`) and the class a listing shows it in (`Keyword.role`).
-/

namespace OpsLang

/-- A reserved word. -/
inductive Keyword where
  | procedure
  | preconditions
  | main
  | confirmation
  | end_
  | if_
  | then_
  | elsif
  | else_
  | while_
  | for_
  | in_
  | do_
  | wait
  | until_
  | initiate
  | confirm
  | and
  | or
  | not
  | mod
  | namespace_
  | type
  | struct
  deriving DecidableEq, Repr, Inhabited

/-- What a keyword does in a procedure. -/
inductive KeywordRole where
  | framing
  | control
  | activity
  | declaration
  | operator
  deriving DecidableEq, Repr

/-- The word for a role. -/
def KeywordRole.text : KeywordRole → String
  | framing => "structure"
  | control => "control"
  | activity => "activity"
  | declaration => "declaration"
  | operator => "operator"

namespace Keyword

/-- The spelling of a keyword. -/
def text : Keyword → String
  | procedure => "procedure"
  | preconditions => "preconditions"
  | main => "main"
  | confirmation => "confirmation"
  | end_ => "end"
  | if_ => "if"
  | then_ => "then"
  | elsif => "elsif"
  | else_ => "else"
  | while_ => "while"
  | for_ => "for"
  | in_ => "in"
  | do_ => "do"
  | wait => "wait"
  | until_ => "until"
  | initiate => "initiate"
  | confirm => "confirm"
  | and => "and"
  | or => "or"
  | not => "not"
  | mod => "mod"
  | namespace_ => "namespace"
  | type => "type"
  | struct => "struct"

/-- Every keyword. -/
def all : List Keyword :=
  [procedure, preconditions, main, confirmation, end_, if_, then_, elsif, else_, while_, for_, in_,
    do_, wait, until_, initiate, confirm, and, or, not, mod, namespace_, type, struct]

/-- The keyword that a word spells. -/
def ofText? (word : String) : Option Keyword :=
  all.find? fun k => k.text == word

/-- The role of a keyword. -/
def role : Keyword → KeywordRole
  | procedure | preconditions | main | confirmation | end_ => .framing
  | if_ | then_ | elsif | else_ | while_ | for_ | in_ | do_ => .control
  | wait | until_ | initiate | confirm => .activity
  | namespace_ | type | struct => .declaration
  | and | or | not | mod => .operator

theorem mem_all (k : Keyword) : k ∈ all := by
  cases k <;> decide

theorem ofText?_text (k : Keyword) : ofText? k.text = some k := by
  cases k <;> decide

theorem text_of_ofText? {word : String} {k : Keyword} (h : ofText? word = some k) :
    k.text = word := by
  simpa using List.find?_some h

end Keyword

end OpsLang
