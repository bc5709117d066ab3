import OpsLang.Grammar.Expr

/-!
# Highlighting

`highlight` gives every token of a row a category for display. It looks at neighbouring
tokens only, so it also serves rows that do not parse.

The neighbours of a token are the tokens before it, nearest first, and those after it. A name
belongs to a dotted name : `beyondPath` leaves out its other segments on either side, so
that what remains is what stands around the whole dotted name.
-/

namespace OpsLang

/-- What a token is, for display. -/
inductive Category where
  | keyword (role : KeywordRole)
  | procedureName
  | namespaceName
  | type
  | field
  | property
  /-- A function that is called, or an activity. -/
  | function
  | variableName
  | number
  | string
  | truth
  | unit
  | operator
  | punctuation
  deriving DecidableEq, Repr

/-- The name of a category in listings. -/
def Category.text : Category → String
  | keyword role => "keyword." ++ role.text
  | procedureName => "procedure"
  | namespaceName => "namespace"
  | type => "type"
  | field => "field"
  | property => "property"
  | function => "function"
  | variableName => "variable"
  | number => "number"
  | string => "string"
  | truth => "boolean"
  | unit => "unit"
  | operator => "operator"
  | punctuation => "punctuation"

/-- A stretch of text with its category. -/
structure Highlight where
  span : Span
  category : Category
  deriving DecidableEq, Repr

namespace Highlight

/-! ## Dotted names and arguments -/

/-- The token may be a segment of a dotted name. -/
def isSegment : Token → Bool
  | .name _ | .unit _ => true
  | _ => false

/-- Further segments of a dotted name follow. -/
def inPath : List Token → Bool
  | .symbol .dot :: t :: _ => isSegment t
  | _ => false

/-- The tokens on one side of a segment, without the further segments of its name. -/
def beyondPath : List Token → List Token
  | .symbol .dot :: t :: rest =>
    if isSegment t then beyondPath rest else .symbol .dot :: t :: rest
  | rest => rest

/-- The tokens behind the parenthesis that closes the outermost of some, `inner` of which are
open inside it. The end of the text closes them all and is kept. -/
def afterParens (inner : Nat) : List Token → List Token
  | [] => []
  | .eof :: after => .eof :: after
  | .symbol .leftParen :: after => afterParens (inner + 1) after
  | .symbol .rightParen :: after =>
    match inner with
    | 0 => after
    | inner + 1 => afterParens inner after
  | _ :: after => afterParens inner after

/-- The tokens behind an argument list, if one is there. -/
def afterArguments : List Token → List Token
  | .symbol .leftParen :: after => afterParens 0 after
  | after => after

/-! ## Categories -/

/-- The first of some tokens. -/
def startsWith (t : Token) (ts : List Token) : Bool :=
  ts.head? == some t

/-- A name behind these tokens, the nearest first, is the name of a declaration. -/
def declared? : List Token → Option Category
  | .keyword .namespace_ :: _ => some .namespaceName
  | .keyword .type :: _ => some .type
  | .keyword .procedure :: before =>
    if startsWith (.keyword .end_) before then none else some .procedureName
  | _ => none

/-- A dotted name behind these tokens, the nearest first, is a type. -/
def inTypePosition : List Token → Bool
  | .symbol .colon :: _ | .symbol .leftBracket :: _ => true
  | _ :: .keyword .type :: _ => true
  | _ => false

/-- A dotted name between these tokens is an activity : behind `confirm` only if no binary
operator goes on from it and its arguments. -/
def isActivity (before after : List Token) : Bool :=
  match before with
  | .keyword .initiate :: _ => true
  | .keyword .confirm :: _ =>
    ((afterArguments after).head?.bind BinaryOp.ofToken?).isNone
  | _ => false

/-- The category of a segment of a dotted name. -/
def nameCategory (before after : List Token) : Category :=
  let pathStart := beyondPath before
  let pathEnd := beyondPath after
  match declared? pathStart with
  | some c => c
  | none =>
    if startsWith (.symbol .colon) after then .field
    else if inTypePosition pathStart then .type
    else
      let activity := isActivity pathStart pathEnd
      if !inPath after && (activity || startsWith (.symbol .leftParen) pathEnd) then .function
      else if activity then .namespaceName
      else if !inPath before then .variableName
      else .property

/-- The category of a token between others. -/
def tokenCategory (before : List Token) (t : Token) (after : List Token) : Category :=
  match t with
  | .keyword .and =>
    if startsWith (.keyword .initiate) before && startsWith (.keyword .confirm) after then
      .keyword .activity
    else .keyword .operator
  | .keyword k => .keyword k.role
  | .name _ => nameCategory before after
  | .unit _ =>
    if startsWith (.symbol .dot) before || startsWith (.symbol .colon) after then
      nameCategory before after
    else .unit
  | .number _ => .number
  | .string _ => .string
  | .truth _ => .truth
  | .symbol s => if s.isPunctuation then .punctuation else .operator
  | .eof => .operator

/-- The categories of some tokens behind others, the nearest of which comes first. -/
def categories (before : List Token) : List Token → List Category
  | [] => []
  | t :: after => tokenCategory before t after :: categories (t :: before) after

theorem length_categories (before after : List Token) :
    (categories before after).length = after.length := by
  induction after generalizing before with
  | nil => rfl
  | cons t after ih => simp [categories, ih]

end Highlight

/-- The highlights of a row of tokens, one for each but the end of the text. -/
def highlight (tokens : List Located) : List Highlight :=
  let rows := tokens.zip (Highlight.categories [] (tokens.map Located.token))
  (rows.filter fun r => r.1.token != .eof).map fun r => ⟨r.1.span, r.2⟩

end OpsLang
