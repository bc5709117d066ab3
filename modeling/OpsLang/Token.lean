import OpsLang.Keyword
import OpsLang.Quantity
import OpsLang.Span
import OpsLang.Text.Quoted

/-!
# Tokens

The words of a source text. `Token.lexeme` is a spelling of a token, `Token.describe` the
way messages speak of it, and `Token.kind` its coarse class. A `Located` token knows the
stretch of text that it was read from.
-/

namespace OpsLang

/-- A punctuation mark or an operator sign. -/
inductive Symbol where
  | leftParen
  | rightParen
  | leftBrace
  | rightBrace
  | leftBracket
  | rightBracket
  | comma
  | dot
  | semicolon
  | colon
  | assign
  | equal
  | notEqual
  | lessGreater
  | less
  | lessEqual
  | greater
  | greaterEqual
  | plus
  | minus
  | star
  | slash
  | starStar
  deriving DecidableEq, Repr, Inhabited

namespace Symbol

/-- The spelling of a symbol. -/
def text : Symbol → String
  | leftParen => "("
  | rightParen => ")"
  | leftBrace => "\x7b"
  | rightBrace => "\x7d"
  | leftBracket => "["
  | rightBracket => "]"
  | comma => ","
  | dot => "."
  | semicolon => ";"
  | colon => ":"
  | assign => "="
  | equal => "=="
  | notEqual => "!="
  | lessGreater => "<>"
  | less => "<"
  | lessEqual => "<="
  | greater => ">"
  | greaterEqual => ">="
  | plus => "+"
  | minus => "-"
  | star => "*"
  | slash => "/"
  | starStar => "**"

/-- The symbol groups or separates, and computes nothing. -/
def isPunctuation : Symbol → Bool
  | leftParen | rightParen | leftBrace | rightBrace | leftBracket | rightBracket | comma | dot
  | semicolon | colon => true
  | _ => false

end Symbol

/-- A word of the source text. A string token holds its content, and a number token its
spelling. -/
inductive Token where
  | keyword (k : Keyword)
  | name (text : String)
  | number (text : String)
  | string (content : String)
  | truth (value : Bool)
  | unit (spelling : String)
  | symbol (s : Symbol)
  | eof
  deriving DecidableEq, Repr, Inhabited

/-- The coarse class of a token. -/
inductive TokenKind where
  | keyword
  | name
  | number
  | string
  | truth
  | unit
  | operator
  | punctuation
  | eof
  deriving DecidableEq, Repr

/-- The word for a class of tokens. -/
def TokenKind.text : TokenKind → String
  | keyword => "keyword"
  | name => "identifier"
  | number => "number"
  | string => "string"
  | truth => "boolean"
  | unit => "unit"
  | operator => "operator"
  | punctuation => "punctuation"
  | eof => "eof"

/-- The spelling of a truth value. -/
def truthText (b : Bool) : String :=
  if b then "true" else "false"

namespace Token

/-- The class of a token. A keyword that is an operator counts as an operator. -/
def kind : Token → TokenKind
  | keyword k => if k.role = .operator then .operator else .keyword
  | name _ => .name
  | number _ => .number
  | string _ => .string
  | truth _ => .truth
  | unit _ => .unit
  | symbol s => if s.isPunctuation then .punctuation else .operator
  | eof => .eof

/-- A spelling of a token, with strings quoted as in listings. -/
def lexeme : Token → String
  | keyword k => k.text
  | name s | number s | unit s => s
  | string s => quoteListed s
  | truth b => truthText b
  | symbol s => s.text
  | eof => ""

/-- The token, as messages speak of it. -/
def describe : Token → String
  | keyword k => "keyword '" ++ k.text ++ "'"
  | name s => "identifier '" ++ s ++ "'"
  | number s => "number '" ++ s ++ "'"
  | string _ => "string literal"
  | truth b => "'" ++ truthText b ++ "'"
  | unit s => "unit '" ++ s ++ "'"
  | symbol s => "'" ++ s.text ++ "'"
  | eof => "end of input"

end Token

/-- A token with the stretch of text it was read from. -/
structure Located where
  token : Token
  span : Span
  deriving DecidableEq, Repr, Inhabited

/-- The line a token starts on. -/
def Located.line (t : Located) : Nat :=
  t.span.line

end OpsLang
