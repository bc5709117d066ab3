/-!
# JSON values and their text

A `Json` value keeps the members of an object in the order they are written, and tells
integers from other numbers. `Json.compact` writes a value without any space and
`Json.pretty` with one item a line, indented by two spaces a level. In both, a string
escapes quotes, backslashes and control characters only.
-/

namespace OpsLang

/-- A JSON value. A number with a fraction or an exponent keeps its spelling, and so does
minus zero. -/
inductive Json where
  | null
  | truth (value : Bool)
  | integer (value : Int)
  | real (spelling : String)
  | string (value : String)
  | array (items : List Json)
  | object (members : List (String × Json))
  deriving Inhabited

namespace Json

/-- A natural number. -/
def nat (n : Nat) : Json := .integer n

/-- A string, or null for none. -/
def stringOrNull : Option String → Json
  | some s => .string s
  | none => .null

/-- An array of strings. -/
def strings (ss : List String) : Json :=
  .array (ss.map .string)

/-- The value under a key of an object, the last one if there are several. -/
def member? (key : String) : Json → Option Json
  | .object members => (members.reverse.find? fun m => m.1 == key).map Prod.snd
  | _ => none

/-! ## Writing -/

/-- Four lower-case hexadecimal digits. -/
def fourHex (n : Nat) : List Char :=
  let digits := Nat.toDigits 16 n
  List.replicate (4 - digits.length) '0' ++ digits

/-- One character inside a JSON string. -/
def escapeChar (c : Char) : List Char :=
  if c = '"' then ['\\', '"']
  else if c = '\\' then ['\\', '\\']
  else if c = '\x08' then ['\\', 'b']
  else if c = '\x0c' then ['\\', 'f']
  else if c = '\n' then ['\\', 'n']
  else if c = '\r' then ['\\', 'r']
  else if c = '\t' then ['\\', 't']
  else if c.toNat < 32 then ['\\', 'u'] ++ fourHex c.toNat
  else [c]

/-- A JSON string, with its quotes. -/
def quoted (s : String) : String :=
  String.ofList ('"' :: s.toList.flatMap escapeChar ++ ['"'])

/-- The text of a value that holds no other, and of the empty array and object. -/
def atom : Json → String
  | null => "null"
  | truth b => if b then "true" else "false"
  | integer n => toString n
  | real s => s
  | string s => quoted s
  | array _ => "[]"
  | object _ => "\x7b\x7d"

mutual

/-- The text of a value without any space. -/
def compact : Json → String
  | array (j :: js) => "[" ++ j.compact ++ compactItems js ++ "]"
  | object ((k, j) :: ms) =>
    "\x7b" ++ quoted k ++ ":" ++ j.compact ++ compactMembers ms ++ "\x7d"
  | null => atom null
  | truth b => atom (truth b)
  | integer n => atom (integer n)
  | real s => atom (real s)
  | string s => atom (string s)
  | array [] => atom (array [])
  | object [] => atom (object [])

/-- The items after the first, each behind a comma. -/
def compactItems : List Json → String
  | [] => ""
  | j :: js => "," ++ j.compact ++ compactItems js

/-- The members after the first, each behind a comma. -/
def compactMembers : List (String × Json) → String
  | [] => ""
  | (k, j) :: ms => "," ++ quoted k ++ ":" ++ j.compact ++ compactMembers ms

end

/-- The start of a line at a level. -/
def lineStart (level : Nat) : String :=
  String.ofList ('\n' :: List.replicate (2 * level) ' ')

mutual

/-- The text of a value at a level, one item a line. -/
def prettyAt (level : Nat) : Json → String
  | array (j :: js) =>
    "[" ++ lineStart (level + 1) ++ j.prettyAt (level + 1) ++ prettyItems (level + 1) js
      ++ lineStart level ++ "]"
  | object ((k, j) :: ms) =>
    "\x7b" ++ lineStart (level + 1) ++ quoted k ++ ": " ++ j.prettyAt (level + 1)
      ++ prettyMembers (level + 1) ms ++ lineStart level ++ "\x7d"
  | null => atom null
  | truth b => atom (truth b)
  | integer n => atom (integer n)
  | real s => atom (real s)
  | string s => atom (string s)
  | array [] => atom (array [])
  | object [] => atom (object [])

/-- The items after the first, each behind a comma and on its line. -/
def prettyItems (level : Nat) : List Json → String
  | [] => ""
  | j :: js => "," ++ lineStart level ++ j.prettyAt level ++ prettyItems level js

/-- The members after the first, each behind a comma and on its line. -/
def prettyMembers (level : Nat) : List (String × Json) → String
  | [] => ""
  | (k, j) :: ms =>
    "," ++ lineStart level ++ quoted k ++ ": " ++ j.prettyAt level ++ prettyMembers level ms

end

/-- The text of a value, one item a line. -/
def pretty (j : Json) : String :=
  j.prettyAt 0

end Json

end OpsLang
