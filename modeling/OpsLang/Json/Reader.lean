import OpsLang.Json
import OpsLang.Text.Digit

/-!
# Reading JSON text

`Json.ofText?` reads one value with blank space around it and refuses everything else. The
readers of `Json.value` take the characters they need off the front of a text and hand on
the rest; the first argument bounds the depth of values inside values, and the length of
the text is always enough.
-/

namespace OpsLang

namespace Json

/-- A JSON blank. -/
def isSpace (c : Char) : Bool :=
  c == ' ' || c == '\n' || c == '\t' || c == '\r'

/-- The text after its blanks. -/
def skipSpace (cs : List Char) : List Char :=
  cs.dropWhile isSpace

/-! ## Strings -/

/-- The number of four hexadecimal digits. -/
def hexUnit? (a b c d : Char) : Option Nat := do
  let a ← digitValue? a
  let b ← digitValue? b
  let c ← digitValue? c
  let d ← digitValue? d
  return ((a * 16 + b) * 16 + c) * 16 + d

/-- The character behind a backslash that is not followed by a number. -/
def plainEscape? : Char → Option Char
  | '"' => some '"'
  | '\\' => some '\\'
  | '/' => some '/'
  | 'b' => some '\x08'
  | 'f' => some '\x0c'
  | 'n' => some '\n'
  | 'r' => some '\r'
  | 't' => some '\t'
  | _ => none

/-- Put a character before the content of a string. -/
def pushChar (c : Char) (r : Option (List Char × List Char)) : Option (List Char × List Char) :=
  r.map fun p => (c :: p.1, p.2)

/-- The content of a string after its opening quote, and the text after its closing one. A
code point beyond the basic plane may be written as two surrogate numbers. -/
def stringBody : List Char → Option (List Char × List Char)
  | [] => none
  | '"' :: cs => some ([], cs)
  | '\\' :: 'u' :: a :: b :: c :: d :: '\\' :: 'u' :: e :: f :: g :: h :: cs => do
    let high ← hexUnit? a b c d
    if 0xD800 ≤ high ∧ high < 0xDC00 then
      let low ← hexUnit? e f g h
      if 0xDC00 ≤ low ∧ low < 0xE000 then
        pushChar (Char.ofNat (0x10000 + (high - 0xD800) * 0x400 + (low - 0xDC00))) (stringBody cs)
      else none
    else if 0xDC00 ≤ high ∧ high < 0xE000 then none
    else pushChar (Char.ofNat high) (stringBody ('\\' :: 'u' :: e :: f :: g :: h :: cs))
  | '\\' :: 'u' :: a :: b :: c :: d :: cs => do
    let unit ← hexUnit? a b c d
    if 0xD800 ≤ unit ∧ unit < 0xE000 then none else pushChar (Char.ofNat unit) (stringBody cs)
  | '\\' :: e :: cs => do
    let c ← plainEscape? e
    pushChar c (stringBody cs)
  | c :: cs => if c = '\\' ∨ c.toNat < 32 then none else pushChar c (stringBody cs)

/-! ## Numbers -/

/-- The digits at the front of a text, and the rest. -/
def digits (cs : List Char) : List Char × List Char :=
  cs.span Char.isDigit

/-- The fraction at the front of a text, which may be empty, and the rest. -/
def fraction : List Char → Option (List Char × List Char)
  | '.' :: cs =>
    match digits cs with
    | ([], _) => none
    | (ds, rest) => some ('.' :: ds, rest)
  | cs => some ([], cs)

/-- The sign at the front of an exponent, which may be empty, and the rest. -/
def exponentSign : List Char → List Char × List Char
  | '+' :: cs => (['+'], cs)
  | '-' :: cs => (['-'], cs)
  | cs => ([], cs)

/-- The exponent at the front of a text, which may be empty, and the rest. -/
def exponent : List Char → Option (List Char × List Char)
  | [] => some ([], [])
  | c :: cs =>
    if c = 'e' ∨ c = 'E' then
      match exponentSign cs with
      | (sign, rest) =>
        match digits rest with
        | ([], _) => none
        | (ds, rest) => some (c :: sign ++ ds, rest)
    else some ([], c :: cs)

/-- The number at the front of a text, after its sign. -/
def unsigned (negative : Bool) (cs : List Char) : Option (Json × List Char) :=
  match digits cs with
  | ([], _) => none
  | ('0' :: _ :: _, _) => none
  | (ds, rest) => do
    let (fr, rest) ← fraction rest
    let (ex, rest) ← exponent rest
    let spelling := (if negative then ['-'] else []) ++ ds ++ fr ++ ex
    if fr.isEmpty && ex.isEmpty && !(negative && digitsValue 10 ds == 0) then
      let n : Int := digitsValue 10 ds
      return (.integer (if negative then -n else n), rest)
    else return (.real (String.ofList spelling), rest)

/-- The number at the front of a text. -/
def number : List Char → Option (Json × List Char)
  | '-' :: cs => unsigned true cs
  | cs => unsigned false cs

/-! ## Values -/

/-- The text after a word, when it begins with that word. -/
def afterWord? (word : String) (cs : List Char) : Option (List Char) :=
  if word.toList.isPrefixOf cs then some (cs.drop word.length) else none

mutual

/-- The value at the front of a text. -/
def value : Nat → List Char → Option (Json × List Char)
  | 0, _ => none
  | depth + 1, cs =>
    match cs with
    | [] => none
    | '"' :: cs => (stringBody cs).map fun p => (.string (String.ofList p.1), p.2)
    | '[' :: cs =>
      match skipSpace cs with
      | ']' :: rest => some (.array [], rest)
      | rest => (items depth rest).map fun p => (.array p.1, p.2)
    | '\x7b' :: cs =>
      match skipSpace cs with
      | '\x7d' :: rest => some (.object [], rest)
      | rest => (members depth rest).map fun p => (.object p.1, p.2)
    | 'n' :: cs => (afterWord? "ull" cs).map fun rest => (.null, rest)
    | 't' :: cs => (afterWord? "rue" cs).map fun rest => (.truth true, rest)
    | 'f' :: cs => (afterWord? "alse" cs).map fun rest => (.truth false, rest)
    | cs => number cs

/-- The items at the front of a text, up to the bracket that closes them. -/
def items : Nat → List Char → Option (List Json × List Char)
  | 0, _ => none
  | depth + 1, cs => do
    let (j, rest) ← value depth cs
    match skipSpace rest with
    | ']' :: rest => return ([j], rest)
    | ',' :: rest =>
      let (js, rest) ← items depth (skipSpace rest)
      return (j :: js, rest)
    | _ => none

/-- The members at the front of a text, up to the brace that closes them. -/
def members : Nat → List Char → Option (List (String × Json) × List Char)
  | 0, _ => none
  | depth + 1, cs => do
    match cs with
    | '"' :: cs =>
      let (k, rest) ← stringBody cs
      match skipSpace rest with
      | ':' :: rest =>
        let (j, rest) ← value depth (skipSpace rest)
        match skipSpace rest with
        | '\x7d' :: rest => return ([(String.ofList k, j)], rest)
        | ',' :: rest =>
          let (ms, rest) ← members depth (skipSpace rest)
          return ((String.ofList k, j) :: ms, rest)
        | _ => none
      | _ => none
    | _ => none

end

/-- The value that a text holds. -/
def ofText? (text : String) : Option Json :=
  match value (text.toList.length + 1) (skipSpace text.toList) with
  | some (j, rest) => if (skipSpace rest).isEmpty then some j else none
  | none => none

end Json

end OpsLang
