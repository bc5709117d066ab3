import OpsLang.Diagnostic
import OpsLang.Text.Digit
import OpsLang.Token

/-!
# From text to tokens

`front` tells what the front of a text is : a gap (blank space or a comment), a token, or
a fault, each with the number of characters it takes. `tokensFrom` reads one front after
another and knows where each begins; `tokenize` does so from the start of a text. The
tokens end with one `.eof` at the end of the text.

Everything that depends on positions is in `tokensFrom`; the readers of the single kinds of
front see characters only.
-/

namespace OpsLang

/-! ## Faults -/

/-- Why the front of a text is no token. -/
inductive LexicalFault where
  | openComment
  | openString
  | openEscape
  | missingDigits
  | afterDigits (c : Char)
  | unexpected (c : Char)
  deriving DecidableEq, Repr

/-- The diagnostic of a fault that takes the stretch `span`. -/
def LexicalFault.diagnostic (span : Span) : LexicalFault → Diagnostic
  | openComment => .lexical span "unterminated block comment"
  | openString => .lexical span "unterminated string literal"
  | openEscape => .lexical span "unterminated escape in string"
  | missingDigits => .lexical span "malformed numeric literal: missing digits after radix prefix"
  | afterDigits c =>
    .lexical span ("malformed numeric literal: unexpected '" ++ c.toString ++ "' after digits")
  | unexpected c => .unexpectedChar span c

/-- The front of a text, with the number of characters that follow its first. -/
inductive Front where
  | gap (more : Nat)
  | token (t : Token) (more : Nat)
  | fault (f : LexicalFault) (more : Nat)
  deriving Repr

/-! ## Comments -/

/-- The number of characters before the line feed, or before the end of the text. -/
def lineRest (cs : List Char) : Nat :=
  (cs.takeWhile (· != '\n')).length

/-- The number of characters up to and including the first `*/`. -/
def commentRest : List Char → Option Nat
  | [] => none
  | [_] => none
  | c :: d :: cs => if c = '*' ∧ d = '/' then some 2 else (commentRest (d :: cs)).map (· + 1)

/-! ## Strings -/

/-- What an escape stands for : a character behind a backslash that has no meaning there
keeps its backslash. -/
def unescape : Char → List Char
  | 'n' => ['\n']
  | 't' => ['\t']
  | 'r' => ['\r']
  | '0' => ['\x00']
  | '\\' => ['\\']
  | '"' => ['"']
  | '\'' => ['\'']
  | c => ['\\', c]

/-- The rest of a string after its opening quote. -/
inductive StringRest where
  | closed (content : List Char) (taken : Nat)
  | broken (f : LexicalFault) (taken : Nat)
  deriving Repr

/-- The string rest with `content` and `taken` characters put before it. -/
def StringRest.push (content : List Char) (taken : Nat) : StringRest → StringRest
  | closed s n => closed (content ++ s) (taken + n)
  | broken f n => broken f (taken + n)

/-- Read the rest of a string that `quoteMark` closes. -/
def stringRest (quoteMark : Char) : List Char → StringRest
  | [] => .broken .openString 0
  | c :: cs =>
    if c = '\n' then .broken .openString 0
    else if c = quoteMark then .closed [] 1
    else if c = '\\' then
      match cs with
      | [] => .broken .openEscape 1
      | d :: ds => (stringRest quoteMark ds).push (unescape d) 2
    else (stringRest quoteMark cs).push [c] 1

/-! ## Numbers -/

/-- The radix that a letter after a leading `0` announces. -/
def radixOf? : Char → Option Nat
  | 'x' | 'X' => some 16
  | 'b' | 'B' => some 2
  | 'o' | 'O' => some 8
  | _ => none

/-- The number of decimal digits at the front of a text. -/
def digitCount (cs : List Char) : Nat :=
  (cs.takeWhile Char.isDigit).length

/-- The length of a fraction, which is a point and at least one digit. -/
def fractionLength : List Char → Nat
  | '.' :: cs => if digitCount cs = 0 then 0 else digitCount cs + 1
  | _ => 0

/-- The length of an exponent, which is `e`, a sign or none, and at least one digit. -/
def exponentLength : List Char → Nat
  | [] => 0
  | e :: cs =>
    if e = 'e' ∨ e = 'E' then
      match cs with
      | [] => 0
      | s :: ds =>
        if s = '+' ∨ s = '-' then if digitCount ds = 0 then 0 else digitCount ds + 2
        else if digitCount cs = 0 then 0 else digitCount cs + 1
    else 0

/-- The length of a decimal number : digits, a fraction or none, an exponent or none. -/
def decimalLength (cs : List Char) : Nat :=
  let whole := digitCount cs
  let fraction := fractionLength (cs.drop whole)
  whole + fraction + exponentLength (cs.drop (whole + fraction))

/-- The number at the front of a text. It may touch a unit spelling but no other word. -/
def numberOfLength (cs : List Char) (length : Nat) : Front :=
  match cs.drop length with
  | [] => .token (.number (String.ofList (cs.take length))) (length - 1)
  | c :: rest =>
    if isWordChar c && (longestUnit (c :: rest)).isNone then .fault (.afterDigits c) (length - 1)
    else .token (.number (String.ofList (cs.take length))) (length - 1)

/-- The front of a text that begins with a digit. -/
def numberFront : List Char → Front
  | '0' :: r :: cs =>
    match radixOf? r with
    | some radix =>
      let digits := (cs.takeWhile (isDigitOf radix)).length
      if digits = 0 then .fault .missingDigits 1 else numberOfLength ('0' :: r :: cs) (digits + 2)
    | none => numberOfLength ('0' :: r :: cs) (decimalLength ('0' :: r :: cs))
  | cs => numberOfLength cs (decimalLength cs)

/-! ## Words -/

/-- The token at the front of a text that begins with a letter or `_`. A unit spelling may
go on past the word it begins with, and counts only if it is no shorter than that word. -/
def wordFront (cs : List Char) : Token × Nat :=
  let word := String.ofList (cs.takeWhile isWordChar)
  match Keyword.ofText? word with
  | some k => (.keyword k, word.length)
  | none =>
    if word = "true" then (.truth true, word.length)
    else if word = "false" then (.truth false, word.length)
    else
      match longestUnit cs with
      | some u => if word.length ≤ u.length then (.unit u, u.length) else (.name word, word.length)
      | none => (.name word, word.length)

/-! ## Symbols -/

/-- The symbol that two characters spell. -/
def pairSymbol? : Char → Char → Option Symbol
  | '=', '=' => some .equal
  | '!', '=' => some .notEqual
  | '<', '>' => some .lessGreater
  | '<', '=' => some .lessEqual
  | '>', '=' => some .greaterEqual
  | '*', '*' => some .starStar
  | _, _ => none

/-- The symbol that one character spells. -/
def singleSymbol? : Char → Option Symbol
  | '=' => some .assign
  | '<' => some .less
  | '>' => some .greater
  | '+' => some .plus
  | '-' => some .minus
  | '*' => some .star
  | '/' => some .slash
  | '(' => some .leftParen
  | ')' => some .rightParen
  | '\x7b' => some .leftBrace
  | '\x7d' => some .rightBrace
  | '[' => some .leftBracket
  | ']' => some .rightBracket
  | ',' => some .comma
  | '.' => some .dot
  | ';' => some .semicolon
  | ':' => some .colon
  | _ => none

/-- The symbol at the front of a text, the longer of two that fit. -/
def symbolFront (c : Char) (cs : List Char) : Front :=
  match cs.head?.bind (pairSymbol? c) with
  | some s => .token (.symbol s) 1
  | none =>
    match singleSymbol? c with
    | some s => .token (.symbol s) 0
    | none => .fault (.unexpected c) 0

/-! ## The whole text -/

/-- The front of the text `c :: cs`. -/
def front (c : Char) (cs : List Char) : Front :=
  if c = '#' then .gap (lineRest cs)
  else if c = '/' ∧ cs.head? = some '*' then
    match commentRest cs.tail with
    | some n => .gap (n + 1)
    | none => .fault .openComment cs.length
  else if isBlank c then .gap 0
  else if c = '"' ∨ c = '\'' then
    match stringRest c cs with
    | .closed content n => .token (.string (String.ofList content)) n
    | .broken f n => .fault f n
  else if c.isDigit then numberFront (c :: cs)
  else if isWordStart c then
    match wordFront (c :: cs) with
    | (t, n) => .token t (n - 1)
  else if c = '%' then .token (.unit "%") 0
  else symbolFront c cs

/-- The tokens of a text that begins at `p`. -/
def tokensFrom (p : Place) : List Char → Except Diagnostic (List Located)
  | [] => .ok [⟨.eof, p.to p⟩]
  | c :: cs =>
    match front c cs with
    | .gap n => tokensFrom ((p.step c).after (cs.take n)) (cs.drop n)
    | .token t n =>
      let q := (p.step c).after (cs.take n)
      (tokensFrom q (cs.drop n)).map (⟨t, p.to q⟩ :: ·)
    | .fault f n => .error (f.diagnostic (p.to ((p.step c).after (cs.take n))))
termination_by cs => cs.length
decreasing_by all_goals simp only [List.length_cons, List.length_drop]; omega

/-- The tokens of a text. -/
def tokenize (text : String) : Except Diagnostic (List Located) :=
  tokensFrom .origin text.toList

end OpsLang
