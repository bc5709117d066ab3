import OpsLang.Text.Digit
import OpsLang.Toml

/-!
# Reading TOML documents

`Toml.ofText?` reads a document of TOML 1.0 and refuses everything else, as well as values
that nest deeper than `maxNesting` and numbers that are too great (`integer?`, `real?`). The
readers take what they need off the front of a text and hand on the rest. Where a reader has
a first argument `fuel`, it bounds the number of steps, and the length of the text is always
enough.
-/

namespace OpsLang

namespace Toml

/-- The most brackets and braces that may be open at once, and the most segments of a key. -/
def maxNesting : Nat := 79

/-! ## Blanks, comments and line ends -/

/-- A blank within a line. -/
def isSpace (c : Char) : Bool :=
  c == ' ' || c == '\t'

/-- The text after its blanks. -/
def skipSpace (cs : List Char) : List Char :=
  cs.dropWhile isSpace

/-- The character may stand in a comment, and in a string unless it ends it. -/
def isText (c : Char) : Bool :=
  c == '\t' || (0x20 ≤ c.toNat && c != '\x7f')

/-- The text after a line end. -/
def afterLineEnd? : List Char → Option (List Char)
  | '\n' :: cs => some cs
  | '\r' :: '\n' :: cs => some cs
  | _ => none

/-- The text after a comment, if there is one. -/
def skipComment : List Char → List Char
  | '#' :: cs => cs.dropWhile isText
  | cs => cs

/-- The text after the rest of a line that holds nothing more. -/
def afterLine? (cs : List Char) : Option (List Char) :=
  match skipComment (skipSpace cs) with
  | [] => some []
  | cs => afterLineEnd? cs

/-- The text after blanks, comments and line ends; `fuel` bounds the number of lines. -/
def skipLines : Nat → List Char → List Char
  | 0, cs => cs
  | fuel + 1, cs =>
    let cs := skipComment (skipSpace cs)
    match afterLineEnd? cs with
    | some rest => skipLines fuel rest
    | none => cs

/-- The text after blanks and line ends. -/
def skipBreaks : List Char → List Char
  | ' ' :: cs => skipBreaks cs
  | '\t' :: cs => skipBreaks cs
  | '\n' :: cs => skipBreaks cs
  | '\r' :: '\n' :: cs => skipBreaks cs
  | cs => cs

/-! ## Strings -/

/-- The character of an escaped number, which has to be a scalar value. -/
def scalar? (digits : List Char) : Option Char :=
  let n := digitsValue 16 digits
  if digits.all (isDigitOf 16) ∧ n.isValidChar then some (Char.ofNat n) else none

/-- The character of an escape and the text after it. -/
def escape? : List Char → Option (Char × List Char)
  | 'b' :: cs => some ('\x08', cs)
  | 't' :: cs => some ('\t', cs)
  | 'n' :: cs => some ('\n', cs)
  | 'f' :: cs => some ('\x0c', cs)
  | 'r' :: cs => some ('\r', cs)
  | '"' :: cs => some ('"', cs)
  | '\\' :: cs => some ('\\', cs)
  | 'u' :: cs => if 4 ≤ cs.length then (scalar? (cs.take 4)).map (·, cs.drop 4) else none
  | 'U' :: cs => if 8 ≤ cs.length then (scalar? (cs.take 8)).map (·, cs.drop 8) else none
  | _ => none

/-- What a string has read so far with one more character. -/
def pushChar (c : Char) (r : Option (List Char × List Char)) : Option (List Char × List Char) :=
  r.map fun p => (c :: p.1, p.2)

/-- The rest of a string on one line. Only between double quotes is a backslash an escape. -/
def lineString (quoteMark : Char) : Nat → List Char → Option (List Char × List Char)
  | 0, _ => none
  | fuel + 1, cs =>
    match cs with
    | [] => none
    | c :: cs =>
      if c = quoteMark then some ([], cs)
      else if c = '\\' ∧ quoteMark = '"' then do
        let (e, rest) ← escape? cs
        pushChar e (lineString quoteMark fuel rest)
      else if isText c then pushChar c (lineString quoteMark fuel cs)
      else none

/-- The number of marks at the front of a text. -/
def markCount (quoteMark : Char) (cs : List Char) : Nat :=
  (cs.takeWhile (· == quoteMark)).length

/-- The rest of a string on several lines. It ends at three marks, before which it may hold
two more. A backslash at the end of a line takes away the blanks and line ends after it. -/
def blockString (quoteMark : Char) : Nat → List Char → Option (List Char × List Char)
  | 0, _ => none
  | fuel + 1, cs =>
    match cs with
    | [] => none
    | c :: rest =>
      if c = quoteMark then
        let n := markCount quoteMark cs
        if n < 3 then pushChar c (blockString quoteMark fuel rest)
        else if n ≤ 5 then some (List.replicate (n - 3) quoteMark, cs.drop n)
        else none
      else if c = '\\' ∧ quoteMark = '"' then
        match afterLineEnd? (skipSpace rest) with
        | some next => blockString quoteMark fuel (skipBreaks next)
        | none => do
          let (e, rest) ← escape? rest
          pushChar e (blockString quoteMark fuel rest)
      else
        match afterLineEnd? cs with
        | some rest => pushChar '\n' (blockString quoteMark fuel rest)
        | none => if isText c then pushChar c (blockString quoteMark fuel rest) else none

/-- The rest of a string after its first mark. -/
def stringValue (quoteMark : Char) (cs : List Char) : Option (List Char × List Char) :=
  match cs with
  | a :: b :: rest =>
    if a = quoteMark ∧ b = quoteMark then
      blockString quoteMark (rest.length + 1) ((afterLineEnd? rest).getD rest)
    else lineString quoteMark (cs.length + 1) cs
  | _ => lineString quoteMark (cs.length + 1) cs

/-! ## Keys -/

/-- The character may stand in a key without quotes. -/
def isBareKey (c : Char) : Bool :=
  c.isAlphanum || c == '_' || c == '-'

/-- One segment of a key. -/
def keySegment : List Char → Option (String × List Char)
  | '"' :: cs => (lineString '"' (cs.length + 1) cs).map fun p => (String.ofList p.1, p.2)
  | '\'' :: cs => (lineString '\'' (cs.length + 1) cs).map fun p => (String.ofList p.1, p.2)
  | cs =>
    match cs.takeWhile isBareKey with
    | [] => none
    | ks => some (String.ofList ks, cs.dropWhile isBareKey)

/-- The segments of a key before the last, the last one, and the text after it. -/
def keySegments : Nat → List Char → Option ((List String × String) × List Char)
  | 0, _ => none
  | fuel + 1, cs => do
    let (k, rest) ← keySegment (skipSpace cs)
    match skipSpace rest with
    | '.' :: rest =>
      let ((ks, last), rest) ← keySegments fuel rest
      return ((k :: ks, last), rest)
    | rest => return (([], k), rest)

/-- A key, of at most `maxNesting` segments. -/
def key (cs : List Char) : Option ((List String × String) × List Char) :=
  (keySegments (cs.length + 1) cs).filter fun p => p.1.1.length < maxNesting

/-! ## Numbers, dates and times -/

/-- Digits of a radix, with single underscores between them. -/
def isDigitRow (radix : Nat) : List Char → Bool
  | [] => false
  | [c] => isDigitOf radix c
  | c :: '_' :: cs => isDigitOf radix c && isDigitRow radix cs
  | c :: cs => isDigitOf radix c && isDigitRow radix cs

/-- The value of digits with underscores between them. -/
def rowValue (radix : Nat) (cs : List Char) : Int :=
  digitsValue radix (cs.filter (· != '_'))

/-- The text without the sign before it. -/
def dropSign : List Char → List Char
  | '+' :: cs => cs
  | '-' :: cs => cs
  | cs => cs

/-- The digits of a decimal integer, which begin with zero only if that is all. -/
def isWhole (cs : List Char) : Bool :=
  isDigitRow 10 cs && (cs.head? != some '0' || cs.length == 1)

/-- The integer that a word spells. -/
def integer? (cs : List Char) : Option Int :=
  let within (n : Int) : Option Int :=
    if Int64.minValue.toInt ≤ n ∧ n ≤ Int64.maxValue.toInt then some n else none
  match cs with
  | '0' :: 'x' :: ds => if isDigitRow 16 ds then within (rowValue 16 ds) else none
  | '0' :: 'o' :: ds => if isDigitRow 8 ds then within (rowValue 8 ds) else none
  | '0' :: 'b' :: ds => if isDigitRow 2 ds then within (rowValue 2 ds) else none
  | cs =>
    if isWhole (dropSign cs) then
      let n := rowValue 10 (dropSign cs)
      within (if cs.head? = some '-' then -n else n)
    else none

/-- The character begins an exponent. -/
def isExponentMark (c : Char) : Bool :=
  c == 'e' || c == 'E'

/-- The exponent of a number, or nothing. -/
def isExponent : List Char → Bool
  | [] => true
  | c :: cs => isExponentMark c && isDigitRow 10 (dropSign cs)

/-- The word spells a number with a fraction, an exponent or both, or a special number. -/
def isReal (cs : List Char) : Bool :=
  let cs := dropSign cs
  let whole := cs.takeWhile fun c => c.isDigit || c == '_'
  let rest := cs.drop whole.length
  cs == ['i', 'n', 'f'] || cs == ['n', 'a', 'n'] ||
    (isWhole whole &&
      match rest with
      | '.' :: ds =>
        let fraction := ds.takeWhile fun c => c.isDigit || c == '_'
        isDigitRow 10 fraction && isExponent (ds.drop fraction.length)
      | [] => false
      | rest => isExponent rest)

/-- The number that a word with a fraction or an exponent spells, or a special one. Infinity
has to be spelled : a word of digits that rounds to it is refused. Negative infinity may be
the value of digits. -/
def real? (cs : List Char) : Option Binary64 :=
  if isReal cs then
    (Binary64.ofDecimal? (String.ofList (cs.filter (· != '_')))).filter fun x =>
      x != Binary64.infinity || dropSign cs == ['i', 'n', 'f']
  else none

/-- The number of two digits. -/
def twoDigits? : List Char → Option Nat
  | [a, b] => if a.isDigit && b.isDigit then some (digitsValue 10 [a, b]) else none
  | _ => none

/-- The number of days of a month. -/
def daysIn (year month : Nat) : Nat :=
  if month = 2 then
    if year % 4 = 0 ∧ (year % 100 ≠ 0 ∨ year % 400 = 0) then 29 else 28
  else if month = 4 ∨ month = 6 ∨ month = 9 ∨ month = 11 then 30
  else 31

/-- The word spells a day of the calendar. -/
def isDate : List Char → Bool
  | [y₁, y₂, y₃, y₄, '-', m₁, m₂, '-', d₁, d₂] =>
    match twoDigits? [m₁, m₂], twoDigits? [d₁, d₂] with
    | some month, some day =>
      [y₁, y₂, y₃, y₄].all Char.isDigit && 1 ≤ month && month ≤ 12 && 1 ≤ day &&
        day ≤ daysIn (digitsValue 10 [y₁, y₂, y₃, y₄]) month
    | _, _ => false
  | _ => false

/-- The word is two numbers of two digits around a colon, up to the given bounds. -/
def isClock (maxHour : Nat) : List Char → Bool
  | [h₁, h₂, ':', m₁, m₂] =>
    match twoDigits? [h₁, h₂], twoDigits? [m₁, m₂] with
    | some hour, some minute => hour ≤ maxHour && minute ≤ 59
    | _, _ => false
  | _ => false

/-- The word is a fraction of a second, or nothing. -/
def isSecondFraction : List Char → Bool
  | [] => true
  | '.' :: ds => !ds.isEmpty && ds.all Char.isDigit
  | _ => false

/-- The word spells a time of day. -/
def isTime (cs : List Char) : Bool :=
  isClock 23 (cs.take 5) &&
    match cs.drop 5 with
    | ':' :: s₁ :: s₂ :: rest => (twoDigits? [s₁, s₂]).any (· ≤ 60) && isSecondFraction rest
    | _ => false

/-- The word spells a time of day with an offset or none. -/
def isZonedTime (cs : List Char) : Bool :=
  let time := cs.takeWhile fun c => c.isDigit || c == ':' || c == '.'
  isTime time &&
    match cs.drop time.length with
    | [] => true
    | ['Z'] | ['z'] => true
    | '+' :: offset => isClock 23 offset
    | '-' :: offset => isClock 23 offset
    | _ => false

/-- The word spells a date, a time or both. -/
def isMoment (cs : List Char) : Bool :=
  isDate cs || isTime cs ||
    (isDate (cs.take 10) &&
      match cs.drop 10 with
      | c :: time => (c == 'T' || c == 't' || c == ' ') && isZonedTime time
      | [] => false)

/-- The character may stand in the word of a number, a date or a time. -/
def isWordPart (c : Char) : Bool :=
  c.isAlphanum || c == '_' || c == '+' || c == '-' || c == '.' || c == ':'

/-- The word at the front of a text. A date takes the time after a blank with it. -/
def splitWord (cs : List Char) : List Char × List Char :=
  let word := cs.takeWhile isWordPart
  let rest := cs.dropWhile isWordPart
  match rest with
  | ' ' :: d :: more =>
    if isDate word && d.isDigit then
      (word ++ ' ' :: (d :: more).takeWhile isWordPart, (d :: more).dropWhile isWordPart)
    else (word, rest)
  | _ => (word, rest)

/-- The value that a word spells. -/
def scalarValue? (word : List Char) : Option Toml :=
  if word = ['t', 'r', 'u', 'e'] then some (.truth true)
  else if word = ['f', 'a', 'l', 's', 'e'] then some (.truth false)
  else
    match integer? word, real? word with
    | some n, _ => some (.integer n)
    | none, some x => some (.real x)
    | none, none => if isMoment word then some (.moment (String.ofList word)) else none

/-! ## Values -/

mutual

/-- The value at the front of a text; `room` is how many brackets and braces may still open. -/
def value : Nat → Nat → List Char → Option (Toml × List Char)
  | 0, _, _ => none
  | fuel + 1, room, cs =>
    match cs with
    | [] => none
    | '"' :: cs => (stringValue '"' cs).map fun p => (.string (String.ofList p.1), p.2)
    | '\'' :: cs => (stringValue '\'' cs).map fun p => (.string (String.ofList p.1), p.2)
    | '[' :: cs =>
      match room with
      | 0 => none
      | room + 1 => (items fuel room (skipLines cs.length cs)).map fun p => (.array p.1, p.2)
    | '\x7b' :: cs =>
      match room, skipSpace cs with
      | 0, _ => none
      | _ + 1, '\x7d' :: rest => some (.table .inline_ [], rest)
      | room + 1, rest => do
        let (ps, rest) ← pairs fuel room rest
        return (.table .inline_ (← addPairs ps []), rest)
    | cs =>
      let (word, rest) := splitWord cs
      (scalarValue? word).map (·, rest)

/-- The items of an array, up to the bracket that closes it. A comma may follow the last. -/
def items : Nat → Nat → List Char → Option (List Toml × List Char)
  | 0, _, _ => none
  | fuel + 1, room, cs =>
    match cs with
    | ']' :: rest => some ([], rest)
    | cs => do
      let (v, rest) ← value fuel room cs
      match skipLines rest.length rest with
      | ']' :: rest => return ([v], rest)
      | ',' :: rest =>
        let (vs, rest) ← items fuel room (skipLines rest.length rest)
        return (v :: vs, rest)
      | _ => none

/-- The pairs of an inline table, up to the brace that closes it. -/
def pairs : Nat → Nat → List Char → Option (List Pair × List Char)
  | 0, _, _ => none
  | fuel + 1, room, cs => do
    let ((path, k), rest) ← key cs
    match rest with
    | '=' :: rest =>
      let (v, rest) ← value fuel room (skipSpace rest)
      match skipSpace rest with
      | '\x7d' :: rest => return ([⟨path, k, v⟩], rest)
      | ',' :: rest =>
        let (ps, rest) ← pairs fuel room rest
        return (⟨path, k, v⟩ :: ps, rest)
      | _ => none
    | _ => none

end

/-! ## Documents -/

/-- The pairs of a table of a document, one on a line, up to a header or the end. -/
def body : Nat → List Char → Option (List Pair × List Char)
  | 0, _ => none
  | fuel + 1, cs =>
    match skipLines cs.length cs with
    | [] => some ([], [])
    | '[' :: rest => some ([], '[' :: rest)
    | cs => do
      let ((path, k), rest) ← key cs
      match rest with
      | '=' :: rest =>
        let (v, rest) ← value (rest.length + 1) maxNesting (skipSpace rest)
        let (ps, rest) ← body fuel (← afterLine? rest)
        return (⟨path, k, v⟩ :: ps, rest)
      | _ => none

/-- The path of a header and the text after its line, given the text after its brackets
open; `closing` is what closes them. -/
def headerPath (closing : List Char) (cs : List Char) :
    Option ((List String × String) × List Char) := do
  let (path, rest) ← key cs
  if closing.isPrefixOf rest then return (path, ← afterLine? (rest.drop closing.length)) else none

/-- The tables of a document, added to `es`. -/
def sections : Nat → List Char → Entries → Option Entries
  | 0, _, _ => none
  | fuel + 1, cs, es =>
    match cs with
    | [] => some es
    | '[' :: '[' :: cs => do
      let ((path, k), rest) ← headerPath [']', ']'] cs
      let (ps, rest) ← body (rest.length + 1) rest
      sections fuel rest (← addArrayTable path k ps es)
    | '[' :: cs => do
      let ((path, k), rest) ← headerPath [']'] cs
      let (ps, rest) ← body (rest.length + 1) rest
      sections fuel rest (← addTable path k ps es)
    | _ => none

/-- The document that a text is, as a table. A byte order mark may stand before it. -/
def ofText? (text : String) : Option Toml := do
  let cs := if text.toList.head? = some '\ufeff' then text.toList.tail else text.toList
  let (ps, rest) ← body (cs.length + 1) cs
  return .table .header (← sections (rest.length + 1) rest (← addPairs ps []))

end Toml

end OpsLang
