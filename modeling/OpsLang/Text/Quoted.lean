import OpsLang.Text.Combining
import OpsLang.Text.Unprintable

/-!
# Quoted text

A text between double quotes is written in two ways. `quote` is the written form of the
language : the six characters of `shortEscape?` stand behind a backslash and all others
stand for themselves. `quoteListed` is the form for listings : besides, a code point that is
unprintable or combining is written as its number (`numbered`).
-/

namespace OpsLang

/-- The letter that stands for a character behind a backslash, for the characters that
have one. -/
def shortEscape? : Char → Option Char
  | '"' => some '"'
  | '\\' => some '\\'
  | '\n' => some 'n'
  | '\t' => some 't'
  | '\r' => some 'r'
  | '\x00' => some '0'
  | _ => none

/-- One character inside quotes. -/
def quoteChar (c : Char) : List Char :=
  match shortEscape? c with
  | some e => ['\\', e]
  | none => [c]

/-- The number of a code point in lower-case hexadecimal, between braces. -/
def numbered (c : Char) : List Char :=
  ['\\', 'u', '\x7b'] ++ Nat.toDigits 16 c.toNat ++ ['\x7d']

/-- One character inside the quotes of a listing. -/
def listedChar (c : Char) : List Char :=
  match shortEscape? c with
  | some e => ['\\', e]
  | none => if isCombining c || isUnprintable c then numbered c else [c]

/-- The text between double quotes, as the language writes it. -/
def quote (s : String) : String :=
  String.ofList ('"' :: s.toList.flatMap quoteChar ++ ['"'])

/-- The text between double quotes, with every code point visible. -/
def quoteListed (s : String) : String :=
  String.ofList ('"' :: s.toList.flatMap listedChar ++ ['"'])

end OpsLang
