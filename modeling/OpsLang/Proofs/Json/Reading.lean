import Mathlib.Data.List.TakeDrop
import OpsLang.Json.Reader
import OpsLang.Proofs.Canonical.File

/-!
# The text of a value is read back

The reader of JSON takes the text of a value off the front of any text and hands on the rest.
`Json.Reads` says so of a value and a text, with enough depth and, as digits would lengthen a
number, with no digit behind. It has one lemma for each kind of value, in which blanks stand
wherever JSON has them; `Json.reads_prettyAt` puts the layout together from these.

A number with a fraction or an exponent keeps whatever spelling it was given, so the text of a
value is read back if each of them is spelled as JSON spells it (`Json.Spelled`), and so if it holds
none (`Json.Whole`).
-/

namespace OpsLang

namespace Json

/-! ## Strings -/

theorem hexUnit?_fourHex {n : Nat} (hn : n < 32) : ∃ a b c d, fourHex n = [a, b, c, d] ∧
    hexUnit? a b c d = some n := by
  have h : fourHex n = ['0', '0', Nat.digitChar (n / 16), Nat.digitChar (n % 16)] ∧
      hexUnit? '0' '0' (Nat.digitChar (n / 16)) (Nat.digitChar (n % 16)) = some n := by
    revert n
    decide
  exact ⟨_, _, _, _, h⟩

/-- The number of a control character is read as it, also where another number follows. -/
theorem stringBody_unit {a b c d : Char} {n : Nat} (h : hexUnit? a b c d = some n) (hn : n < 32)
    (cs : List Char) : stringBody ('\\' :: 'u' :: a :: b :: c :: d :: cs) =
      pushChar (Char.ofNat n) (stringBody cs) := by
  have hhigh : ¬(0xD800 ≤ n ∧ n < 0xDC00) := by omega
  have hlow : ¬(0xDC00 ≤ n ∧ n < 0xE000) := by omega
  have hneither : ¬(0xD800 ≤ n ∧ n < 0xE000) := by omega
  by_cases hcs : ∃ e f g h ds, cs = '\\' :: 'u' :: e :: f :: g :: h :: ds
  · obtain ⟨e, f, g, h', ds, rfl⟩ := hcs
    rw [stringBody.eq_3, h, Option.bind_eq_bind, Option.bind_some, if_neg hhigh, if_neg hlow]
  · rw [stringBody.eq_4 _ _ _ _ _ fun e f g h' ds heq => hcs ⟨e, f, g, h', ds, heq⟩, h,
      Option.bind_eq_bind, Option.bind_some, if_neg hneither]

theorem stringBody_escape {e c : Char} (h : plainEscape? e = some c) (cs : List Char) :
    stringBody ('\\' :: e :: cs) = pushChar c (stringBody cs) := by
  have hu : e ≠ 'u' := by
    rintro rfl
    cases h
  rw [stringBody.eq_5 _ _ (fun _ _ _ _ _ _ _ _ _ he _ => hu he) fun _ _ _ _ _ he _ => hu he, h]
  rfl

theorem stringBody_plain {c : Char} (hq : c ≠ '"') (hb : c ≠ '\\') (hc : ¬c.toNat < 32)
    (cs : List Char) : stringBody (c :: cs) = pushChar c (stringBody cs) := by
  rw [stringBody.eq_6 _ _ hq (fun _ _ _ _ _ _ _ _ _ h _ => hb h) (fun _ _ _ _ _ h _ => hb h)
    fun _ _ h _ => hb h, if_neg (not_or.2 ⟨hb, hc⟩)]

/-- A character is escaped by a letter, by its number, or not at all. -/
theorem escapeChar_cases (c : Char) :
    (∃ e, escapeChar c = ['\\', e] ∧ plainEscape? e = some c) ∨
      (c.toNat < 32 ∧ escapeChar c = '\\' :: 'u' :: fourHex c.toNat) ∨
      (c ≠ '"' ∧ c ≠ '\\' ∧ ¬c.toNat < 32 ∧ escapeChar c = [c]) := by
  by_cases hnamed : c ∈ ['"', '\\', '\x08', '\x0c', '\n', '\r', '\t']
  · simp only [List.mem_cons, List.not_mem_nil, or_false] at hnamed
    rcases hnamed with rfl | rfl | rfl | rfl | rfl | rfl | rfl <;> exact .inl ⟨_, rfl, rfl⟩
  · simp only [List.mem_cons, List.not_mem_nil, or_false, not_or] at hnamed
    by_cases hc : c.toNat < 32
    · exact .inr (.inl ⟨hc, by simp [escapeChar, hnamed, hc]⟩)
    · exact .inr (.inr ⟨hnamed.1, hnamed.2.1, hc, by simp [escapeChar, hnamed, hc]⟩)

theorem stringBody_escapeChar (c : Char) (cs : List Char) :
    stringBody (escapeChar c ++ cs) = pushChar c (stringBody cs) := by
  obtain ⟨e, heq, he⟩ | ⟨hc, heq⟩ | ⟨hq, hb, hc, heq⟩ := escapeChar_cases c
  · rw [heq]
    exact stringBody_escape he cs
  · obtain ⟨a, b, c', d, hfour, hunit⟩ := hexUnit?_fourHex hc
    rw [heq, hfour]
    exact (stringBody_unit hunit hc cs).trans (by rw [Char.ofNat_toNat])
  · rw [heq]
    exact stringBody_plain hq hb hc cs

/-- A string is read up to its closing quote, whatever characters it has. -/
theorem stringBody_quoted (s rest : List Char) :
    stringBody (s.flatMap escapeChar ++ '"' :: rest) = some (s, rest) := by
  induction s with
  | nil => rw [List.flatMap_nil, List.nil_append, stringBody]
  | cons c s ih =>
    rw [List.flatMap_cons, List.append_assoc, stringBody_escapeChar, ih]
    rfl

theorem toList_quoted (s : String) :
    (quoted s).toList = '"' :: (s.toList.flatMap escapeChar ++ ['"']) :=
  String.toList_ofList

/-! ## Numbers -/

/-- No digit, fraction or exponent stands at the front of the text. -/
def EndsNumber (rest : List Char) : Prop :=
  ∀ c ∈ rest.head?, c.isDigit = false ∧ c ≠ '.' ∧ c ≠ 'e' ∧ c ≠ 'E'

theorem digits_append {ds rest : List Char} (hds : ∀ d ∈ ds, d.isDigit = true)
    (hrest : ∀ c ∈ rest.head?, c.isDigit = false) : digits (ds ++ rest) = (ds, rest) := by
  have hnone : rest.takeWhile Char.isDigit = [] ∧ rest.dropWhile Char.isDigit = rest := by
    cases rest with
    | nil => exact ⟨rfl, rfl⟩
    | cons c rest => simp [hrest c rfl]
  rw [digits, List.span_eq_takeWhile_dropWhile, List.takeWhile_append_of_pos hds,
    List.dropWhile_append_of_pos hds, hnone.1, hnone.2, List.append_nil]

theorem fraction_of_endsNumber {rest : List Char} (h : EndsNumber rest) :
    fraction rest = some ([], rest) := by
  cases rest with
  | nil => rfl
  | cons c rest => exact fraction.eq_2 _ fun cs heq => (h c rfl).2.1 (List.cons.inj heq).1

theorem exponent_of_endsNumber {rest : List Char} (h : EndsNumber rest) :
    exponent rest = some ([], rest) := by
  cases rest with
  | nil => rfl
  | cons c rest => rw [exponent, if_neg (not_or.2 (h c rfl).2.2)]

/-- The decimal digits of a number that is not zero do not begin with one. -/
theorem head?_toDigits_ne_zero {n : Nat} (hn : n ≠ 0) : (Nat.toDigits 10 n).head? ≠ some '0' := by
  induction n using Nat.strongRecOn with
  | ind n ih =>
    by_cases hlt : n < 10
    · have hdigit : ∀ n < 10, n ≠ 0 → [Nat.digitChar n].head? ≠ some '0' := by decide
      rw [Nat.toDigits_of_lt_base hlt]
      exact hdigit n hlt hn
    · have hhead := ih (n / 10) (by omega) (by omega)
      rw [Nat.toDigits_of_base_le (by omega) (by omega), List.head?_append]
      cases hds : Nat.toDigits 10 (n / 10) with
      | nil => exact absurd hds Nat.toDigits_ne_nil
      | cons d ds =>
        rw [hds] at hhead
        exact hhead

/-- The decimal digits of a number have no zero to spare. -/
theorem decimal_ne_zero_cons (n : Nat) (d : Char) (ds : List Char) :
    (toString n).toList ≠ '0' :: d :: ds := by
  rw [Nat.toString_eq_repr, Nat.toList_repr]
  rcases eq_or_ne n 0 with rfl | hn
  · simp
  · intro h
    exact head?_toDigits_ne_zero hn (by rw [h]; rfl)

theorem unsigned_decimal {negative : Bool} {n : Nat} (hn : negative = true → n ≠ 0)
    {rest : List Char} (h : EndsNumber rest) :
    unsigned negative ((toString n).toList ++ rest) =
      some (.integer (if negative then -n else n), rest) := by
  have hzero : (negative && n == 0) = false := by
    cases negative
    · rfl
    · simpa using hn rfl
  rw [unsigned, digits_append (fun d => isDigit_of_mem_decimal) fun c hc => (h c hc).1]
  split
  · next heq => exact absurd (Prod.mk.inj heq).1 (decimal_ne_nil n)
  · next heq => exact absurd (Prod.mk.inj heq).1 (decimal_ne_zero_cons n _ _)
  · next heq =>
    obtain ⟨rfl, rfl⟩ := Prod.mk.inj heq
    simp only [fraction_of_endsNumber h, exponent_of_endsNumber h, digitsValue_decimal, hzero,
      Option.bind_eq_bind, Option.bind_some, List.isEmpty_nil, Bool.and_self, Bool.not_false,
      if_true]
    rfl

theorem exists_decimal_cons (n : Nat) :
    ∃ d ds, (toString n).toList = d :: ds ∧ d.isDigit = true := by
  cases hds : (toString n).toList with
  | nil => exact absurd hds (decimal_ne_nil n)
  | cons d ds => exact ⟨d, ds, rfl, isDigit_of_mem_decimal (hds ▸ List.mem_cons_self)⟩

theorem toList_integer (n : Int) : (toString n).toList =
    if 0 ≤ n then (toString n.toNat).toList else '-' :: (toString (-n).toNat).toList := by
  rw [Int.toString_eq_repr, Int.repr_eq_if, ← Nat.toString_eq_repr, ← Nat.toString_eq_repr]
  split
  · rfl
  · exact String.toList_append

/-- An integer is read up to the end of its digits. -/
theorem number_integer (n : Int) {rest : List Char} (h : EndsNumber rest) :
    number ((toString n).toList ++ rest) = some (.integer n, rest) := by
  rw [toList_integer]
  split
  · next hn =>
    have hminus : ∀ cs, (toString n.toNat).toList ++ rest ≠ '-' :: cs := by
      intro cs heq
      obtain ⟨d, ds, hds, hd⟩ := exists_decimal_cons n.toNat
      rw [hds] at heq
      rw [(List.cons.inj heq).1] at hd
      cases hd
    rw [number.eq_2 _ hminus, unsigned_decimal (by simp) h, if_neg (by simp),
      Int.toNat_of_nonneg hn]
  · next hn =>
    rw [List.cons_append, number, unsigned_decimal (by omega) h, if_pos rfl,
      Int.toNat_of_nonneg (by omega), Int.neg_neg]

/-! ## Numbers with a fraction or an exponent -/

/-- The characters are digits, and there is one at least. -/
def AreDigits (ds : List Char) : Prop :=
  ds ≠ [] ∧ ∀ d ∈ ds, d.isDigit = true

/-- The fraction of a number, which may be missing. -/
inductive IsFraction : List Char → Prop
  | missing : IsFraction []
  | digits {ds : List Char} (h : AreDigits ds) : IsFraction ('.' :: ds)

/-- The exponent of a number, which may be missing. -/
inductive IsExponent : List Char → Prop
  | missing : IsExponent []
  | digits {e : Char} {sign ds : List Char} (he : e = 'e' ∨ e = 'E')
      (hsign : sign = [] ∨ sign = ['+'] ∨ sign = ['-']) (h : AreDigits ds) :
      IsExponent (e :: (sign ++ ds))

/-- The text is a number that is no integer : it has a fraction or an exponent, or is minus zero.
There is no zero to spare before its first digit. -/
def IsReal (s : String) : Prop :=
  ∃ (negative : Bool) (ds fr ex : List Char),
    s.toList = (if negative then ['-'] else []) ++ ds ++ fr ++ ex ∧
    AreDigits ds ∧ (∀ d ds', ds ≠ '0' :: d :: ds') ∧ IsFraction fr ∧ IsExponent ex ∧
    (fr = [] → ex = [] → negative = true ∧ ds = ['0'])

section Reals

variable {ds fr ex rest : List Char}

theorem AreDigits.exists_cons (h : AreDigits ds) : ∃ d ds', ds = d :: ds' ∧ d.isDigit = true := by
  obtain ⟨d, ds', rfl⟩ := List.exists_cons_of_ne_nil h.1
  exact ⟨d, ds', rfl, h.2 d List.mem_cons_self⟩

theorem ne_of_isDigit {c d : Char} (hc : c.isDigit = true) (hd : d.isDigit = false) : c ≠ d := by
  rintro rfl
  exact Bool.false_ne_true (hd.symm.trans hc)

/-- Digits that a reader of digits takes are some, and neither it nor a sign stops before them. -/
theorem digits_of_areDigits (h : AreDigits ds) (hrest : ∀ c ∈ rest.head?, c.isDigit = false) :
    ∃ d ds', ds = d :: ds' ∧ digits (ds ++ rest) = (d :: ds', rest) ∧
      exponentSign (ds ++ rest) = ([], ds ++ rest) := by
  obtain ⟨d, ds', hds, hd⟩ := h.exists_cons
  refine ⟨d, ds', hds, hds ▸ digits_append h.2 hrest, ?_⟩
  rw [hds, List.cons_append]
  exact exponentSign.eq_3 _ (fun _ heq => ne_of_isDigit hd rfl (List.cons.inj heq).1)
    fun _ heq => ne_of_isDigit hd rfl (List.cons.inj heq).1

/-- No digit and no point stands at the front of an exponent, nor behind a missing one. -/
theorem IsExponent.head (h : IsExponent ex) (hrest : EndsNumber rest) :
    ∀ c ∈ (ex ++ rest).head?, c.isDigit = false ∧ c ≠ '.' := by
  intro c hc
  cases h with
  | missing => exact ⟨(hrest c hc).1, (hrest c hc).2.1⟩
  | digits he _ _ =>
    cases hc
    obtain rfl | rfl := he <;> decide

/-- No digit stands at the front of a fraction with its exponent. -/
theorem IsFraction.head (h : IsFraction fr) (hex : IsExponent ex) (hrest : EndsNumber rest) :
    ∀ c ∈ (fr ++ (ex ++ rest)).head?, c.isDigit = false := by
  intro c hc
  cases h with
  | missing => exact (hex.head hrest c hc).1
  | digits _ =>
    cases hc
    rfl

theorem IsFraction.run (h : IsFraction fr) (hrest : ∀ c ∈ rest.head?, c.isDigit = false ∧ c ≠ '.') :
    fraction (fr ++ rest) = some (fr, rest) := by
  cases h with
  | missing =>
    cases rest with
    | nil => rfl
    | cons c rest => exact fraction.eq_2 _ fun cs heq => (hrest c rfl).2 (List.cons.inj heq).1
  | digits hds =>
    obtain ⟨d, ds', rfl, hrun, -⟩ := digits_of_areDigits hds fun c hc => (hrest c hc).1
    rw [List.cons_append, fraction, hrun]

theorem IsExponent.run (h : IsExponent ex) (hrest : EndsNumber rest) :
    exponent (ex ++ rest) = some (ex, rest) := by
  cases h with
  | missing => exact exponent_of_endsNumber hrest
  | @digits e sign ds he hsign hds =>
    obtain ⟨d, ds', rfl, hrun, hbare⟩ := digits_of_areDigits hds fun c hc => (hrest c hc).1
    have hread : exponentSign (sign ++ (d :: ds') ++ rest) = (sign, d :: ds' ++ rest) := by
      obtain rfl | rfl | rfl := hsign
      · exact hbare
      · rfl
      · rfl
    rw [List.cons_append, exponent, if_pos he]
    simp only [hread, hrun]
    rfl

/-- A number that is no integer is read up to its end, and keeps its spelling. -/
theorem number_real {s : String} (h : IsReal s) (hrest : EndsNumber rest) :
    number (s.toList ++ rest) = some (.real s, rest) := by
  obtain ⟨negative, ds, fr, ex, hs, hds, hzero, hfr, hex, hinteger⟩ := h
  obtain ⟨d, ds', rfl, hrun, -⟩ := digits_of_areDigits hds (hfr.head hex hrest)
  have hreal : (fr.isEmpty && ex.isEmpty && !(negative && digitsValue 10 (d :: ds') == 0)) =
      false := by
    rw [← Bool.not_eq_true]
    intro hboth
    simp only [Bool.and_eq_true, List.isEmpty_iff] at hboth
    obtain ⟨rfl, hdigits⟩ := hinteger hboth.1.1 hboth.1.2
    rw [hdigits] at hboth
    exact absurd hboth.2 (by decide)
  have hunsigned : unsigned negative (d :: ds' ++ (fr ++ (ex ++ rest))) = some (.real s, rest) := by
    rw [unsigned, hrun]
    split
    · next heq => cases heq
    · next heq => exact absurd (Prod.mk.inj heq).1 (hzero _ _)
    · next heq =>
      obtain ⟨rfl, rfl⟩ := Prod.mk.inj heq
      simp only [hfr.run (hex.head hrest), hex.run hrest, hreal, Option.bind_eq_bind,
        Option.bind_some, ← hs, String.ofList_toList]
      rfl
  rw [hs]
  cases negative with
  | true => simpa [number] using hunsigned
  | false =>
    have hminus : ∀ cs, d :: ds' ++ (fr ++ (ex ++ rest)) ≠ '-' :: cs :=
      fun _ heq => ne_of_isDigit (hds.2 d List.mem_cons_self) rfl (List.cons.inj heq).1
    simpa using (number.eq_2 _ hminus).trans hunsigned

end Reals

/-! ## Values -/

/-- The characters are blanks. -/
def Blank (b : List Char) : Prop :=
  ∀ c ∈ b, isSpace c = true

/-- The text begins with a character that is no blank and closes nothing. -/
def Opens (cs : List Char) : Prop :=
  ∃ c ds, cs = c :: ds ∧ isSpace c = false ∧ c ≠ ']' ∧ c ≠ '\x7d'

/-- The text is read as the value, whatever stands behind it that ends a number. -/
structure Reads (j : Json) (cs : List Char) : Prop where
  opens : Opens cs
  run : ∀ depth rest, cs.length < depth → EndsNumber rest →
    value depth (cs ++ rest) = some (j, rest)

/-- The text, with the bracket that closes it, is read as the items, whatever stands behind. -/
structure ReadsItems (js : List Json) (cs : List Char) : Prop where
  opens : Opens cs
  run : ∀ depth rest, cs.length < depth → items depth (cs ++ rest) = some (js, rest)

/-- The text, with the brace that closes it, is read as the members, whatever stands behind. -/
structure ReadsMembers (ms : List (String × Json)) (cs : List Char) : Prop where
  opens : Opens cs
  run : ∀ depth rest, cs.length < depth → members depth (cs ++ rest) = some (ms, rest)

section Blanks

variable {b cs : List Char}

theorem Opens.append (h : Opens cs) (ds : List Char) : Opens (cs ++ ds) := by
  obtain ⟨c, es, rfl, hc⟩ := h
  exact ⟨c, es ++ ds, rfl, hc⟩

theorem skipSpace_append (hb : Blank b) (cs : List Char) : skipSpace (b ++ cs) = skipSpace cs :=
  List.dropWhile_append_of_pos hb

theorem skipSpace_cons {c : Char} (hc : isSpace c = false) (cs : List Char) :
    skipSpace (c :: cs) = c :: cs := by
  rw [skipSpace, List.dropWhile_cons_of_neg (by simp [hc])]

theorem Opens.skipSpace_append (h : Opens cs) (hb : Blank b) : skipSpace (b ++ cs) = cs := by
  obtain ⟨c, ds, rfl, hc, -⟩ := h
  rw [Json.skipSpace_append hb, skipSpace_cons hc]

theorem endsNumber_cons {c : Char} (h : c.isDigit = false ∧ c ≠ '.' ∧ c ≠ 'e' ∧ c ≠ 'E')
    (cs : List Char) : EndsNumber (c :: cs) := by
  intro d hd
  cases hd
  exact h

/-- A blank ends a number, as the brackets and the comma do. -/
theorem endsNumber_blank (hb : Blank b) {cs : List Char} (hcs : EndsNumber cs) :
    EndsNumber (b ++ cs) := by
  cases b with
  | nil => exact hcs
  | cons c b =>
    have hc := hb c List.mem_cons_self
    simp only [isSpace, Bool.or_eq_true, beq_iff_eq] at hc
    rcases hc with ((rfl | rfl) | rfl) | rfl <;> exact endsNumber_cons (by decide) _

end Blanks

namespace Reads

variable {b cs : List Char} {js : List Json} {ms : List (String × Json)}

theorem of_value {j : Json} (hopens : Opens cs) (hrun : ∀ depth rest, cs.length ≤ depth →
    EndsNumber rest → value (depth + 1) (cs ++ rest) = some (j, rest)) : Reads j cs where
  opens := hopens
  run := by
    intro depth rest hlt hrest
    cases depth with
    | zero => exact absurd hlt (Nat.not_lt_zero _)
    | succ depth => exact hrun depth rest (Nat.le_of_lt_succ hlt) hrest

theorem null : Reads .null "null".toList :=
  of_value ⟨_, _, rfl, by decide⟩ fun _ _ _ _ => rfl

theorem truth (v : Bool) : Reads (.truth v) (if v then "true" else "false").toList := by
  cases v <;> exact of_value ⟨_, _, rfl, by decide⟩ fun _ _ _ _ => rfl

theorem string (s : String) : Reads (.string s) (quoted s).toList := by
  rw [toList_quoted]
  refine of_value ⟨_, _, rfl, by decide⟩ fun depth rest _ _ => ?_
  simp [value, stringBody_quoted]

theorem ne_of_number {c d : Char} (hc : c.isDigit = true ∨ c = '-')
    (hd : ¬(d.isDigit = true ∨ d = '-')) : c ≠ d := by
  rintro rfl
  exact hd hc

/-- A digit or a minus begins no other value than a number. -/
theorem value_eq_number {c : Char} (hc : c.isDigit = true ∨ c = '-') (depth : Nat)
    (cs : List Char) : value (depth + 1) (c :: cs) = number (c :: cs) := by
  rw [value]
  · simp
  all_goals exact fun _ heq => ne_of_number hc (by decide) (List.cons.inj heq).1

theorem opens_number {c : Char} (hc : c.isDigit = true ∨ c = '-') :
    isSpace c = false ∧ c ≠ ']' ∧ c ≠ '\x7d' := by
  simp only [isSpace, Bool.or_eq_false_iff, beq_eq_false_iff_ne]
  refine ⟨⟨⟨⟨?_, ?_⟩, ?_⟩, ?_⟩, ?_, ?_⟩ <;> exact ne_of_number hc (by decide)

theorem integer (n : Int) : Reads (.integer n) (toString n).toList := by
  obtain ⟨c, ds, heq, hc⟩ : ∃ c ds, (toString n).toList = c :: ds ∧
      (c.isDigit = true ∨ c = '-') := by
    rw [toList_integer]
    split
    · obtain ⟨d, ds, hds, hd⟩ := exists_decimal_cons n.toNat
      exact ⟨d, ds, hds, .inl hd⟩
    · exact ⟨'-', _, rfl, .inr rfl⟩
  refine of_value ⟨c, ds, heq, opens_number hc⟩ fun depth rest _ hrest => ?_
  have hread := number_integer n hrest
  rw [heq] at hread ⊢
  rw [List.cons_append, value_eq_number hc]
  exact hread

theorem real {s : String} (h : IsReal s) : Reads (.real s) s.toList := by
  obtain ⟨c, cs, hs, hc⟩ : ∃ c cs, s.toList = c :: cs ∧ (c.isDigit = true ∨ c = '-') := by
    obtain ⟨negative, ds, fr, ex, hs, hds, -⟩ := h
    obtain ⟨d, ds', rfl, hd⟩ := hds.exists_cons
    cases negative with
    | true => exact ⟨'-', _, hs, .inr rfl⟩
    | false => exact ⟨d, _, hs, .inl hd⟩
  refine of_value ⟨c, cs, hs, opens_number hc⟩ fun depth rest _ hrest => ?_
  have hread := number_real h hrest
  rw [hs] at hread ⊢
  rw [List.cons_append, value_eq_number hc]
  exact hread

theorem emptyArray : Reads (.array []) "[]".toList :=
  of_value ⟨_, _, rfl, by decide⟩ fun _ _ _ _ => rfl

theorem emptyObject : Reads (.object []) "\x7b\x7d".toList :=
  of_value ⟨_, _, rfl, by decide⟩ fun _ _ _ _ => rfl

theorem array (hb : Blank b) (h : ReadsItems js cs) : Reads (.array js) ('[' :: (b ++ cs)) := by
  refine of_value ⟨_, _, rfl, by decide⟩ fun depth rest hle _ => ?_
  have hrun := h.run depth rest (show cs.length < depth by
    rw [List.length_cons, List.length_append] at hle
    omega)
  obtain ⟨c, ds, rfl, hspace, hbracket, -⟩ := h.opens
  simp only [List.cons_append, List.append_assoc, value, skipSpace_append hb,
    skipSpace_cons hspace] at hrun ⊢
  split
  · next heq => exact absurd (List.cons.inj heq).1 hbracket
  · rw [hrun]
    rfl

theorem object (hb : Blank b) (h : ReadsMembers ms cs) :
    Reads (.object ms) ('\x7b' :: (b ++ cs)) := by
  refine of_value ⟨_, _, rfl, by decide⟩ fun depth rest hle _ => ?_
  have hrun := h.run depth rest (show cs.length < depth by
    rw [List.length_cons, List.length_append] at hle
    omega)
  obtain ⟨c, ds, rfl, hspace, -, hbrace⟩ := h.opens
  simp only [List.cons_append, List.append_assoc, value, skipSpace_append hb,
    skipSpace_cons hspace] at hrun ⊢
  split
  · next heq => exact absurd (List.cons.inj heq).1 hbrace
  · rw [hrun]
    rfl

end Reads

section Rows

variable {b b' cs ds : List Char} {j : Json} {js : List Json} {ms : List (String × Json)}

theorem ReadsItems.last (h : Reads j cs) (hb : Blank b) : ReadsItems [j] (cs ++ (b ++ [']'])) where
  opens := h.opens.append _
  run := by
    intro depth rest hlt
    cases depth with
    | zero => exact absurd hlt (Nat.not_lt_zero _)
    | succ depth =>
      have hvalue := h.run depth (b ++ ']' :: rest)
        (by simp only [List.length_append, List.length_cons] at hlt; omega)
        (endsNumber_blank hb (endsNumber_cons (by decide) rest))
      have hclose : isSpace ']' = false := rfl
      simp [items, hvalue, skipSpace_append hb, skipSpace_cons hclose]

theorem ReadsItems.cons (h : Reads j cs) (hb : Blank b) (hs : ReadsItems js ds) :
    ReadsItems (j :: js) (cs ++ ',' :: (b ++ ds)) where
  opens := h.opens.append _
  run := by
    intro depth rest hlt
    cases depth with
    | zero => exact absurd hlt (Nat.not_lt_zero _)
    | succ depth =>
      simp only [List.length_append, List.length_cons] at hlt
      have hvalue := h.run depth (',' :: (b ++ (ds ++ rest))) (by omega)
        (endsNumber_cons (by decide) _)
      have hitems := hs.run depth rest (by omega)
      have hcomma : isSpace ',' = false := rfl
      simp [items, hvalue, hitems, skipSpace_cons hcomma,
        (hs.opens.append rest).skipSpace_append hb]

theorem ReadsMembers.last (k : String) (hb : Blank b) (h : Reads j cs) (hb' : Blank b') :
    ReadsMembers [(k, j)] ((quoted k).toList ++ ':' :: (b ++ (cs ++ (b' ++ ['\x7d'])))) where
  opens := (Reads.string k).opens.append _
  run := by
    intro depth rest hlt
    cases depth with
    | zero => exact absurd hlt (Nat.not_lt_zero _)
    | succ depth =>
      simp only [List.length_append, List.length_cons] at hlt
      have hvalue := h.run depth (b' ++ '\x7d' :: rest) (by omega)
        (endsNumber_blank hb' (endsNumber_cons (by decide) rest))
      have hclose : isSpace '\x7d' = false := rfl
      have hcolon : isSpace ':' = false := rfl
      simp [toList_quoted, members, stringBody_quoted, skipSpace_cons hcolon,
        (h.opens.append _).skipSpace_append hb, hvalue, skipSpace_append hb', skipSpace_cons hclose]

theorem ReadsMembers.cons (k : String) (hb : Blank b) (h : Reads j cs) (hb' : Blank b')
    (hs : ReadsMembers ms ds) :
    ReadsMembers ((k, j) :: ms)
      ((quoted k).toList ++ ':' :: (b ++ (cs ++ ',' :: (b' ++ ds)))) where
  opens := (Reads.string k).opens.append _
  run := by
    intro depth rest hlt
    cases depth with
    | zero => exact absurd hlt (Nat.not_lt_zero _)
    | succ depth =>
      simp only [List.length_append, List.length_cons] at hlt
      have hvalue := h.run depth (',' :: (b' ++ (ds ++ rest))) (by omega)
        (endsNumber_cons (by decide) _)
      have hmembers := hs.run depth rest (by omega)
      have hcomma : isSpace ',' = false := rfl
      have hcolon : isSpace ':' = false := rfl
      simp [toList_quoted, members, stringBody_quoted, skipSpace_cons hcolon,
        (h.opens.append _).skipSpace_append hb, hvalue, hmembers, skipSpace_cons hcomma,
        (hs.opens.append rest).skipSpace_append hb']

end Rows

/-! ## The layout of a value -/

mutual

/-- The value holds no number with a fraction or an exponent. -/
def Whole : Json → Prop
  | real _ => False
  | array js => AllWhole js
  | object ms => MembersWhole ms
  | null | truth _ | integer _ | string _ => True

/-- All of the values are without such numbers. -/
def AllWhole : List Json → Prop
  | [] => True
  | j :: js => j.Whole ∧ AllWhole js

/-- The values of all members are without such numbers. -/
def MembersWhole : List (String × Json) → Prop
  | [] => True
  | (_, j) :: ms => j.Whole ∧ MembersWhole ms

end

mutual

/-- Every number in the value that has a fraction or an exponent is spelled as JSON spells it. -/
def Spelled : Json → Prop
  | real s => IsReal s
  | array js => AllSpelled js
  | object ms => MembersSpelled ms
  | null | truth _ | integer _ | string _ => True

/-- Every such number in one of the values is spelled as JSON spells it. -/
def AllSpelled : List Json → Prop
  | [] => True
  | j :: js => j.Spelled ∧ AllSpelled js

/-- Every such number in the value of a member is spelled as JSON spells it. -/
def MembersSpelled : List (String × Json) → Prop
  | [] => True
  | (_, j) :: ms => j.Spelled ∧ MembersSpelled ms

end

mutual

theorem Whole.spelled : ∀ {j : Json}, j.Whole → j.Spelled
  | .real _, h => h.elim
  | .array js, h => allSpelled_of_allWhole js h
  | .object ms, h => membersSpelled_of_membersWhole ms h
  | .null, _ | .truth _, _ | .integer _, _ | .string _, _ => trivial

theorem allSpelled_of_allWhole : ∀ js : List Json, AllWhole js → AllSpelled js
  | [], _ => trivial
  | _ :: js, h => ⟨h.1.spelled, allSpelled_of_allWhole js h.2⟩

theorem membersSpelled_of_membersWhole : ∀ ms : List (String × Json),
    MembersWhole ms → MembersSpelled ms
  | [], _ => trivial
  | _ :: ms, h => ⟨h.1.spelled, membersSpelled_of_membersWhole ms h.2⟩

end

theorem blank_lineStart (level : Nat) : Blank (lineStart level).toList := by
  intro c hc
  rw [lineStart, String.toList_ofList, List.mem_cons, List.mem_replicate] at hc
  obtain rfl | ⟨-, rfl⟩ := hc <;> rfl

theorem blank_space : Blank [' '] := by
  simp [Blank, isSpace]

mutual

theorem reads_prettyAt : ∀ (j : Json), j.Spelled → ∀ level, Reads j (j.prettyAt level).toList
  | .null, _, _ => .null
  | .truth v, _, _ => by
    simpa [prettyAt, atom] using Reads.truth v
  | .integer n, _, _ => .integer n
  | .real _, h, _ => .real h
  | .string s, _, _ => .string s
  | .array [], _, _ => .emptyArray
  | .object [], _, _ => .emptyObject
  | .array (j :: js), h, level => by
    have hitems := reads_prettyItems js h.2 (level + 1) (blank_lineStart level)
      (reads_prettyAt j h.1 (level + 1))
    have harray := Reads.array (blank_lineStart (level + 1)) hitems
    simpa [prettyAt] using harray
  | .object ((k, j) :: ms), h, level => by
    have hmembers := reads_prettyMembers ms h.2 (level + 1) (blank_lineStart level) k
      (reads_prettyAt j h.1 (level + 1))
    have hobject := Reads.object (blank_lineStart (level + 1)) hmembers
    simpa [prettyAt] using hobject

/-- The items after the first are read up to the bracket that closes them. -/
theorem reads_prettyItems : ∀ (js : List Json), AllSpelled js → ∀ level {b : List Char}, Blank b →
    ∀ {j cs}, Reads j cs →
      ReadsItems (j :: js) (cs ++ ((prettyItems level js).toList ++ (b ++ [']'])))
  | [], _, _, _, hb, _, _, hj => by
    simpa [prettyItems] using ReadsItems.last hj hb
  | j' :: js, h, level, _, hb, _, _, hj => by
    have hitems := reads_prettyItems js h.2 level hb (reads_prettyAt j' h.1 level)
    simpa [prettyItems] using ReadsItems.cons hj (blank_lineStart level) hitems

/-- The members after the first are read up to the brace that closes them. -/
theorem reads_prettyMembers : ∀ (ms : List (String × Json)), MembersSpelled ms →
    ∀ level {b : List Char}, Blank b → ∀ k {j cs}, Reads j cs →
      ReadsMembers ((k, j) :: ms) ((quoted k).toList ++
        ':' :: ' ' :: (cs ++ ((prettyMembers level ms).toList ++ (b ++ ['\x7d']))))
  | [], _, _, _, hb, k, _, _, hj => by
    simpa [prettyMembers] using ReadsMembers.last k blank_space hj hb
  | (k', j') :: ms, h, level, _, hb, k, _, _, hj => by
    have hmembers := reads_prettyMembers ms h.2 level hb k' (reads_prettyAt j' h.1 level)
    simpa [prettyMembers] using
      ReadsMembers.cons k blank_space hj (blank_lineStart level) hmembers

end

/-- A text that is read as a value is one, also with blanks behind it. -/
theorem Reads.ofText? {j : Json} {text : String} (h : Reads j text.toList) {b : String}
    (hb : Blank b.toList) : ofText? (text ++ b) = some j := by
  have hfront : skipSpace (text ++ b).toList = text.toList ++ b.toList := by
    rw [String.toList_append]
    exact (h.opens.append b.toList).skipSpace_append (List.forall_mem_nil _)
  have hnil : EndsNumber [] := by simp [EndsNumber]
  have hend : EndsNumber b.toList := by simpa using endsNumber_blank hb hnil
  have hbehind : skipSpace b.toList = [] := by
    have := skipSpace_append hb []
    rwa [List.append_nil] at this
  have hlength : text.toList.length < (text ++ b).toList.length + 1 := by
    rw [String.toList_append, List.length_append]
    omega
  rw [Json.ofText?, hfront, h.run _ _ hlength hend]
  simp [hbehind]

/-- The text of a value is read as the value, also with blanks behind it. -/
theorem ofText?_pretty {j : Json} (h : j.Spelled) {b : String} (hb : Blank b.toList) :
    ofText? (j.pretty ++ b) = some j :=
  (reads_prettyAt j h 0).ofText? hb

end Json

end OpsLang
