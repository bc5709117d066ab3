import OpsLang.Numeral.Binary64
import OpsLang.Proofs.ArraySize

/-!
# Values of numbers

A number of a text in binary64. A number whose digits have a value below `2 ^ 64` is converted
from it, and any other is handed to the grammar of decimal spellings. That grammar has no radix
prefixes. So of the spellings that the scan of a text lets through, the decimal ones all have a
value, whatever their length, and those with a prefix have one only as long as sixty-four bits are
enough for it (`IsOversized`) : `binary64_eq_none_iff_isOversized`.

The two grammars are compared part by part : the digits, the fraction and the exponent of a number
in a text are those that `Binary64.magnitude?` cuts off (`magnitude?_of_decimal`), and behind the
`0` of a prefix stands a letter that begins nothing there (`magnitude?_of_radix`).
-/

namespace OpsLang

/-- The spelling is a radix prefix with digits behind it whose value takes more than sixty-four
bits. -/
def IsOversized (x : String) : Prop :=
  ∃ pre radix cs ds, (pre, radix) ∈ radixPrefixes ∧ pre ≠ [] ∧ x.toList = pre ++ cs ∧
    SpellDigits radix cs ds ∧ 2 ^ 64 ≤ Nat.ofDigits radix ds.reverse

/-! ## Decimal spellings -/

namespace Binary64

section Spellings

variable {cs ds fs es : List Char}

theorem splitSign_of_isDigit {d : Char} (hd : d.isDigit = true) (cs : List Char) :
    splitSign (d :: cs) = (false, d :: cs) := by
  unfold splitSign
  split
  · next heq => cases heq; cases hd
  · next heq => cases heq; cases hd
  · rfl

/-- An exponent of a number is read as one. -/
theorem exponent?_of_isExponent (hes : IsExponent es) : ∃ n, exponent? es = some n := by
  have hdigits : ∀ {ds : List Char}, IsDigits ds →
      ds.isEmpty = false ∧ ds.all Char.isDigit = true :=
    fun h => ⟨List.isEmpty_eq_false_iff.2 h.1, List.all_eq_true.2 h.2⟩
  cases hes with
  | none => exact ⟨0, rfl⟩
  | @plain e ds he h =>
    obtain ⟨d, ds, rfl⟩ := List.exists_cons_of_ne_nil h.1
    simp [exponent?, splitSign_of_isDigit (h.2 d (by simp)), he, hdigits h]
  | @signed e s ds he hs h =>
    obtain rfl | rfl := hs <;> simp [exponent?, splitSign, he, hdigits h]

/-- The digits at the front of a spelling are taken off it whole. -/
theorem span_digits (hds : ∀ d ∈ ds, d.isDigit = true) (hcs : ∀ c ∈ cs.head?, c.isDigit = false) :
    (ds ++ cs).takeWhile Char.isDigit = ds ∧ (ds ++ cs).dropWhile Char.isDigit = cs := by
  have htake : cs.takeWhile Char.isDigit = [] ∧ cs.dropWhile Char.isDigit = cs := by
    cases cs with
    | nil => exact ⟨rfl, rfl⟩
    | cons c cs => simp [hcs c rfl]
  rw [List.takeWhile_append_of_pos hds, List.dropWhile_append_of_pos hds, htake.1, htake.2,
    List.append_nil]
  exact ⟨rfl, rfl⟩

/-- The magnitude of a decimal spelling is put together from its digits, fraction and exponent. -/
theorem magnitude?_of_decimal (hds : IsDigits ds) (hfs : IsFraction fs) (hes : IsExponent es) :
    magnitude? (ds ++ (fs ++ es)) = (exponent? es).map fun n =>
      ofScientific (digitsValue 10 (ds ++ fs.tail)) (n - fs.tail.length) := by
  obtain ⟨n, hn⟩ := exponent?_of_isExponent hes
  have hwhole : ds.isEmpty = false := List.isEmpty_eq_false_iff.2 hds.1
  have hend : EndsDecimal [] := ⟨by simp, rfl⟩
  have hhead : ∀ c ∈ es.head?, c.isDigit = false ∧ c ≠ '.' := by
    simpa using hes.head_append hend
  cases hfs with
  | none =>
    obtain ⟨htake, hdrop⟩ := span_digits hds.2 fun c hc => (hhead c hc).1
    have hpoint : es.head? ≠ some '.' := fun h => (hhead '.' h).2 rfl
    simp [magnitude?, htake, hdrop, hpoint, hn, hwhole]
  | @some fs hfs =>
    have hpoint : ∀ c ∈ ('.' :: (fs ++ es)).head?, c.isDigit = false := by simp
    obtain ⟨htake, hdrop⟩ := span_digits hds.2 hpoint
    obtain ⟨htake', hdrop'⟩ := span_digits hfs.2 fun c hc => (hhead c hc).1
    simp only [magnitude?, List.cons_append, htake, hdrop, List.head?_cons, List.tail_cons, htake',
      hdrop', if_true, hn, hwhole]
    rfl

/-- A spelling with a radix prefix has no magnitude. -/
theorem magnitude?_of_radix {r : Char} {radix : Nat} (hr : radixOf? r = some radix)
    (ds : List Char) : magnitude? ('0' :: r :: ds) = none := by
  have hplain : ¬(r.isDigit = true ∨ isWordChar r = false ∨ r = 'e' ∨ r = 'E') := by
    intro h
    rw [radixOf?_eq_none h] at hr
    cases hr
  simp only [not_or, Bool.not_eq_true, Bool.not_eq_false] at hplain
  obtain ⟨hdigit, hword, he, hE⟩ := hplain
  have hpoint : r ≠ '.' := by
    rintro rfl
    cases hword
  have hzero : ∀ c ∈ ['0'], c.isDigit = true := by simp
  have hletter : ∀ c ∈ (r :: ds).head?, c.isDigit = false := by simpa
  obtain ⟨htake, hdrop⟩ := span_digits hzero hletter
  rw [List.singleton_append] at htake hdrop
  simp [magnitude?, hdrop, hpoint, exponent?, he, hE]

/-- A spelling that begins with a digit names its magnitude, and neither infinity nor no
number. -/
theorem ofDecimal?_of_isDigit {x : String} {d : Char} (hx : x.toList = d :: cs)
    (hd : d.isDigit = true) : ofDecimal? x = magnitude? x.toList := by
  have hlower : d.toLower = d := by
    refine Char.toLower_eq_of_not_isUpper fun hupper => ?_
    obtain ⟨hlow, -⟩ : 65 ≤ d.toNat ∧ d.toNat ≤ 90 := by
      simpa [Char.isUpper, UInt32.le_iff_toNat_le] using hupper
    exact absurd (hlow.trans (isDigit_iff.1 hd).2) (by decide)
  have hword : ∀ w, d :: cs.map Char.toLower = w → ∀ c ∈ w.head?, c.isDigit = true := by
    rintro w rfl c hc
    cases hc
    exact hd
  have hplain : ¬(d :: cs.map Char.toLower = "inf".toList ∨
      d :: cs.map Char.toLower = "infinity".toList) ∧
      d :: cs.map Char.toLower ≠ "nan".toList := by
    refine ⟨?_, fun h => ?_⟩
    · rintro (h | h) <;> cases hword _ h 'i' rfl
    · cases hword _ h 'n' rfl
  rw [ofDecimal?, hx, splitSign_of_isDigit hd]
  dsimp only
  rw [List.map_cons, hlower, if_neg hplain.1, if_neg hplain.2]
  exact Option.map_id_apply

end Spellings

end Binary64

/-! ## Numbers of a text -/

section Lexemes

variable {x : String}

theorem IsOversized.prefixed (h : IsOversized x) :
    ∃ r radix ds, radixOf? r = some radix ∧ x.toList = '0' :: r :: ds := by
  obtain ⟨pre, radix, cs, -, hmem, hpre, hx, -, -⟩ := h
  have hprefix : ∀ p ∈ radixPrefixes, p.1 ≠ [] →
      ∃ r, radixOf? r = some p.2 ∧ p.1 = ['0', r] := by
    simp [radixPrefixes, radixOf?]
  obtain ⟨r, hr, rfl⟩ := hprefix _ hmem hpre
  exact ⟨r, radix, cs, hr, hx⟩

/-- A number has no value in sixty-four bits where its digits have a larger one. -/
theorem IsOversized.toUInt64?_eq_none (hx : IsNumber x.toList) (h : IsOversized x) :
    (Numeral.ofLexeme x).toUInt64? = none := by
  obtain ⟨pre, radix, cs, ds, hmem, -, hcs, hds, hlarge⟩ := h
  rw [← Option.map_eq_none_iff (f := UInt64.toNat), Option.eq_none_iff_forall_ne_some]
  intro v hv
  obtain ⟨⟨pre', radix', cs', ds', hmem', hcs', hds', -, hv'⟩, hlt⟩ :=
    (toUInt64?_eq_some_iff_isWhole hx v).1 hv
  -- The spelling is cut in one place, so it has one value.
  have hcut := (radixSplit?_of_digits_behind hmem hcs
    ((exists_spellDigits_iff (radix_le_of_mem hmem)).1 ⟨ds, hds⟩)).1
  have hcut' := (radixSplit?_of_digits_behind hmem' hcs'
    ((exists_spellDigits_iff (radix_le_of_mem hmem')).1 ⟨ds', hds'⟩)).1
  obtain ⟨rfl, rfl⟩ := Prod.mk.inj (hcut.symm.trans hcut')
  rw [← hds.digitsValue_eq (radix_le_of_mem hmem)] at hlarge
  rw [← hds'.digitsValue_eq (radix_le_of_mem hmem)] at hv'
  omega

/-- The digits behind a radix prefix have a value in sixty-four bits or are too large for them. -/
theorem toUInt64?_of_radix {r : Char} {radix : Nat} {ds : List Char}
    (hr : radixOf? r = some radix) (hne : ds ≠ [])
    (hds : ∀ d ∈ ds, isDigitOf radix d = true) (hx : x.toList = '0' :: r :: ds) :
    (Numeral.ofLexeme x).toUInt64?.isSome = true ∨ IsOversized x := by
  obtain ⟨pre, radix', cs, hcut, hmem, hcs⟩ := exists_radixPrefix x.toList
  have hsplit : radixSplit? x.toList = some (radix, ds) := by
    rw [hx, radixSplit?_cons, hr]
    rfl
  rw [hsplit, Option.getD_some] at hcut
  obtain ⟨rfl, rfl⟩ := Prod.mk.inj hcut
  obtain ⟨vs, hvs⟩ := (exists_spellDigits_iff (radix_le_of_mem hmem)).2 hds
  by_cases hlarge : 2 ^ 64 ≤ Nat.ofDigits radix vs.reverse
  · refine .inr ⟨pre, radix, ds, vs, hmem, ?_, hcs, hvs, hlarge⟩
    rintro rfl
    have hlength := congrArg List.length (hx.symm.trans hcs)
    simp only [List.nil_append, List.length_cons] at hlength
    omega
  · have hvne : vs ≠ [] := by
      rw [← List.length_pos_iff, hvs.length_eq]
      exact List.length_pos_iff.2 hne
    have hvalue := (toUInt64?_eq_some_iff_isWhole (hx ▸ IsNumber.radix hr hne hds) _).2
      ⟨⟨pre, radix, ds, vs, hmem, hcs, hvs, hvne, rfl⟩, Nat.lt_of_not_le hlarge⟩
    obtain ⟨n, hn, -⟩ := Option.map_eq_some_iff.1 hvalue
    exact .inl (by rw [hn]; rfl)

/-- A number of a text has a value, unless it has a radix prefix and digits that are too large for
sixty-four bits. -/
theorem binary64_eq_none_iff_isOversized (hx : IsLexeme x) :
    (Numeral.ofLexeme x).toBinary64? = none ↔ IsOversized x := by
  have hnumber := isNumber_of_isLexeme hx
  have hfallback : (Numeral.ofLexeme x).toUInt64? = none →
      (Numeral.ofLexeme x).toBinary64? = Binary64.ofDecimal? x := by
    intro h
    rw [Numeral.toBinary64?, h, Numeral.lexeme_ofLexeme]
  constructor
  · intro hnone
    have hlarge : (Numeral.ofLexeme x).toUInt64? = none := by
      cases hv : (Numeral.ofLexeme x).toUInt64? with
      | none => rfl
      | some v =>
        rw [Numeral.toBinary64?, hv] at hnone
        cases hnone
    generalize hcs : x.toList = cs at hnumber
    cases hnumber with
    | radix hr hne hds =>
      obtain hsome | hover := toUInt64?_of_radix hr hne hds hcs
      · rw [hlarge] at hsome
        cases hsome
      · exact hover
    | @decimal ds fs es hds hfs hes =>
      obtain ⟨d, ds', rfl⟩ := List.exists_cons_of_ne_nil hds.1
      obtain ⟨n, hn⟩ := Binary64.exponent?_of_isExponent hes
      rw [hfallback hlarge, Binary64.ofDecimal?_of_isDigit hcs (hds.2 d (by simp)), hcs,
        Binary64.magnitude?_of_decimal hds hfs hes, hn] at hnone
      cases hnone
  · intro hover
    obtain ⟨r, radix, ds, hr, hcs⟩ := hover.prefixed
    rw [hfallback (hover.toUInt64?_eq_none hnumber), Binary64.ofDecimal?_of_isDigit hcs rfl, hcs,
      Binary64.magnitude?_of_radix hr]

theorem isLexeme_of_tokenize (h : (tokenize x).map words = .ok [.number x, .eof]) : IsLexeme x := by
  obtain ⟨ts, hts, hwords⟩ := Except.map_eq_ok.1 h
  exact ⟨x, ts, hts, by simp [hwords]⟩

end Lexemes

/-- The least number that is too large for sixty-four bits, in decimal and in octal. -/
theorem binary64_eq_none_iff_isOversized_least :
    (IsLexeme "18446744073709551616" ∧ ¬IsOversized "18446744073709551616" ∧
      (Numeral.ofLexeme "18446744073709551616").toBinary64? ≠ none) ∧
    IsLexeme "0O2000000000000000000000" ∧ IsOversized "0O2000000000000000000000" ∧
      (Numeral.ofLexeme "0O2000000000000000000000").toBinary64? = none := by
  have hdecimal : IsLexeme "18446744073709551616" := isLexeme_of_tokenize (by cbv)
  have hoctal : IsLexeme "0O2000000000000000000000" := isLexeme_of_tokenize (by cbv)
  have hplain : ¬IsOversized "18446744073709551616" := by
    intro h
    obtain ⟨r, radix, ds, -, hx⟩ := h.prefixed
    cases (List.cons.inj hx).1
  have hlarge : IsOversized "0O2000000000000000000000" :=
    ⟨['0', 'O'], 8, '2' :: List.replicate 21 '0', 2 :: List.replicate 21 0, by decide, by decide,
      by decide, ⟨by decide, by decide⟩, by decide⟩
  exact ⟨⟨hdecimal, hplain, mt (binary64_eq_none_iff_isOversized hdecimal).1 hplain⟩, hoctal,
    hlarge, (binary64_eq_none_iff_isOversized hoctal).2 hlarge⟩

/-- Not every number of a text has a value : in hexadecimal this one has none. -/
theorem exists_number_without_value : IsLexeme "0x10000000000000000" ∧
    (Numeral.ofLexeme "0x10000000000000000").toBinary64? = none := by
  have hlexeme : IsLexeme "0x10000000000000000" := isLexeme_of_tokenize (by cbv)
  have hx : "0x10000000000000000".toList = '0' :: 'x' :: '1' :: List.replicate 16 '0' := by decide
  have hlarge : IsOversized "0x10000000000000000" :=
    ⟨['0', 'x'], 16, '1' :: List.replicate 16 '0', 1 :: List.replicate 16 0, by decide, by decide,
      hx, ⟨by decide, by decide⟩, by decide⟩
  refine ⟨hlexeme, ?_⟩
  rw [Numeral.toBinary64?, hlarge.toUInt64?_eq_none (isNumber_of_isLexeme hlexeme),
    Numeral.lexeme_ofLexeme]
  dsimp only
  rw [Binary64.ofDecimal?_of_isDigit hx rfl, hx, Binary64.magnitude?_of_radix rfl]

end OpsLang
