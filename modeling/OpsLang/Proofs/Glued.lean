import OpsLang.Proofs.Scanning
import OpsLang.Proofs.Unambiguity

/-!
# Numbers and their units

A unit belongs to the number before it, whether a blank stands between the two or nothing does.
The unit is looked for behind the number, so the number is to end where the unit begins : no unit
begins with a digit, a point or an exponent (`endsDecimal_unit`). A radix prefix is looked for
before that. A `0` that touches a unit with the letter of a radix is taken for the prefix, and no
digits of the radix stand behind it (`JoinsRadix`). `ofText_measure` says what is read in either
case.
-/

namespace OpsLang

/-! ## Decimal numbers -/

/-- The text is digits, with or without a fraction, and with or without an exponent. -/
def IsDecimal (x : String) : Prop :=
  ∃ ds fs es, x.toList = ds ++ (fs ++ es) ∧ IsDigits ds ∧ IsFraction fs ∧ IsExponent es

theorem isDigits_singleton {d : Char} (hd : d.isDigit = true) : IsDigits [d] := by
  simp [IsDigits, hd]

section Decimals

variable {x : String}

theorem IsDecimal.isNumber (hx : IsDecimal x) : IsNumber x.toList := by
  obtain ⟨ds, fs, es, hlist, hds, hfs, hes⟩ := hx
  rw [hlist]
  exact .decimal hds hfs hes

/-- A decimal number is read whole before anything but a word, or before a unit, unless it is a
`0` that makes a radix prefix with the letter behind it. -/
theorem IsDecimal.tokensFrom_append (hx : IsDecimal x) {rest : List Char}
    (hrest : EndsDecimal rest)
    (hunit : ∀ c ∈ rest.head?, isWordChar c = true → (longestUnit rest).isSome = true)
    (hradix : x = "0" → ∀ r ∈ rest.head?, radixOf? r = none) (p : Place) :
    tokensFrom p (x.toList ++ rest) =
      (tokensFrom (p.after x.toList) rest).map
        (⟨.number x, p.to (p.after x.toList)⟩ :: ·) := by
  obtain ⟨c, cs, hcons, hdigit⟩ := hx.isNumber.exists_cons
  obtain ⟨ds, fs, es, hlist, hds, hfs, hes⟩ := hx
  have hzero : ds ++ (fs ++ es) = ['0'] → ∀ r ∈ rest.head?, radixOf? r = none := by
    intro h
    exact hradix (String.toList_inj.1 (hlist.trans h))
  have hfront := numberFront_append_of_decimal hds hfs hes hrest hunit hzero
  rw [← hlist, String.ofList_toList, hcons, List.length_cons, Nat.add_sub_cancel,
    List.cons_append] at hfront
  rw [hcons, List.cons_append, tokensFrom, front_of_isWordChar (isWordChar_of_isDigit hdigit),
    if_pos hdigit, hfront]
  simp

end Decimals

/-! ## Units -/

section Units

variable {u : String} {q : Quantity}

theorem mem_unitSpellings (hu : u ∈ q.units) : u ∈ unitSpellings :=
  List.mem_flatMap.2 ⟨q, q.mem_all, hu⟩

/-- No spelling is of two quantities. -/
theorem ofUnit?_of_mem (hu : u ∈ q.units) : Quantity.ofUnit? u = some q := by
  have hall : ∀ q ∈ Quantity.all, ∀ u ∈ q.units, Quantity.ofUnit? u = some q := by
    decide
  exact hall q q.mem_all u hu

theorem endsDecimal_unit (hu : u ∈ unitSpellings) : EndsDecimal u.toList := by
  have hall : unitSpellings.all (fun u => u.toList.head?.all (fun c => !c.isDigit && c != '.') &&
      exponentLength u.toList == 0) = true := by
    cbv
  simp only [List.all_eq_true, Option.all_eq_true, Bool.and_eq_true, Bool.not_eq_true', bne_iff_ne,
    beq_iff_eq] at hall
  obtain ⟨hhead, hexponent⟩ := hall u hu
  exact ⟨hhead, hexponent⟩

theorem longestUnit_unit (hu : u ∈ unitSpellings) : longestUnit u.toList = some u := by
  have h : longestUnit (u.toList ++ []) = some u := longestUnit_append hu (by rintro c ⟨⟩)
  rwa [List.append_nil] at h

/-- A unit up to the end of a text is read as that unit. -/
theorem tokensFrom_unit (hu : u ∈ unitSpellings) (p : Place) :
    tokensFrom p u.toList = .ok [⟨.unit u, p.to (p.after u.toList)⟩,
      ⟨.eof, (p.after u.toList).to (p.after u.toList)⟩] := by
  have hclear : (Token.unit u).Clear [] := by rintro c ⟨⟩
  have hwritten : (Token.unit u).Written := hu
  have h := tokensFrom_token hwritten hclear p
  rw [List.append_nil, tokensFrom] at h
  exact h

end Units

/-! ## Radix prefixes -/

/-- The number and the unit begin like a number with a radix prefix. -/
def JoinsRadix (x u : String) : Prop :=
  x = "0" ∧ ∃ r ∈ u.toList.head?, (radixOf? r).isSome = true

/-- The letter of a radix is not followed by a digit of it in a unit. -/
theorem not_isDigitOf_unit {u : String} (hu : u ∈ unitSpellings) {radix : Nat}
    (hradix : radix ∈ u.toList.head?.bind radixOf?) :
    ∀ d ∈ u.toList.tail.head?, isDigitOf radix d = false := by
  have hall : unitSpellings.all (fun u => (u.toList.head?.bind radixOf?).all fun radix =>
      u.toList.tail.head?.all fun d => !isDigitOf radix d) = true := by
    cbv
  simp only [List.all_eq_true, Option.all_eq_true, Bool.not_eq_true'] at hall
  exact hall u hu radix hradix

theorem utf8Size_of_radixOf? {r : Char} (h : (radixOf? r).isSome = true) : r.utf8Size = 1 := by
  unfold radixOf? at h
  split at h <;> first | rfl | cases h

/-- A unit that makes a radix prefix with the `0` before it leaves it without digits. -/
theorem tokensFrom_radix {u : String} (hu : u ∈ unitSpellings) {r : Char}
    (hr : r ∈ u.toList.head?) (hradix : (radixOf? r).isSome = true) :
    tokensFrom .origin ('0' :: u.toList) =
      .error (LexicalFault.missingDigits.diagnostic ⟨0, 2, 1, 1⟩) := by
  obtain ⟨cs, hcs⟩ := List.head?_eq_some_iff.1 hr
  obtain ⟨radix, hsome⟩ := Option.isSome_iff_exists.1 hradix
  have hdigits : cs.takeWhile (isDigitOf radix) = [] := by
    have hmem : radix ∈ u.toList.head?.bind radixOf? := by
      rw [hr]
      exact hsome
    have hnot := not_isDigitOf_unit hu hmem
    rw [hcs, List.tail_cons] at hnot
    cases cs with
    | nil => rfl
    | cons d cs => simp [hnot d rfl]
  have hfront : front '0' (r :: cs) = .fault .missingDigits 1 := by
    have hdigit : '0'.isDigit = true := rfl
    rw [front_of_isWordChar rfl, if_pos hdigit]
    simp [numberFront, hsome, hdigits]
  have hne : r ≠ '\n' := by
    rintro rfl
    cases hradix
  have hzero : '0'.utf8Size = 1 := rfl
  rw [hcs, tokensFrom, hfront]
  simp [Place.origin, Place.step, Place.to, hne, hzero, utf8Size_of_radixOf? hradix]

/-! ## Measures -/

/-- A number and a unit on its line are a measure. -/
theorem parseExpr_measure {x u : String} {q : Quantity} (hu : u ∈ q.units) {s s' e : Span}
    (hline : s'.line = s.line) :
    parseExpr [⟨.number x, s⟩, ⟨.unit u, s'⟩, ⟨.eof, e⟩] =
      .accepted (.measure (.ofLexeme x) ⟨u, q⟩) := by
  have hlexeme := Numeral.lexeme_ofLexeme x
  have hspells : (Expr.measure (.ofLexeme x) ⟨u, q⟩).Spells
      (words [⟨.number x, s⟩, ⟨.unit u, s'⟩]) := by
    simp [Expr.Spells, words]
  have hfused : Fused [⟨.number x, s⟩, ⟨.unit u, s'⟩] :=
    List.isChain_pair.2 fun _ _ => hline
  exact parseExpr_of_spells rfl hspells
    (Expr.fits_measure.2 ⟨⟨by rw [hlexeme], ofUnit?_of_mem hu⟩, by decide⟩) hfused

/-- A number and a unit with a blank between them are a measure. So are the two where they touch,
unless they begin like a number with a radix prefix, which the unit gives no digits. -/
theorem ofText_measure {x u : String} {q : Quantity} (hx : IsDecimal x) (hu : u ∈ q.units) :
    ofText parseExpr (x ++ " " ++ u) = .accepted (.measure (.ofLexeme x) ⟨u, q⟩) ∧
    (JoinsRadix x u →
      tokenize (x ++ u) = .error (LexicalFault.missingDigits.diagnostic ⟨0, 2, 1, 1⟩)) ∧
    (¬JoinsRadix x u →
      (∃ s s' e, tokenize (x ++ u) = .ok [⟨.number x, s⟩, ⟨.unit u, s'⟩, ⟨.eof, e⟩]) ∧
      ofText parseExpr (x ++ u) = .accepted (.measure (.ofLexeme x) ⟨u, q⟩)) := by
  have hmem := mem_unitSpellings hu
  have hline : ∀ p : Place, (p.after x.toList).line = p.line :=
    Place.line_after (newline_notMem_of_isNumber hx.isNumber)
  refine ⟨?spaced, ?radix, ?glued⟩
  case spaced =>
    have hblank : EndsDecimal (' ' :: u.toList) := ⟨by rintro c ⟨⟩; decide, rfl⟩
    have hread := hx.tokensFrom_append hblank (by rintro c ⟨⟩ h; cases h)
      (by rintro - r ⟨⟩; rfl) .origin
    rw [tokensFrom_blank rfl (by decide) (by decide), tokensFrom_unit hmem] at hread
    have htext : (x ++ " " ++ u).toList = x.toList ++ ' ' :: u.toList := by simp
    rw [ofText, tokenize, htext, hread]
    exact parseExpr_measure hu (hline .origin)
  case radix =>
    rintro ⟨rfl, r, hr, hradix⟩
    rw [tokenize, String.toList_append]
    exact tokensFrom_radix hmem hr hradix
  case glued =>
    intro hjoins
    have hzero : x = "0" → ∀ r ∈ u.toList.head?, radixOf? r = none := by
      intro hx r hr
      rw [← Option.not_isSome_iff_eq_none]
      exact fun hradix => hjoins ⟨hx, r, hr, hradix⟩
    have hread := hx.tokensFrom_append (endsDecimal_unit hmem)
      (fun _ _ _ => by rw [longestUnit_unit hmem]; rfl) hzero .origin
    rw [tokensFrom_unit hmem, ← String.toList_append] at hread
    refine ⟨⟨_, _, _, hread⟩, ?_⟩
    rw [ofText, tokenize, hread]
    exact parseExpr_measure hu (hline .origin)

/-- A unit that begins like an exponent, behind a number with one. -/
theorem ofText_measure_electronvolt :
    (IsDecimal "1.5e3" ∧ "eV" ∈ Quantity.energy.units ∧ ¬JoinsRadix "1.5e3" "eV") ∧
      ofText parseExpr "1.5e3 eV" = .accepted (.measure ⟨"1.5e3", .decimal⟩ ⟨"eV", .energy⟩) ∧
      ofText parseExpr "1.5e3eV" = .accepted (.measure ⟨"1.5e3", .decimal⟩ ⟨"eV", .energy⟩) := by
  have hx : IsDecimal "1.5e3" :=
    ⟨['1'], ['.', '5'], ['e', '3'], rfl, isDigits_singleton rfl, .some (isDigits_singleton rfl),
      .plain (.inl rfl) (isDigits_singleton rfl)⟩
  have hu : "eV" ∈ Quantity.energy.units := by decide
  have hjoins : ¬JoinsRadix "1.5e3" "eV" := fun h => absurd h.1 (by decide)
  obtain ⟨hspaced, -, hglued⟩ := ofText_measure hx hu
  exact ⟨⟨hx, hu, hjoins⟩, hspaced, (hglued hjoins).2⟩

/-- A `0` that touches `bar` is no number. -/
theorem tokenize_zero_bar :
    IsDecimal "0" ∧ "bar" ∈ unitSpellings ∧ tokenize "0bar" =
      .error ⟨.lexical, "malformed numeric literal: missing digits after radix prefix",
        ⟨0, 2, 1, 1⟩, [], none⟩ := by
  have hu : "bar" ∈ unitSpellings := by decide
  exact ⟨⟨['0'], [], [], rfl, isDigits_singleton rfl, .none, .none⟩, hu,
    tokensFrom_radix hu rfl rfl⟩

end OpsLang
