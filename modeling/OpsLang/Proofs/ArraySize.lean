import Mathlib.Data.Nat.Digits.Defs
import Mathlib.Tactic.IntervalCases
import OpsLang.Proofs.Canonical.File
import OpsLang.Proofs.Entries.Item
import OpsLang.Proofs.Parenthesized.Expr

/-!
# Sizes of arrays

The size of an array is the value of its number, or there is no array. A number is whole
(`IsWhole`) if its spelling is a radix prefix or none with nothing but digits behind it, which is
to say that it has neither a fraction nor an exponent; its value is that of the digits by their
places. This is told without the readers of the program : of a number that is read in a text,
`Numeral.toUInt64?` is the value if it takes no more than sixty-four bits, and nothing otherwise
(`toUInt64?_eq_some_iff_isWhole`).

Three scans have to agree for this. The scan of a text takes `e` and `b` for digits behind `0x`, and
elsewhere for an exponent, a unit or a fault; the kind of a numeral is told by the characters in it;
and its digits are valued with the prefix cut off. They meet in where a spelling is cut
(`exists_radixPrefix`, `radixSplit?_of_digits_behind`).
-/

namespace OpsLang

/-! ## Whole numbers -/

/-- The prefixes of spellings with their radix. A spelling without one is decimal. -/
def radixPrefixes : List (List Char × Nat) :=
  [(['0', 'x'], 16), (['0', 'X'], 16), (['0', 'b'], 2), (['0', 'B'], 2), (['0', 'o'], 8),
    (['0', 'O'], 8), ([], 10)]

/-- The characters are these digits of the radix, in either case. -/
structure SpellDigits (radix : Nat) (cs : List Char) (ds : List Nat) : Prop where
  lt : ∀ d ∈ ds, d < radix
  chars : cs.map Char.toLower = ds.map Nat.digitChar

/-- The spelling is a prefix with digits behind it, at least one, whose value by their places
is `v`. -/
def IsWhole (x : String) (v : Nat) : Prop :=
  ∃ pre radix cs ds, (pre, radix) ∈ radixPrefixes ∧ x.toList = pre ++ cs ∧
    SpellDigits radix cs ds ∧ ds ≠ [] ∧ Nat.ofDigits radix ds.reverse = v

/-- The number is one of the tokens of some text. -/
def IsLexeme (x : String) : Prop :=
  ∃ text ts, tokenize text = .ok ts ∧ .number x ∈ words ts

/-! ## Digits -/

section Digits

variable {c : Char} {d radix : Nat} {cs : List Char}

theorem digitValue?_of_toLower (hd : d < 16) (h : c.toLower = Nat.digitChar d) :
    digitValue? c = some d := by
  by_cases hc : c.isUpper
  · rw [Char.toLower_eq_of_isUpper hc] at h
    obtain ⟨hlow, hhigh⟩ : 65 ≤ c.toNat ∧ c.toNat ≤ 90 := by
      simpa [Char.isUpper, UInt32.le_iff_toNat_le] using hc
    have hc : c = Char.ofNat c.toNat := (Char.ofNat_toNat c).symm
    generalize c.toNat = k at hlow hhigh h hc
    subst hc
    interval_cases k <;> interval_cases d <;> first | rfl | cases h
  · rw [Char.toLower_eq_of_not_isUpper hc] at h
    subst h
    interval_cases d <;> rfl

theorem toLower_of_digitValue? (h : digitValue? c = some d) :
    d < 16 ∧ c.toLower = Nat.digitChar d := by
  have hrange : (48 ≤ c.toNat ∧ c.toNat ≤ 57) ∨ (97 ≤ c.toNat ∧ c.toNat ≤ 102) ∨
      (65 ≤ c.toNat ∧ c.toNat ≤ 70) := by
    unfold digitValue? at h
    split at h
    · next hc => exact .inl (isDigit_iff.1 hc)
    split at h
    · next hc => exact .inr (.inl hc)
    split at h
    · next hc => exact .inr (.inr hc)
    · cases h
  have hc : c = Char.ofNat c.toNat := (Char.ofNat_toNat c).symm
  generalize c.toNat = k at hrange hc
  subst hc
  obtain ⟨hlow, hhigh⟩ | ⟨hlow, hhigh⟩ | ⟨hlow, hhigh⟩ := hrange <;> interval_cases k <;>
    cases h <;> decide

theorem isDigitOf_iff (hradix : radix ≤ 16) :
    isDigitOf radix c = true ↔ ∃ d, d < radix ∧ c.toLower = Nat.digitChar d := by
  simp only [isDigitOf, digitOf?, Option.isSome_filter, Option.any_eq_true, decide_eq_true_eq]
  constructor
  · rintro ⟨d, hd, hlt⟩
    exact ⟨d, hlt, (toLower_of_digitValue? hd).2⟩
  · rintro ⟨d, hlt, hd⟩
    exact ⟨d, digitValue?_of_toLower (hlt.trans_le hradix) hd, hlt⟩

theorem SpellDigits.cons_iff {ds : List Nat} : SpellDigits radix (c :: cs) (d :: ds) ↔
    (d < radix ∧ c.toLower = Nat.digitChar d) ∧ SpellDigits radix cs ds := by
  constructor
  · rintro ⟨hlt, hchars⟩
    obtain ⟨hd, hds⟩ := List.forall_mem_cons.1 hlt
    obtain ⟨hc, hcs⟩ := List.cons.inj hchars
    exact ⟨⟨hd, hc⟩, hds, hcs⟩
  · rintro ⟨⟨hd, hc⟩, hds, hcs⟩
    exact ⟨List.forall_mem_cons.2 ⟨hd, hds⟩, congrArg₂ List.cons hc hcs⟩

theorem SpellDigits.length_eq {ds : List Nat} (h : SpellDigits radix cs ds) :
    ds.length = cs.length := by
  simpa using (congrArg List.length h.chars).symm

/-- Digits of the radix spell a row of values, and nothing else does. -/
theorem exists_spellDigits_iff (hradix : radix ≤ 16) :
    (∃ ds, SpellDigits radix cs ds) ↔ ∀ c ∈ cs, isDigitOf radix c = true := by
  induction cs with
  | nil => exact iff_of_true ⟨[], by simp, rfl⟩ (by simp)
  | cons c cs ih =>
    rw [List.forall_mem_cons, ← ih, isDigitOf_iff hradix]
    constructor
    · rintro ⟨_ | ⟨d, ds⟩, h⟩
      · cases h.length_eq
      · obtain ⟨hd, hds⟩ := SpellDigits.cons_iff.1 h
        exact ⟨⟨d, hd⟩, ds, hds⟩
    · rintro ⟨⟨d, hd⟩, ds, hds⟩
      exact ⟨d :: ds, SpellDigits.cons_iff.2 ⟨hd, hds⟩⟩

/-- A row of digits is valued by their places. -/
theorem SpellDigits.digitsValue_eq (hradix : radix ≤ 16) {ds : List Nat}
    (h : SpellDigits radix cs ds) : digitsValue radix cs = Nat.ofDigits radix ds.reverse := by
  suffices hfold : ∀ n, cs.foldl (fun n c => radix * n + (digitValue? c).getD 0) n =
      Nat.ofDigits radix ds.reverse + radix ^ cs.length * n by
    simpa [digitsValue] using hfold 0
  induction cs generalizing ds with
  | nil => simp [List.length_eq_zero_iff.1 h.length_eq]
  | cons c cs ih =>
    obtain _ | ⟨d, ds⟩ := ds
    · cases h.length_eq
    obtain ⟨⟨hlt, hd⟩, hds⟩ := SpellDigits.cons_iff.1 h
    intro n
    rw [List.foldl_cons, digitValue?_of_toLower (hlt.trans_le hradix) hd, Option.getD_some, ih hds,
      List.reverse_cons, Nat.ofDigits_append, Nat.ofDigits_singleton, List.length_reverse,
      hds.length_eq, List.length_cons]
    ring

/-- A row of digits without a sign has a value, which is that of the digits by their places. -/
theorem wholeValue?_eq_some_iff (hradix : radix ≤ 16) (hsign : cs.head? ≠ some '+') {v : Nat} :
    wholeValue? radix cs = some v ↔
      ∃ ds, SpellDigits radix cs ds ∧ ds ≠ [] ∧ Nat.ofDigits radix ds.reverse = v := by
  have hempty : ∀ {ds : List Nat}, SpellDigits radix cs ds → (ds ≠ [] ↔ cs ≠ []) := by
    intro ds h
    rw [← List.length_pos_iff, ← List.length_pos_iff, h.length_eq]
  simp only [wholeValue?, if_neg hsign, Option.ite_none_right_eq_some, Bool.and_eq_true,
    Bool.not_eq_true', List.isEmpty_eq_false_iff, List.all_eq_true, Option.some.injEq]
  constructor
  · rintro ⟨⟨hne, hall⟩, rfl⟩
    obtain ⟨ds, hds⟩ := (exists_spellDigits_iff hradix).2 hall
    exact ⟨ds, hds, (hempty hds).2 hne, (hds.digitsValue_eq hradix).symm⟩
  · rintro ⟨ds, hds, hne, rfl⟩
    exact ⟨⟨(hempty hds).1 hne, (exists_spellDigits_iff hradix).1 ⟨ds, hds⟩⟩,
      hds.digitsValue_eq hradix⟩

end Digits

/-! ## Prefixes -/

section Prefixes

variable {r : Char} {radix : Nat} {cs ds : List Char}

theorem radixSplit?_cons (r : Char) (ds : List Char) :
    radixSplit? ('0' :: r :: ds) = (radixOf? r).map fun radix => (radix, ds) := by
  unfold radixSplit? radixOf?
  split <;> simp_all

/-- What has no letter of a prefix behind a `0` has no prefix. -/
theorem radixSplit?_eq_none (h : ∀ r ds, cs = '0' :: r :: ds → radixOf? r = none) :
    radixSplit? cs = none := by
  by_cases hcs : ∃ r ds, cs = '0' :: r :: ds
  · obtain ⟨r, ds, rfl⟩ := hcs
    rw [radixSplit?_cons, h r ds rfl]
    rfl
  · unfold radixSplit?
    split <;> first | rfl | exact absurd ⟨_, _, rfl⟩ hcs

/-- A spelling is cut into a prefix or none and what stands behind it. -/
theorem exists_radixPrefix (cs : List Char) : ∃ pre radix ds,
    (radixSplit? cs).getD (10, cs) = (radix, ds) ∧ (pre, radix) ∈ radixPrefixes ∧
      cs = pre ++ ds := by
  unfold radixSplit?
  split
  · exact ⟨['0', 'x'], 16, _, rfl, by decide, rfl⟩
  · exact ⟨['0', 'X'], 16, _, rfl, by decide, rfl⟩
  · exact ⟨['0', 'b'], 2, _, rfl, by decide, rfl⟩
  · exact ⟨['0', 'B'], 2, _, rfl, by decide, rfl⟩
  · exact ⟨['0', 'o'], 8, _, rfl, by decide, rfl⟩
  · exact ⟨['0', 'O'], 8, _, rfl, by decide, rfl⟩
  · exact ⟨[], 10, _, rfl, by decide, rfl⟩

theorem radix_le_of_mem {pre : List Char} (h : (pre, radix) ∈ radixPrefixes) : radix ≤ 16 := by
  have hall : ∀ p ∈ radixPrefixes, p.2 ≤ 16 := by decide
  exact hall _ h

theorem head_ne_plus_of_isDigitOf
    (h : ∀ c ∈ cs, isDigitOf radix c = true) : cs.head? ≠ some '+' := by
  intro hplus
  have hdigit := h '+' (List.mem_of_mem_head? hplus)
  simp [isDigitOf, digitOf?, digitValue?] at hdigit

/-- No sign stands before the digits of a number. -/
theorem IsNumber.head_ne_plus (h : IsNumber cs) :
    ((radixSplit? cs).getD (10, cs)).2.head? ≠ some '+' := by
  cases h with
  | @radix r radix ds hr hne hds =>
    rw [radixSplit?_cons, hr]
    exact head_ne_plus_of_isDigitOf hds
  | @decimal ds fs es hds hfs hes =>
    have hnone : radixSplit? (ds ++ (fs ++ es)) = none := by
      refine radixSplit?_eq_none fun r cs hcs => ?_
      have hrest : ds ++ (fs ++ es) ++ [] = '0' :: r :: cs := by rw [List.append_nil, hcs]
      exact radixOf?_eq_none_of_decimal hds hfs hes (by simp) hrest
    rw [hnone]
    obtain ⟨d, ds, rfl⟩ := List.exists_cons_of_ne_nil hds.1
    intro hplus
    obtain rfl : d = '+' := by simpa using hplus
    exact absurd (hds.2 '+' (by simp)) (by decide)

end Prefixes

/-! ## Values -/

section Values

variable {x : String}

theorem isNumber_of_isLexeme (h : IsLexeme x) : IsNumber x.toList := by
  obtain ⟨text, ts, hts, hx⟩ := h
  obtain ⟨us, e, rfl, he, hus⟩ := tokenize_spec hts
  obtain ⟨t, ht, heq⟩ := List.mem_map.1 hx
  obtain ht | ht := List.mem_append.1 ht
  · have hwritten := hus t ht
    rwa [heq] at hwritten
  · obtain rfl := List.mem_singleton.1 ht
    rw [he] at heq
    cases heq

/-- Behind a prefix, or without one, digits are told apart from what stands before them, and count
as an integer. -/
theorem radixSplit?_of_digits_behind {pre cs : List Char} {radix : Nat}
    (hmem : (pre, radix) ∈ radixPrefixes) (hx : x.toList = pre ++ cs)
    (hcs : ∀ c ∈ cs, isDigitOf radix c = true) :
    (radixSplit? x.toList).getD (10, x.toList) = (radix, cs) ∧
      (Numeral.ofLexeme x).kind = .integer := by
  have hprefixed : ∀ r, radixOf? r = some radix → x.toList = '0' :: r :: cs →
      (radixSplit? x.toList).getD (10, x.toList) = (radix, cs) ∧
        (Numeral.ofLexeme x).kind = .integer := by
    intro r hr hx
    have hsplit : radixSplit? x.toList = some (radix, cs) := by
      rw [hx, radixSplit?_cons, hr]
      rfl
    simp [Numeral.ofLexeme, hsplit]
  simp only [radixPrefixes, List.mem_cons, Prod.mk.injEq, List.not_mem_nil, or_false] at hmem
  obtain ⟨rfl, rfl⟩ | ⟨rfl, rfl⟩ | ⟨rfl, rfl⟩ | ⟨rfl, rfl⟩ | ⟨rfl, rfl⟩ | ⟨rfl, rfl⟩ | ⟨rfl, rfl⟩ :=
    hmem
  · exact hprefixed 'x' rfl hx
  · exact hprefixed 'X' rfl hx
  · exact hprefixed 'b' rfl hx
  · exact hprefixed 'B' rfl hx
  · exact hprefixed 'o' rfl hx
  · exact hprefixed 'O' rfl hx
  · have hdigits : ∀ c ∈ x.toList, c.isDigit = true := by
      rw [hx, List.nil_append]
      exact fun c hc => isDigit_of_isDigitOf_ten (hcs c hc)
    rw [Numeral.ofLexeme, radixSplit?_of_digits hdigits, any_point_eq_false hdigits,
      Option.getD_none, hx]
    exact ⟨rfl, rfl⟩

/-- The value of a number that is read in a text : it has one if it is whole, and not too large. -/
theorem toUInt64?_eq_some_iff_isWhole (hx : IsNumber x.toList) (v : Nat) :
    (Numeral.ofLexeme x).toUInt64?.map UInt64.toNat = some v ↔ IsWhole x v ∧ v < 2 ^ 64 := by
  have hvalue : ∀ radix cs, (radixSplit? x.toList).getD (10, x.toList) = (radix, cs) →
      ((Numeral.ofLexeme x).toUInt64?.map UInt64.toNat = some v ↔
        (Numeral.ofLexeme x).kind = .integer ∧ wholeValue? radix cs = some v ∧ v < 2 ^ 64) := by
    intro radix cs hparts
    have hsize : UInt64.size = 2 ^ 64 := rfl
    rw [Numeral.toUInt64?, Numeral.lexeme_ofLexeme, hparts, hsize]
    cases (Numeral.ofLexeme x).kind with
    | decimal => simp
    | integer =>
      dsimp only
      cases wholeValue? radix cs with
      | none => simp
      | some n =>
        dsimp only
        split
        · next hlt =>
          simp only [Option.map_some, UInt64.toNat_ofNat_of_lt' hlt, Option.some.injEq, true_and]
          exact ⟨fun h => ⟨h, h ▸ hlt⟩, And.left⟩
        · next hge =>
          simp only [Option.map_none, Option.some.injEq, true_and, reduceCtorEq, false_iff]
          omega
  constructor
  · intro h
    obtain ⟨pre, radix, cs, hparts, hmem, hcs⟩ := exists_radixPrefix x.toList
    obtain ⟨-, hwhole, hlt⟩ := (hvalue radix cs hparts).1 h
    have hsign := hx.head_ne_plus
    rw [hparts] at hsign
    obtain ⟨ds, hds, hne, hv⟩ := (wholeValue?_eq_some_iff (radix_le_of_mem hmem) hsign).1 hwhole
    exact ⟨⟨pre, radix, cs, ds, hmem, hcs, hds, hne, hv⟩, hlt⟩
  · rintro ⟨⟨pre, radix, cs, ds, hmem, hcs, hds, hne, hv⟩, hlt⟩
    have hradix := radix_le_of_mem hmem
    have hdigits := (exists_spellDigits_iff hradix).1 ⟨ds, hds⟩
    obtain ⟨hparts, hkind⟩ := radixSplit?_of_digits_behind hmem hcs hdigits
    exact (hvalue radix cs hparts).2 ⟨hkind, (wholeValue?_eq_some_iff hradix
      (head_ne_plus_of_isDigitOf hdigits)).2 ⟨ds, hds, hne, hv⟩, hlt⟩

end Values

/-! ## Declarations of arrays -/

open Grammar Reader

/-- A declaration with an array of this size. -/
def bufferText (x : String) : String :=
  "type Buf [u8; " ++ x ++ "]"

section Rows

variable {t n l u c y r e : Located} {x : String}

theorem namedType_of_u8 (hu : u.token = .name "u8") (hc : c.token = .symbol .semicolon)
    (ts : List Located) : namedType ⟨u, c :: ts⟩ = .ok (.primitive .u8) ⟨c, ts⟩ := by
  have hstop : (⟨c, ts⟩ : Stream).token ≠ .symbol .dot := by simp [Stream.token, hc]
  have hspells : (Path.single "u8").Spells (words [u]) := ⟨[], rfl, by simp [words, hu]⟩
  have hpath : path ⟨u, c :: ts⟩ = .ok (.single "u8") ⟨c, ts⟩ :=
    path_of_spells hstop (by simp [Path.single]) hspells
  rw [namedType, bind_run, hpath]
  rfl

/-- The array is read if its size has a value, and refused at its size otherwise. -/
theorem arrayType_run (hl : l.token = .symbol .leftBracket) (hu : u.token = .name "u8")
    (hc : c.token = .symbol .semicolon) (hy : y.token = .number x)
    (hr : r.token = .symbol .rightBracket) :
    arrayType (typeAt maxNesting) ⟨l, [u, c, y, r, e]⟩ =
      match (Numeral.ofLexeme x).toUInt64? with
      | some v => .ok (.array (.primitive .u8) v) ⟨e, []⟩
      | none => .fail (Stream.badSize ⟨y, [r, e]⟩ x) ⟨y, [r, e]⟩ := by
  have hleft : symbol .leftBracket ⟨l, [u, c, y, r, e]⟩ = .ok () ⟨u, [c, y, r, e]⟩ :=
    symbol_eq_ok.2 ⟨hl, rfl⟩
  have helement : typeAt maxNesting ⟨u, [c, y, r, e]⟩ = .ok (.primitive .u8) ⟨c, [y, r, e]⟩ := by
    show typeOf (typeAt 127) _ = _
    rw [typeOf_run, Stream.token, hu]
    exact namedType_of_u8 hu hc _
  have hsemi : symbol .semicolon ⟨c, [y, r, e]⟩ = .ok () ⟨y, [r, e]⟩ :=
    symbol_eq_ok.2 ⟨hc, rfl⟩
  have hright : symbol .rightBracket ⟨r, [e]⟩ = .ok () ⟨e, []⟩ := symbol_eq_ok.2 ⟨hr, rfl⟩
  rw [arrayType, bind_run, hleft, Outcome.andThen_ok, bind_run, helement, Outcome.andThen_ok,
    bind_run, hsemi, Outcome.andThen_ok, bind_run, arraySize_run, Stream.token, hy]
  have hadvance : (⟨y, [r, e]⟩ : Stream).advance = ⟨r, [e]⟩ := rfl
  dsimp only
  cases (Numeral.ofLexeme x).toUInt64? with
  | none => rfl
  | some v =>
    dsimp only
    rw [Outcome.andThen_ok, hadvance, bind_run, hright]
    rfl

theorem declaration_of_array (ht : t.token = .keyword .type) (hn : n.token = .name "Buf")
    (hl : l.token = .symbol .leftBracket) (hu : u.token = .name "u8")
    (hc : c.token = .symbol .semicolon) (hy : y.token = .number x)
    (hr : r.token = .symbol .rightBracket) :
    declaration maxNesting ⟨t, [n, l, u, c, y, r, e]⟩ =
      match (Numeral.ofLexeme x).toUInt64? with
      | some v => .ok (.type "Buf" (.array (.primitive .u8) v) t.line) ⟨e, []⟩
      | none => .fail (Stream.badSize ⟨y, [r, e]⟩ x) ⟨y, [r, e]⟩ := by
  have hname : name "type name" ⟨n, [l, u, c, y, r, e]⟩ = .ok "Buf" ⟨l, [u, c, y, r, e]⟩ :=
    name_eq_ok.2 ⟨hn, rfl⟩
  have htype : typeOf (typeAt maxNesting) ⟨l, [u, c, y, r, e]⟩ =
      arrayType (typeAt maxNesting) ⟨l, [u, c, y, r, e]⟩ := by
    rw [typeOf_run, Stream.token, hl]
  have hadvance : (⟨t, [n, l, u, c, y, r, e]⟩ : Stream).advance = ⟨n, [l, u, c, y, r, e]⟩ := rfl
  rw [declaration, declarationOf_run, Stream.token, ht]
  dsimp only
  rw [typeDeclaration, bind_run, here_run, Outcome.andThen_ok, bind_run, skip_run,
    Outcome.andThen_ok, bind_run, hadvance, hname, Outcome.andThen_ok, bind_run, htype,
    arrayType_run hl hu hc hy hr]
  cases (Numeral.ofLexeme x).toUInt64? <;> rfl

/-- A file of this declaration is accepted if the size has a value, and refused otherwise. -/
theorem parseFile_of_array (ht : t.token = .keyword .type) (hn : n.token = .name "Buf")
    (hl : l.token = .symbol .leftBracket) (hu : u.token = .name "u8")
    (hc : c.token = .symbol .semicolon) (hy : y.token = .number x)
    (hr : r.token = .symbol .rightBracket) (he : e.token = .eof) :
    parseFile [t, n, l, u, c, y, r, e] =
      match (Numeral.ofLexeme x).toUInt64? with
      | some v => .accepted ⟨[.declaration (.type "Buf" (.array (.primitive .u8) v) t.line)]⟩
      | none => .refused (Stream.badSize ⟨y, [r, e]⟩ x) := by
  have hends : EndsLast [t, n, l, u, c, y, r, e] := ⟨e, rfl, he⟩
  have hdecl := declaration_of_array (e := e) ht hn hl hu hc hy hr
  cases hv : (Numeral.ofLexeme x).toUInt64? with
  | some v =>
    rw [hv] at hdecl
    exact ((itemAt_fills_iff hends).1
      ⟨_, itemAt_declaration.2 hdecl, Stream.done_of_eof he⟩).1
  | none =>
    rw [hv] at hdecl
    have htoken : (⟨t, [n, l, u, c, y, r, e]⟩ : Stream).token = .keyword .type := ht
    have hsemi : semicolons ⟨t, [n, l, u, c, y, r, e]⟩ = .ok () ⟨t, [n, l, u, c, y, r, e]⟩ :=
      semicolons_of_ne (by simp [htoken])
    have hitem : itemAt maxNesting ⟨t, [n, l, u, c, y, r, e]⟩ =
        .fail (Stream.badSize ⟨y, [r, e]⟩ x) ⟨y, [r, e]⟩ := by
      rw [itemAt_run, htoken]
      dsimp only
      rw [hdecl]
      rfl
    rw [parseFile_eq, fileRound_outcome]
    show ((Reader.many (fileRoundAt maxNesting) ⟨t, [n, l, u, c, y, r, e]⟩).map _).verdict = _
    rw [many_fileRoundAt_eq (s := ⟨t, [n, l, u, c, y, r, e]⟩) ⟨e, rfl, he⟩, hsemi,
      Outcome.andThen_ok, if_neg (by simp [htoken]), hitem]
    rfl

end Rows

theorem writes_bufferText {x : String} (hx : IsNumber x.toList) : Writes (bufferText x)
    [.keyword .type, .name "Buf", .symbol .leftBracket, .name "u8", .symbol .semicolon, .number x,
      .symbol .rightBracket] := by
  have hbuf : IsName "Buf" := .of_isWord (by decide) (by decide) (by decide) (by decide)
  have hu8 : IsName "u8" := .of_isWord (by decide) (by decide) (by decide) (by decide)
  have hsize : Writes (";" ++ (" " ++ (x ++ "]")))
      [.symbol .semicolon, .number x, .symbol .rightBracket] :=
    .append_open .semicolon (Writes.space.append
      ((Writes.number hx).append_closed (.symbol .rightBracket) rfl rfl) (clearBehind_nil _))
      fun _ => rfl
  have harray : Writes (" " ++ ("[" ++ ("u8" ++ (";" ++ (" " ++ (x ++ "]"))))))
      [.symbol .leftBracket, .name "u8", .symbol .semicolon, .number x, .symbol .rightBracket] :=
    Writes.space.append (.append_open .leftBracket ((Writes.name hu8).append_closed hsize
      (by rw [String.toList_append]; rfl) rfl) fun _ => rfl) (clearBehind_nil _)
  have hname : Writes (" " ++ ("Buf" ++ (" " ++ ("[" ++ ("u8" ++ (";" ++ (" " ++ (x ++ "]"))))))))
      [.name "Buf", .symbol .leftBracket, .name "u8", .symbol .semicolon, .number x,
        .symbol .rightBracket] :=
    Writes.space.append ((Writes.name hbuf).append_closed harray
      (by rw [String.toList_append]; rfl) rfl) (clearBehind_nil _)
  have hall : Writes ("type" ++ (" " ++ ("Buf" ++ (" " ++ ("[" ++ ("u8" ++ (";" ++
      (" " ++ (x ++ "]"))))))))) _ :=
    (Writes.keyword .type).append_closed hname (by rw [String.toList_append]; rfl) rfl
  have htext : "type Buf [u8; " =
      "type" ++ (" " ++ ("Buf" ++ (" " ++ ("[" ++ ("u8" ++ (";" ++ " ")))))) := by decide
  rw [bufferText, htext]
  simp only [String.append_assoc]
  exact hall

/-- A text with such a declaration is accepted if the size has a value, and refused otherwise. -/
theorem parseSource_bufferText {x : String} (hx : IsNumber x.toList) :
    match (Numeral.ofLexeme x).toUInt64? with
    | some v => parseSource (bufferText x) =
        .accepted ⟨[.declaration (.type "Buf" (.array (.primitive .u8) v) 1)]⟩
    | none => ∃ s : Stream, parseSource (bufferText x) = .refused (s.badSize x) := by
  obtain ⟨us, hus, hline, hscan⟩ := (writes_bufferText hx).scan .origin [] (clearBehind_end _)
  rw [List.append_nil, tokensFrom] at hscan
  obtain ⟨e, he, htokens⟩ : ∃ e : Located, e.token = .eof ∧
      tokenize (bufferText x) = .ok (us ++ [e]) := ⟨_, rfl, hscan⟩
  obtain ⟨t, _, rfl, ht, hus⟩ := words_eq_cons.1 hus
  obtain ⟨n, _, rfl, hn, hus⟩ := words_eq_cons.1 hus
  obtain ⟨l, _, rfl, hl, hus⟩ := words_eq_cons.1 hus
  obtain ⟨u, _, rfl, hu, hus⟩ := words_eq_cons.1 hus
  obtain ⟨c, _, rfl, hc, hus⟩ := words_eq_cons.1 hus
  obtain ⟨y, _, rfl, hy, hus⟩ := words_eq_cons.1 hus
  obtain ⟨r, _, rfl, hr, hus⟩ := words_eq_cons.1 hus
  obtain rfl := words_eq_nil.1 hus
  have hfirst : t.line = 1 := hline t (by simp)
  have hparse : parseSource (bufferText x) = parseFile [t, n, l, u, c, y, r, e] := by
    rw [parseSource, ofText, htokens]
    rfl
  rw [hparse, parseFile_of_array ht hn hl hu hc hy hr he, hfirst]
  cases (Numeral.ofLexeme x).toUInt64? with
  | some v => rfl
  | none => exact ⟨_, rfl⟩

/-- The size of an array is exact. The value of a number that is read in a text is that of its
digits in its radix, if it is whole and takes no more than sixty-four bits; an array has just this
size, and with any other number it is refused for its grammar. -/
theorem arraySize_exact {x : String} (hx : IsLexeme x) :
    (∀ v, (Numeral.ofLexeme x).toUInt64?.map UInt64.toNat = some v ↔ IsWhole x v ∧ v < 2 ^ 64) ∧
    (∀ v, IsWhole x v → v < 2 ^ 64 → parseSource (bufferText x) =
      .accepted ⟨[.declaration (.type "Buf" (.array (.primitive .u8) (.ofNat v)) 1)]⟩) ∧
    ((∀ v, IsWhole x v → 2 ^ 64 ≤ v) →
      ∃ d, parseSource (bufferText x) = .refused d ∧ d.kind = .grammar) := by
  have hnumber := isNumber_of_isLexeme hx
  have hvalue := toUInt64?_eq_some_iff_isWhole hnumber
  have hparse := parseSource_bufferText hnumber
  refine ⟨hvalue, fun v hv hlt => ?_, fun hlarge => ?_⟩
  · obtain ⟨n, hn, rfl⟩ := Option.map_eq_some_iff.1 ((hvalue v).2 ⟨hv, hlt⟩)
    rw [hn] at hparse
    rw [hparse, UInt64.ofNat_toNat]
  · cases hn : (Numeral.ofLexeme x).toUInt64? with
    | some n =>
      obtain ⟨hv, hlt⟩ := (hvalue n.toNat).1 (by rw [hn]; rfl)
      exact absurd (hlarge _ hv) (Nat.not_le.2 hlt)
    | none =>
      rw [hn] at hparse
      obtain ⟨s, hs⟩ := hparse
      exact ⟨_, hs, rfl⟩

/-- A hexadecimal number with an `E` among its digits, and a number with an exponent. -/
theorem arraySize_exact_exponent :
    (IsLexeme "0X1E" ∧ IsWhole "0X1E" 30 ∧ 30 < 2 ^ 64 ∧ parseSource (bufferText "0X1E") =
      .accepted ⟨[.declaration (.type "Buf" (.array (.primitive .u8) 30) 1)]⟩) ∧
    IsLexeme "1E1" ∧ (∀ v, IsWhole "1E1" v → 2 ^ 64 ≤ v) ∧
      ∃ d, parseSource (bufferText "1E1") = .refused d ∧ d.kind = .grammar := by
  have hhex : IsLexeme "0X1E" := by
    have hok : (tokenize "0X1E").map words = .ok [.number "0X1E", .eof] := by cbv
    obtain ⟨ts, hts, hwords⟩ := Except.map_eq_ok.1 hok
    exact ⟨_, ts, hts, by simp [hwords]⟩
  have hexponent : IsLexeme "1E1" := by
    have hok : (tokenize "1E1").map words = .ok [.number "1E1", .eof] := by cbv
    obtain ⟨ts, hts, hwords⟩ := Except.map_eq_ok.1 hok
    exact ⟨_, ts, hts, by simp [hwords]⟩
  have hwhole : IsWhole "0X1E" 30 :=
    ⟨['0', 'X'], 16, ['1', 'E'], [1, 14], by decide, rfl, ⟨by decide, by decide⟩, by decide, rfl⟩
  have hlt : 30 < 2 ^ 64 := by decide
  have hnone : ∀ v, IsWhole "1E1" v → 2 ^ 64 ≤ v := by
    intro v hv
    by_contra hlt
    have hsome := ((arraySize_exact hexponent).1 v).2 ⟨hv, Nat.lt_of_not_le hlt⟩
    have hnone : (Numeral.ofLexeme "1E1").toUInt64? = none := by cbv
    rw [hnone] at hsome
    cases hsome
  exact ⟨⟨hhex, hwhole, hlt, (arraySize_exact hhex).2.1 30 hwhole hlt⟩, hexponent, hnone,
    (arraySize_exact hexponent).2.2 hnone⟩

end OpsLang
