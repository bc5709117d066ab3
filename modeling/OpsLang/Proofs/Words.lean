import Mathlib.Data.List.TakeWhile
import OpsLang.Token.Lexer
import OpsLang.Numeral

/-!
# Tokens and their texts

`Token.text` is a text that a token is read from. A token that stands in a text can be
written (`Token.Written`) : a name is no keyword or unit, and a number has the shape of one.
Read from its text, such a token comes back, if the character behind is clear of it
(`Token.Clear`, `front_text`); and whatever is read off the front of a text is such a token
(`written_of_front`). The two are shown for words, numbers and strings in turn. `TokenFront` says
once in which ways a token is read.

A unit is the longest one at the front, so `longestUnit` has its own laws : no unit that ends
where a word may end is cut short by another (`longestUnit_append`).
-/

namespace OpsLang

/-! ## Characters -/

section Characters

variable {c : Char}

theorem isDigit_iff : c.isDigit = true ↔ 48 ≤ c.toNat ∧ c.toNat ≤ 57 := by
  simp only [Char.isDigit, Bool.and_eq_true, decide_eq_true_eq, ge_iff_le,
    UInt32.le_iff_toNat_le, Char.toNat]
  rfl

theorem isAlpha_iff : c.isAlpha = true ↔
    (65 ≤ c.toNat ∧ c.toNat ≤ 90) ∨ (97 ≤ c.toNat ∧ c.toNat ≤ 122) := by
  have hranges : c.isAlpha = (decide ('A'.val ≤ c.val ∧ c.val ≤ 'Z'.val) ||
      (decide ('a'.val ≤ c.val) && decide (c.val ≤ 'z'.val))) := rfl
  simp only [hranges, Bool.or_eq_true, Bool.and_eq_true, decide_eq_true_eq,
    UInt32.le_iff_toNat_le, Char.toNat]
  rfl

theorem eq_iff_toNat_eq {d : Char} : c = d ↔ c.toNat = d.toNat :=
  ⟨congrArg Char.toNat, fun h => Char.ext (UInt32.toNat_inj.1 h)⟩

theorem isWordStart_iff : isWordStart c = true ↔
    (65 ≤ c.toNat ∧ c.toNat ≤ 90) ∨ (97 ≤ c.toNat ∧ c.toNat ≤ 122) ∨ c.toNat = 95 := by
  have hunder : '_'.toNat = 95 := rfl
  simp only [isWordStart, Bool.or_eq_true, isAlpha_iff, beq_iff_eq, eq_iff_toNat_eq, hunder,
    or_assoc]

theorem isWordChar_iff : isWordChar c = true ↔
    (48 ≤ c.toNat ∧ c.toNat ≤ 57) ∨ (65 ≤ c.toNat ∧ c.toNat ≤ 90) ∨
      (97 ≤ c.toNat ∧ c.toNat ≤ 122) ∨ c.toNat = 95 := by
  have hunder : '_'.toNat = 95 := rfl
  simp only [isWordChar, Char.isAlphanum, Bool.or_eq_true, isAlpha_iff, isDigit_iff, beq_iff_eq,
    eq_iff_toNat_eq, hunder]
  omega

theorem not_isBlank_of_isWordChar (h : isWordChar c = true) : isBlank c = false := by
  rw [isWordChar_iff] at h
  simp only [isBlank, blankRanges, List.any_cons, List.any_nil, Bool.or_false, Bool.or_eq_false_iff,
    Bool.and_eq_false_iff, decide_eq_false_iff_not, Nat.not_le]
  omega

theorem not_isDigit_of_isWordStart (h : isWordStart c = true) : c.isDigit = false := by
  rw [isWordStart_iff] at h
  rw [← Bool.not_eq_true, isDigit_iff]
  omega

theorem isWordChar_of_isDigit (h : c.isDigit = true) : isWordChar c = true := by
  rw [isDigit_iff] at h
  exact isWordChar_iff.2 (.inl h)

/-- A word character begins no comment, no blank space and no string. -/
theorem front_of_isWordChar (h : isWordChar c = true) (cs : List Char) :
    front c cs =
      if c.isDigit then numberFront (c :: cs)
      else if isWordStart c then
        match wordFront (c :: cs) with
        | (t, n) => .token t (n - 1)
      else if c = '%' then .token (.unit "%") 0
      else symbolFront c cs := by
  have hne : ∀ d : Char, isWordChar d = false → c ≠ d := by
    rintro d hd rfl
    exact Bool.false_ne_true (hd.symm.trans h)
  have h1 := hne '#' rfl
  have h2 := hne '/' rfl
  have h3 := hne '"' rfl
  have h4 := hne '\'' rfl
  simp [front, h1, h2, h3, h4, not_isBlank_of_isWordChar h]

end Characters

/-! ## Words at the front of a text -/

/-- The text does not begin with a word character or a slash, so a word before it ends
there, also one that is the beginning of a unit spelling. -/
def EndsWord (rest : List Char) : Prop :=
  ∀ c ∈ rest.head?, isWordChar c = false ∧ c ≠ '/'

theorem takeWhile_append_of_head {p : Char → Bool} {rest : List Char}
    (h : ∀ c ∈ rest.head?, p c = false) (cs : List Char) :
    (cs ++ rest).takeWhile p = cs.takeWhile p := by
  induction cs with
  | nil =>
    cases rest with
    | nil => rfl
    | cons c rest => simp [h c rfl]
  | cons c cs ih =>
    rw [List.cons_append, List.takeWhile_cons, List.takeWhile_cons, ih]

theorem atWordEnd_iff {cs : List Char} :
    atWordEnd cs = true ↔ ∀ c ∈ cs.head?, isWordChar c = false := by
  cases cs <;> simp [atWordEnd]

theorem isUnit_iff {word : String} : isUnit word = true ↔ word ∈ unitSpellings := by
  simp only [isUnit, Quantity.ofUnit?, List.find?_isSome, List.contains_iff_mem, unitSpellings,
    List.mem_flatMap]

/-- The facts about the table of units that reading them rests on : a spelling is the percent
sign, or a word that is no keyword and no truth value, with slashes and further words behind
it. -/
theorem unitSpellings_shape : ∀ u ∈ unitSpellings, u = "%" ∨
    ((∀ c ∈ u.toList.head?, isWordStart c = true) ∧ u.toList ≠ [] ∧
      (∀ c ∈ u.toList, isWordChar c = true ∨ c = '/')) ∧
      Keyword.ofText? (String.ofList (u.toList.takeWhile isWordChar)) = none ∧
        String.ofList (u.toList.takeWhile isWordChar) ≠ "true" ∧
          String.ofList (u.toList.takeWhile isWordChar) ≠ "false" := by
  have hall : unitSpellings.all (fun u => u == "%" ||
      ((u.toList.head?.all isWordStart && (!u.toList.isEmpty &&
        u.toList.all fun c => isWordChar c || c == '/')) &&
          ((Keyword.ofText? (String.ofList (u.toList.takeWhile isWordChar))).isNone &&
            (String.ofList (u.toList.takeWhile isWordChar) != "true" &&
              String.ofList (u.toList.takeWhile isWordChar) != "false")))) = true := by
    decide
  simpa only [List.all_eq_true, Option.all_eq_true, Bool.or_eq_true, Bool.and_eq_true, beq_iff_eq,
    bne_iff_ne, Bool.not_eq_true', List.isEmpty_eq_false_iff, Option.isNone_iff_eq_none,
    Option.mem_def] using hall

theorem unitAtFront_iff {text : List Char} {u : String} :
    unitAtFront text u = true ↔ ∃ rest, text = u.toList ++ rest ∧ atWordEnd rest = true := by
  simp only [unitAtFront, Bool.and_eq_true, List.isPrefixOf_iff_prefix, ← String.length_toList]
  constructor
  · rintro ⟨⟨rest, rfl⟩, h⟩
    rw [List.drop_left] at h
    exact ⟨rest, rfl, h⟩
  · rintro ⟨rest, rfl, h⟩
    rw [List.drop_left]
    exact ⟨⟨rest, rfl⟩, h⟩

theorem foldl_longerOf (b : String) (us : List String) :
    ∃ u, us.foldl longerOf (some b) = some u ∧ u ∈ b :: us ∧
      ∀ v ∈ b :: us, v.length ≤ u.length := by
  induction us generalizing b with
  | nil => exact ⟨b, rfl, by simp, by simp⟩
  | cons v us ih =>
    simp only [List.foldl_cons, longerOf]
    split
    · next hlt =>
      obtain ⟨u, hu, hmem, hle⟩ := ih v
      refine ⟨u, hu, List.mem_cons_of_mem b hmem, List.forall_mem_cons.2 ⟨?_, hle⟩⟩
      exact Nat.le_trans (Nat.le_of_lt hlt) (hle v List.mem_cons_self)
    · next hge =>
      obtain ⟨u, hu, hmem, hle⟩ := ih b
      obtain ⟨hb, hus⟩ := List.forall_mem_cons.1 hle
      refine ⟨u, hu, ?_, List.forall_mem_cons.2 ⟨hb, List.forall_mem_cons.2 ⟨?_, hus⟩⟩⟩
      · rcases List.mem_cons.1 hmem with rfl | hmem
        · exact List.mem_cons_self
        · exact List.mem_cons_of_mem _ (List.mem_cons_of_mem _ hmem)
      · exact Nat.le_trans (Nat.le_of_not_lt hge) hb

theorem longestUnit_eq_none {text : List Char} (h : longestUnit text = none) {u : String}
    (hu : u ∈ unitSpellings) : unitAtFront text u = false := by
  rw [longestUnit] at h
  rw [← Bool.not_eq_true]
  intro hf
  have hmem : u ∈ unitSpellings.filter (unitAtFront text) := List.mem_filter.2 ⟨hu, hf⟩
  cases hus : unitSpellings.filter (unitAtFront text) with
  | nil => simp [hus] at hmem
  | cons b us =>
    obtain ⟨v, hv, -⟩ := foldl_longerOf b us
    rw [hus] at h
    exact Option.some_ne_none v (hv.symm.trans h)

theorem longestUnit_eq_some {text : List Char} {u : String} (h : longestUnit text = some u) :
    (u ∈ unitSpellings ∧ unitAtFront text u = true) ∧
      ∀ v ∈ unitSpellings, unitAtFront text v = true → v.length ≤ u.length := by
  rw [longestUnit] at h
  have hfilter := fun v => @List.mem_filter _ (unitAtFront text) unitSpellings v
  cases hus : unitSpellings.filter (unitAtFront text) with
  | nil =>
    rw [hus] at h
    cases h
  | cons b us =>
    rw [hus] at h hfilter
    obtain ⟨u', hu', hmem, hle⟩ := foldl_longerOf b us
    obtain rfl := Option.some.inj (hu'.symm.trans h)
    exact ⟨(hfilter u').1 hmem, fun v hv hf => hle v ((hfilter v).2 ⟨hv, hf⟩)⟩

/-- A unit spelling goes on behind a word only with a word character or a slash. -/
theorem length_le_of_endsWord {u v : String} {rest rest' : List Char} (hv : v ∈ unitSpellings)
    (hu : u.toList ≠ []) (hrest : EndsWord rest) (h : u.toList ++ rest = v.toList ++ rest') :
    v.length ≤ u.length := by
  rcases List.append_eq_append_iff.1 h with ⟨cs, hv', hrest'⟩ | ⟨cs, hu', -⟩
  · cases cs with
    | nil => simp [← String.length_toList, hv']
    | cons c cs =>
      exfalso
      have hc : isWordChar c = false ∧ c ≠ '/' := hrest c (by simp [hrest'])
      rcases unitSpellings_shape v hv with rfl | ⟨⟨-, -, hchars⟩, -⟩
      · cases hus : u.toList with
        | nil => exact hu hus
        | cons d us => simp [hus] at hv'
      · rcases hchars c (by simp [hv']) with hw | hs
        · simp [hw] at hc
        · exact hc.2 hs
  · simp [← String.length_toList, hu']

/-- A unit spelling with nothing behind it that could belong to it is read whole. -/
theorem longestUnit_append {u : String} (hu : u ∈ unitSpellings) {rest : List Char}
    (hrest : EndsWord rest) : longestUnit (u.toList ++ rest) = some u := by
  have hfront : unitAtFront (u.toList ++ rest) u = true :=
    unitAtFront_iff.2 ⟨rest, rfl, atWordEnd_iff.2 fun c hc => (hrest c hc).1⟩
  have hne : u.toList ≠ [] := by
    rcases unitSpellings_shape u hu with rfl | ⟨⟨-, hne, -⟩, -⟩
    · decide
    · exact hne
  cases hl : longestUnit (u.toList ++ rest) with
  | none => simp [longestUnit_eq_none hl hu] at hfront
  | some v =>
    obtain ⟨⟨hv, hvf⟩, hle⟩ := longestUnit_eq_some hl
    obtain ⟨rest', heq, -⟩ := unitAtFront_iff.1 hvf
    have hlen : v.length = u.length :=
      Nat.le_antisymm (length_le_of_endsWord hv hne hrest heq) (hle u hu hfront)
    have hlist := (List.append_inj heq (by simp only [String.length_toList, hlen])).1
    rw [String.toList_inj.1 hlist]

/-! ## Names, keywords and units -/

/-- The word is read as a name. -/
structure IsName (n : String) : Prop where
  ne_nil : n.toList ≠ []
  start : ∀ c ∈ n.toList.head?, isWordStart c = true
  chars : ∀ c ∈ n.toList, isWordChar c = true
  keyword : Keyword.ofText? n = none
  truth : n ≠ "true" ∧ n ≠ "false"
  unit : isUnit n = false

/-- The text is a word, and no number. -/
def isWord (cs : List Char) : Bool :=
  cs.head?.any isWordStart && cs.all isWordChar

theorem shape_of_isWord {cs : List Char} (h : isWord cs = true) :
    cs ≠ [] ∧ (∀ c ∈ cs.head?, isWordStart c = true) ∧ ∀ c ∈ cs, isWordChar c = true := by
  cases cs with
  | nil => cases h
  | cons c cs =>
    obtain ⟨hstart, hchars⟩ := Bool.and_eq_true_iff.1 h
    refine ⟨List.cons_ne_nil c cs, ?_, List.all_eq_true.1 hchars⟩
    rintro _ ⟨⟩
    exact hstart

theorem IsName.of_isWord {n : String} (h : isWord n.toList = true)
    (hkeyword : Keyword.ofText? n = none) (htruth : n ≠ "true" ∧ n ≠ "false")
    (hunit : isUnit n = false) : IsName n := by
  obtain ⟨hne, hstart, hchars⟩ := shape_of_isWord h
  exact ⟨hne, hstart, hchars, hkeyword, htruth, hunit⟩

/-- The word characters at the front of a text that goes on behind a word. -/
theorem takeWhile_append_of_endsWord {cs rest : List Char} (hrest : EndsWord rest) :
    (cs ++ rest).takeWhile isWordChar = cs.takeWhile isWordChar :=
  takeWhile_append_of_head (fun c hc => (hrest c hc).1) cs

theorem wordFront_name {n : String} (h : IsName n) {rest : List Char} (hrest : EndsWord rest) :
    wordFront (n.toList ++ rest) = (.name n, n.length) := by
  rw [wordFront, takeWhile_append_of_endsWord hrest, List.takeWhile_eq_self_iff.2 h.chars]
  simp only [String.ofList_toList, h.keyword, h.truth, if_false]
  cases hl : longestUnit (n.toList ++ rest) with
  | none => rfl
  | some u =>
    obtain ⟨⟨hu, huf⟩, -⟩ := longestUnit_eq_some hl
    obtain ⟨rest', heq, -⟩ := unitAtFront_iff.1 huf
    have hle := length_le_of_endsWord hu h.ne_nil hrest heq
    have hlt : ¬n.length ≤ u.length := by
      intro hge
      have hlist := (List.append_inj heq
        (by simp only [String.length_toList, Nat.le_antisymm hge hle])).1
      obtain rfl := String.toList_inj.1 hlist
      have hno := h.unit
      rw [isUnit_iff.2 hu] at hno
      cases hno
    simp only [hlt, if_false]

theorem wordFront_unit {u : String} (hu : u ∈ unitSpellings) (hne : u ≠ "%") {rest : List Char}
    (hrest : EndsWord rest) : wordFront (u.toList ++ rest) = (.unit u, u.length) := by
  obtain ⟨-, hk, ht, hf⟩ := (unitSpellings_shape u hu).resolve_left hne
  rw [wordFront, takeWhile_append_of_endsWord hrest, longestUnit_append hu hrest]
  have hle : (String.ofList (u.toList.takeWhile isWordChar)).length ≤ u.length := by
    rw [String.length_ofList, ← String.length_toList]
    exact (List.takeWhile_prefix _).length_le
  simp only [hk, ht, hf, hle, if_false, if_true]

theorem keyword_text_shape (k : Keyword) : k.text.toList ≠ [] ∧
    (∀ c ∈ k.text.toList.head?, isWordStart c = true) ∧
      ∀ c ∈ k.text.toList, isWordChar c = true :=
  shape_of_isWord (by cases k <;> rfl)

theorem wordFront_keyword (k : Keyword) {rest : List Char} (hrest : EndsWord rest) :
    wordFront (k.text.toList ++ rest) = (.keyword k, k.text.length) := by
  rw [wordFront, takeWhile_append_of_endsWord hrest,
    List.takeWhile_eq_self_iff.2 (keyword_text_shape k).2.2]
  simp only [String.ofList_toList, k.ofText?_text]

theorem truthText_shape (b : Bool) : (truthText b).toList ≠ [] ∧
    (∀ c ∈ (truthText b).toList.head?, isWordStart c = true) ∧
      ∀ c ∈ (truthText b).toList, isWordChar c = true :=
  shape_of_isWord (by cases b <;> rfl)

theorem wordFront_truth (b : Bool) {rest : List Char} (hrest : EndsWord rest) :
    wordFront ((truthText b).toList ++ rest) = (.truth b, (truthText b).length) := by
  have hchars := (truthText_shape b).2.2
  rw [wordFront, takeWhile_append_of_endsWord hrest, List.takeWhile_eq_self_iff.2 hchars]
  simp only [String.ofList_toList]
  cases b <;> rfl

/-- A word takes its word characters, or is a unit no shorter than these. -/
theorem wordFront_length (cs : List Char) :
    (wordFront cs).2 = (cs.takeWhile isWordChar).length ∨
      ∃ u, longestUnit cs = some u ∧ (cs.takeWhile isWordChar).length ≤ u.length ∧
        (wordFront cs).2 = u.length := by
  rw [wordFront, ← String.length_ofList]
  split
  · exact .inl rfl
  split
  · exact .inl rfl
  split
  · exact .inl rfl
  split
  · next u hu =>
    split
    · next hle => exact .inr ⟨u, hu, hle, rfl⟩
    · exact .inl rfl
  · exact .inl rfl

/-- What is read as a name is a name, and what is read as a unit is a unit. -/
theorem wordFront_cases {c : Char} {cs : List Char} (hc : isWordStart c = true) {t : Token}
    {n : Nat} (h : wordFront (c :: cs) = (t, n)) :
    (∃ k, t = .keyword k) ∨ (∃ b, t = .truth b) ∨ (∃ u ∈ unitSpellings, t = .unit u) ∨
      ∃ n, IsName n ∧ t = .name n := by
  have hhead : isWordChar c = true := isWordChar_of_isWordStart hc
  have htake : (c :: cs).takeWhile isWordChar = c :: cs.takeWhile isWordChar := by
    simp [hhead]
  rw [wordFront] at h
  split at h
  · next k _ => exact .inl ⟨k, (congrArg Prod.fst h).symm⟩
  next hk =>
  split at h
  · exact .inr (.inl ⟨true, (congrArg Prod.fst h).symm⟩)
  next ht =>
  split at h
  · exact .inr (.inl ⟨false, (congrArg Prod.fst h).symm⟩)
  next hf =>
  have hname : ∀ {word}, word = String.ofList ((c :: cs).takeWhile isWordChar) →
      (isUnit word = true → False) → Token.name word = t →
      ∃ n, IsName n ∧ t = .name n := by
    rintro word rfl hunit rfl
    refine ⟨_, ⟨?_, ?_, ?_, hk, ⟨ht, hf⟩, Bool.eq_false_iff.2 hunit⟩, rfl⟩
    · simp [htake]
    · simp [htake, hc]
    · intro d hd
      rw [String.toList_ofList] at hd
      exact List.all_eq_true.1 List.all_takeWhile d hd
  have hwhole : unitAtFront (c :: cs) (String.ofList ((c :: cs).takeWhile isWordChar)) = true := by
    refine unitAtFront_iff.2 ⟨(c :: cs).dropWhile isWordChar, by simp, atWordEnd_iff.2 ?_⟩
    intro d hd
    have hnot := List.head?_dropWhile_not isWordChar (c :: cs)
    rw [Option.mem_def.1 hd] at hnot
    exact hnot
  split at h
  · next u hu =>
    obtain ⟨⟨hmem, -⟩, hle⟩ := longestUnit_eq_some hu
    split at h
    · exact .inr (.inr (.inl ⟨u, hmem, (congrArg Prod.fst h).symm⟩))
    · next hlt =>
      refine .inr (.inr (.inr (hname rfl (fun hunit => hlt ?_) (congrArg Prod.fst h))))
      exact hle _ (isUnit_iff.1 hunit) hwhole
  · next hnone =>
    refine .inr (.inr (.inr (hname rfl (fun hunit => ?_) (congrArg Prod.fst h))))
    have := longestUnit_eq_none hnone (isUnit_iff.1 hunit)
    simp [hwhole] at this

/-! ## Numbers -/

/-- A row of decimal digits. -/
def IsDigits (ds : List Char) : Prop :=
  ds ≠ [] ∧ ∀ d ∈ ds, d.isDigit = true

/-- A fraction, or none. -/
inductive IsFraction : List Char → Prop
  | none : IsFraction []
  | some {ds : List Char} (h : IsDigits ds) : IsFraction ('.' :: ds)

/-- An exponent, or none. -/
inductive IsExponent : List Char → Prop
  | none : IsExponent []
  | plain {e : Char} {ds : List Char} (he : e = 'e' ∨ e = 'E') (h : IsDigits ds) :
      IsExponent (e :: ds)
  | signed {e s : Char} {ds : List Char} (he : e = 'e' ∨ e = 'E') (hs : s = '+' ∨ s = '-')
      (h : IsDigits ds) : IsExponent (e :: s :: ds)

/-- The spelling of a number. -/
inductive IsNumber : List Char → Prop
  | radix {r : Char} {radix : Nat} {ds : List Char} (hr : radixOf? r = some radix) (hne : ds ≠ [])
      (hds : ∀ d ∈ ds, isDigitOf radix d = true) : IsNumber ('0' :: r :: ds)
  | decimal {ds fs es : List Char} (hds : IsDigits ds) (hfs : IsFraction fs)
      (hes : IsExponent es) : IsNumber (ds ++ (fs ++ es))

/-- The text does not begin with a word character or a point, so a number before it ends
there. -/
def EndsNumber (rest : List Char) : Prop :=
  ∀ c ∈ rest.head?, isWordChar c = false ∧ c ≠ '.'

/-- The text does not begin with a digit, a point or an exponent, so the digits of a number
before it end there. -/
structure EndsDecimal (rest : List Char) : Prop where
  head : ∀ c ∈ rest.head?, c.isDigit = false ∧ c ≠ '.'
  exponent : exponentLength rest = 0

section Numbers

variable {cs ds fs es rest : List Char}

theorem digitCount_append (hds : ∀ d ∈ ds, d.isDigit = true)
    (hrest : ∀ c ∈ rest.head?, c.isDigit = false) : digitCount (ds ++ rest) = ds.length := by
  rw [digitCount, takeWhile_append_of_head hrest, List.takeWhile_eq_self_iff.2 hds]

theorem EndsNumber.not_isDigit (h : EndsNumber rest) : ∀ c ∈ rest.head?, c.isDigit = false := by
  intro c hc
  rw [← Bool.not_eq_true]
  intro hd
  exact Bool.false_ne_true ((h c hc).1.symm.trans (isWordChar_of_isDigit hd))

theorem EndsNumber.endsDecimal (h : EndsNumber rest) : EndsDecimal rest where
  head c hc := ⟨h.not_isDigit c hc, (h c hc).2⟩
  exponent := by
    cases rest with
    | nil => rfl
    | cons c rest =>
      have hc : ¬(c = 'e' ∨ c = 'E') := by
        have hword := (h c rfl).1
        rintro (rfl | rfl) <;> cases hword
      simp [exponentLength, hc]

theorem EndsDecimal.not_isDigit (h : EndsDecimal rest) :
    ∀ c ∈ rest.head?, c.isDigit = false :=
  fun c hc => (h.head c hc).1

theorem IsExponent.head_append (hes : IsExponent es) (hrest : EndsDecimal rest) :
    ∀ c ∈ (es ++ rest).head?, c.isDigit = false ∧ c ≠ '.' := by
  intro c hc
  cases hes with
  | none => exact hrest.head c hc
  | plain he =>
    cases hc
    rcases he with rfl | rfl <;> decide
  | signed he =>
    cases hc
    rcases he with rfl | rfl <;> decide

theorem exponentLength_append (hes : IsExponent es) (hrest : EndsDecimal rest) :
    exponentLength (es ++ rest) = es.length := by
  cases hes with
  | none => exact hrest.exponent
  | @plain e ds he h =>
    obtain ⟨d, ds, rfl⟩ := List.exists_cons_of_ne_nil h.1
    have hd : ¬(d = '+' ∨ d = '-') := by
      have hdigit := h.2 d List.mem_cons_self
      rintro (rfl | rfl) <;> cases hdigit
    have hcount := digitCount_append h.2 hrest.not_isDigit
    rw [List.cons_append] at hcount
    simp [exponentLength, he, hd, hcount]
  | @signed e s ds he hs h =>
    have hcount := digitCount_append h.2 hrest.not_isDigit
    simp [exponentLength, he, hs, hcount, h.1]

theorem fractionLength_append (hfs : IsFraction fs) (hes : IsExponent es)
    (hrest : EndsDecimal rest) : fractionLength (fs ++ (es ++ rest)) = fs.length := by
  have hhead := hes.head_append hrest
  cases hfs with
  | none =>
    rw [List.nil_append]
    cases hcs : es ++ rest with
    | nil => rfl
    | cons c cs =>
      have hc : c ≠ '.' := (hhead c (by simp [hcs])).2
      unfold fractionLength
      split
      · next heq => exact absurd (List.cons.inj heq).1 hc
      · rfl
  | some h =>
    have hcount := digitCount_append h.2 fun c hc => (hhead c hc).1
    simp [fractionLength, hcount, h.1]

theorem IsFraction.head_append (hfs : IsFraction fs) (hes : IsExponent es)
    (hrest : EndsDecimal rest) : ∀ c ∈ (fs ++ (es ++ rest)).head?, c.isDigit = false := by
  cases hfs with
  | none => exact fun c hc => (hes.head_append hrest c hc).1
  | some h =>
    intro c hc
    cases hc
    decide

theorem decimalLength_append (hds : IsDigits ds) (hfs : IsFraction fs) (hes : IsExponent es)
    (hrest : EndsDecimal rest) :
    decimalLength (ds ++ (fs ++ (es ++ rest))) = (ds ++ (fs ++ es)).length := by
  have hcount := digitCount_append hds.2 (hfs.head_append hes hrest)
  simp only [decimalLength, hcount, List.drop_left, fractionLength_append hfs hes hrest]
  rw [← List.append_assoc ds, ← List.length_append, List.drop_left,
    exponentLength_append hes hrest]
  simp only [List.length_append]
  omega

theorem numberOfLength_append (cs : List Char)
    (hrest : ∀ c ∈ rest.head?, isWordChar c = true → (longestUnit rest).isSome = true) :
    numberOfLength (cs ++ rest) cs.length =
      .token (.number (String.ofList cs)) (cs.length - 1) := by
  rw [numberOfLength, List.drop_left, List.take_left]
  split
  · rfl
  · next c cs =>
    cases hc : isWordChar c with
    | false => rfl
    | true =>
      obtain ⟨u, hu⟩ := Option.isSome_iff_exists.1 (hrest c rfl hc)
      rw [hu]
      rfl

theorem isWordChar_of_isDigitOf {radix : Nat} {c : Char} (h : isDigitOf radix c = true) :
    isWordChar c = true := by
  have hsome : (digitValue? c).isSome := by
    cases hv : digitValue? c with
    | none => simp [isDigitOf, digitOf?, hv] at h
    | some v => rfl
  unfold digitValue? at hsome
  rw [isWordChar_iff]
  split at hsome
  · next hd => exact .inl (isDigit_iff.1 hd)
  · split at hsome
    · next hc =>
      have h1 : 97 ≤ c.toNat := hc.1
      have h2 : c.toNat ≤ 102 := hc.2
      omega
    · split at hsome
      · next hc =>
        have h1 : 65 ≤ c.toNat := hc.1
        have h2 : c.toNat ≤ 70 := hc.2
        omega
      · cases hsome

theorem radixOf?_eq_none {c : Char}
    (h : c.isDigit = true ∨ isWordChar c = false ∨ c = 'e' ∨ c = 'E') :
    radixOf? c = none := by
  unfold radixOf?
  split <;> first | rfl | (rcases h with h | h | h | h <;> cases h)

/-- A decimal number is not read as if it had a radix prefix. -/
theorem numberFront_decimal (h : ∀ r ds, cs = '0' :: r :: ds → radixOf? r = none) :
    numberFront cs = numberOfLength cs (decimalLength cs) := by
  unfold numberFront
  split
  · next r ds => simp [h r ds rfl]
  · rfl

/-- A decimal number does not begin with a radix prefix, unless it is a `0` that makes one with the
letter behind it. -/
theorem radixOf?_eq_none_of_decimal (hds : IsDigits ds) (hfs : IsFraction fs) (hes : IsExponent es)
    (hradix : ds ++ (fs ++ es) = ['0'] → ∀ r ∈ rest.head?, radixOf? r = none) {r : Char}
    (h : ds ++ (fs ++ es) ++ rest = '0' :: r :: cs) : radixOf? r = none := by
  obtain ⟨d, ds, rfl⟩ := List.exists_cons_of_ne_nil hds.1
  simp only [List.append_assoc, List.cons_append] at h
  obtain ⟨rfl, htail⟩ := List.cons.inj h
  cases ds with
  | cons d' ds =>
    obtain ⟨rfl, -⟩ := List.cons.inj htail
    exact radixOf?_eq_none (.inl (hds.2 _ (by simp)))
  | nil =>
    cases hfs with
    | some =>
      obtain ⟨rfl, -⟩ := List.cons.inj htail
      rfl
    | none =>
      cases hes with
      | none =>
        have hrest' : rest = r :: cs := htail
        exact hradix rfl r (by simp [hrest'])
      | plain he =>
        obtain ⟨rfl, -⟩ := List.cons.inj htail
        exact radixOf?_eq_none (.inr (.inr he))
      | signed he =>
        obtain ⟨rfl, -⟩ := List.cons.inj htail
        exact radixOf?_eq_none (.inr (.inr he))

/-- A decimal number is read whole before anything but a word, or before a unit, unless it is a
`0` that makes a radix prefix with the letter behind it. -/
theorem numberFront_append_of_decimal (hds : IsDigits ds) (hfs : IsFraction fs)
    (hes : IsExponent es) (hrest : EndsDecimal rest)
    (hunit : ∀ c ∈ rest.head?, isWordChar c = true → (longestUnit rest).isSome = true)
    (hradix : ds ++ (fs ++ es) = ['0'] → ∀ r ∈ rest.head?, radixOf? r = none) :
    numberFront (ds ++ (fs ++ es) ++ rest) =
      .token (.number (String.ofList (ds ++ (fs ++ es)))) ((ds ++ (fs ++ es)).length - 1) := by
  have hnumber := numberOfLength_append (ds ++ (fs ++ es)) hunit
  have hlength := decimalLength_append hds hfs hes hrest
  rw [← List.append_assoc fs, ← List.append_assoc ds] at hlength
  rw [numberFront_decimal fun _ _ => radixOf?_eq_none_of_decimal hds hfs hes hradix, hlength,
    hnumber]

theorem IsNumber.numberFront_append (h : IsNumber cs) (hrest : EndsNumber rest) :
    numberFront (cs ++ rest) = .token (.number (String.ofList cs)) (cs.length - 1) := by
  have hunit : ∀ c ∈ rest.head?, isWordChar c = true → (longestUnit rest).isSome = true := by
    intro c hc hword
    rw [(hrest c hc).1] at hword
    cases hword
  cases h with
  | @radix r radix ds hr hne hds =>
    have htake : (ds ++ rest).takeWhile (isDigitOf radix) = ds := by
      rw [takeWhile_append_of_head, List.takeWhile_eq_self_iff.2 hds]
      intro c hc
      rw [← Bool.not_eq_true]
      intro hd
      exact Bool.false_ne_true ((hrest c hc).1.symm.trans (isWordChar_of_isDigitOf hd))
    have hlen : ds.length ≠ 0 := fun h => hne (List.eq_nil_of_length_eq_zero h)
    have hnum := numberOfLength_append ('0' :: r :: ds) hunit
    simp only [List.cons_append, List.length_cons] at hnum ⊢
    simp only [numberFront, hr, htake, hlen, if_false, hnum]
  | decimal hds hfs hes =>
    exact numberFront_append_of_decimal hds hfs hes hrest.endsDecimal hunit
      fun _ r hr => radixOf?_eq_none (.inr (.inl (hrest r hr).1))

theorem IsNumber.exists_cons (h : IsNumber cs) :
    ∃ c ds, cs = c :: ds ∧ c.isDigit = true := by
  cases h with
  | radix => exact ⟨'0', _, rfl, rfl⟩
  | decimal hds =>
    obtain ⟨d, ds, rfl⟩ := List.exists_cons_of_ne_nil hds.1
    exact ⟨d, _, rfl, hds.2 d List.mem_cons_self⟩

theorem newline_notMem_of_isDigits (h : ∀ d ∈ ds, d.isDigit = true) : '\n' ∉ ds :=
  fun hmem => by cases h _ hmem

/-- The spelling of a number stands on one line. -/
theorem newline_notMem_of_isNumber (h : IsNumber cs) : '\n' ∉ cs := by
  cases h with
  | @radix r radix ds hr _ hds =>
    have hr' : '\n' ≠ r := by
      rintro rfl
      cases hr
    have hds' : '\n' ∉ ds := fun hmem => by cases isWordChar_of_isDigitOf (hds _ hmem)
    simp [hr', hds']
  | @decimal ds fs es hds hfs hes =>
    have hds' := newline_notMem_of_isDigits hds.2
    have hfs' : '\n' ∉ fs := by
      cases hfs with
      | none => simp
      | some h => simpa using newline_notMem_of_isDigits h.2
    have hes' : '\n' ∉ es := by
      cases hes with
      | none => simp
      | plain he h =>
        have := newline_notMem_of_isDigits h.2
        rcases he with rfl | rfl <;> simpa
      | signed he hs h =>
        have := newline_notMem_of_isDigits h.2
        rcases he with rfl | rfl <;> rcases hs with rfl | rfl <;> simpa
    simp [hds', hfs', hes']

/-! ### What is read as a number -/

theorem take_length_takeWhile (p : Char → Bool) (cs : List Char) :
    cs.take (cs.takeWhile p).length = cs.takeWhile p :=
  (List.prefix_iff_eq_take.1 (List.takeWhile_prefix p)).symm

theorem isDigits_take (h : digitCount cs ≠ 0) : IsDigits (cs.take (digitCount cs)) := by
  rw [digitCount, take_length_takeWhile]
  exact ⟨fun hnil => h (by simp [digitCount, hnil]),
    fun d hd => List.all_eq_true.1 List.all_takeWhile d hd⟩

theorem isFraction_take (cs : List Char) : IsFraction (cs.take (fractionLength cs)) := by
  unfold fractionLength
  split
  · next cs =>
    split
    · exact .none
    · next h => exact .some (isDigits_take h)
  · exact .none

theorem isExponent_take (cs : List Char) : IsExponent (cs.take (exponentLength cs)) := by
  unfold exponentLength
  split
  · exact .none
  · next e cs =>
    split
    · next he =>
      split
      · exact .none
      · next s ds =>
        split
        · next hs =>
          split
          · exact .none
          · next h => exact .signed he hs (isDigits_take h)
        · split
          · exact .none
          · next h => exact .plain he (isDigits_take h)
    · exact .none

/-- What is read as a number is the spelling of one. -/
theorem numberFront_cases {c : Char} (hc : c.isDigit = true) {t : Token} {n : Nat}
    (h : numberFront (c :: cs) = .token t n) : ∃ x, IsNumber x ∧ t = .number (String.ofList x) := by
  have hlength : ∀ {cs n k}, numberOfLength cs k = .token t n →
      t = .number (String.ofList (cs.take k)) := by
    intro cs n k h
    unfold numberOfLength at h
    split at h
    · cases h
      rfl
    · split at h
      · cases h
      · cases h
        rfl
  have hdecimal : ∀ {n}, numberOfLength (c :: cs) (decimalLength (c :: cs)) = .token t n →
      ∃ x, IsNumber x ∧ t = .number (String.ofList x) := by
    intro n h
    refine ⟨_, ?_, hlength h⟩
    simp only [decimalLength, List.take_add, List.append_assoc]
    refine .decimal (isDigits_take ?_) (isFraction_take _) ?_
    · simp [digitCount, hc]
    · exact isExponent_take _
  unfold numberFront at h
  split at h
  · next r cs' heq =>
    split at h
    · next radix hr =>
      simp only at h
      split at h
      · cases h
      · next hne =>
        refine ⟨_, ?_, hlength h⟩
        rw [List.take_succ_cons, List.take_succ_cons, take_length_takeWhile]
        refine .radix hr (fun hnil => hne (by simp [hnil])) fun d hd => ?_
        exact List.all_eq_true.1 List.all_takeWhile d hd
    · rw [← heq] at h
      exact hdecimal h
  · exact hdecimal h

end Numbers

/-! ## Strings -/

theorem stringRest_close (rest : List Char) : stringRest '"' ('"' :: rest) = .closed [] 1 := by
  rw [stringRest.eq_def]
  rfl

theorem stringRest_escape (d : Char) (rest : List Char) :
    stringRest '"' ('\\' :: d :: rest) = (stringRest '"' rest).push (unescape d) 2 := by
  rw [stringRest.eq_def]
  rfl

theorem stringRest_plain {c : Char} (h : c ≠ '\n' ∧ c ≠ '"' ∧ c ≠ '\\') (rest : List Char) :
    stringRest '"' (c :: rest) = (stringRest '"' rest).push [c] 1 := by
  rw [stringRest.eq_def]
  simp only [h, if_false]

/-- A character behind a backslash, if it has a letter there, or by itself is read as itself. -/
theorem stringRest_quoteChar (c : Char) (rest : List Char) :
    stringRest '"' (quoteChar c ++ rest) =
      (stringRest '"' rest).push [c] (quoteChar c).length := by
  cases he : shortEscape? c with
  | some e =>
    have hun : unescape e = [c] := by
      unfold shortEscape? at he
      split at he <;> cases he <;> rfl
    have hq : quoteChar c = ['\\', e] := by simp [quoteChar, he]
    rw [hq, List.cons_append, List.singleton_append, stringRest_escape, hun]
    rfl
  | none =>
    have hc : c ≠ '\n' ∧ c ≠ '"' ∧ c ≠ '\\' := by
      refine ⟨?_, ?_, ?_⟩ <;> rintro rfl <;> cases he
    have hq : quoteChar c = [c] := by simp [quoteChar, he]
    rw [hq, List.singleton_append, stringRest_plain hc]
    rfl

theorem stringRest_quoted (s rest : List Char) :
    stringRest '"' (s.flatMap quoteChar ++ '"' :: rest) =
      .closed s ((s.flatMap quoteChar).length + 1) := by
  induction s with
  | nil => exact stringRest_close rest
  | cons c s ih =>
    rw [List.flatMap_cons, List.append_assoc, List.length_append, stringRest_quoteChar, ih,
      StringRest.push, List.singleton_append, Nat.add_assoc]

/-- A quoted text stands on one line. -/
theorem newline_notMem_quote (s : String) : '\n' ∉ (quote s).toList := by
  intro h
  simp only [quote, String.toList_ofList, List.mem_append, List.mem_cons, List.mem_flatMap,
    List.not_mem_nil, or_false] at h
  rcases h with (h | ⟨c, -, h⟩) | h
  · cases h
  · unfold quoteChar at h
    split at h
    · next e he =>
      have hne : e ≠ '\n' := by
        unfold shortEscape? at he
        split at he <;> cases he <;> decide
      simp only [List.mem_cons, List.not_mem_nil, or_false] at h
      rcases h with h | h
      · cases h
      · exact hne h.symm
    · next hnone =>
      obtain rfl := List.mem_singleton.1 h
      cases hnone
  · cases h

/-! ## All tokens -/

namespace Token

/-- The text that a token is written as. -/
def text : Token → String
  | keyword k => k.text
  | name s | number s | unit s => s
  | string s => quote s
  | truth b => truthText b
  | symbol s => s.text
  | eof => ""

/-- The token can be written. -/
def Written : Token → Prop
  | name n => IsName n
  | number x => IsNumber x.toList
  | unit u => u ∈ unitSpellings
  | eof => False
  | _ => True

/-- The character does not go on from the text of the token. -/
def clear : Token → Char → Bool
  | keyword _, c | name _, c | truth _, c | unit _, c => !isWordChar c && c != '/'
  | number _, c => !isWordChar c && c != '.'
  | symbol .slash, c | symbol .star, c => c != '*'
  | symbol .assign, c | symbol .greater, c => c != '='
  | symbol .less, c => c != '=' && c != '>'
  | _, _ => true

/-- The text does not go on from the text of the token. -/
def Clear (t : Token) (rest : List Char) : Prop :=
  ∀ c ∈ rest.head?, t.clear c = true

end Token

section Fronts

variable {rest : List Char}

theorem endsWord_of_clear {t : Token} (ht : ∀ c, t.clear c = (!isWordChar c && c != '/'))
    (h : t.Clear rest) : EndsWord rest := by
  intro c hc
  simpa [ht] using h c hc

theorem front_word {c : Char} {cs : List Char} (hc : isWordStart c = true) {t : Token} {n : Nat}
    (h : wordFront (c :: cs) = (t, n + 1)) : front c cs = .token t n := by
  rw [front_of_isWordChar (isWordChar_of_isWordStart hc), not_isDigit_of_isWordStart hc]
  simp [hc, h]

/-- What is written as a word is read as it. -/
theorem front_of_wordFront {t : Token} {word : String} (hne : word.toList ≠ [])
    (hstart : ∀ c ∈ word.toList.head?, isWordStart c = true)
    (h : wordFront (word.toList ++ rest) = (t, word.length)) :
    ∃ c cs, word.toList = c :: cs ∧ front c (cs ++ rest) = .token t cs.length := by
  obtain ⟨c, cs, hword⟩ := List.exists_cons_of_ne_nil hne
  rw [← String.length_toList, hword] at h
  exact ⟨c, cs, hword, front_word (hstart c (by simp [hword])) h⟩

/-- A clear character makes no pair with the symbol before it. -/
theorem pairSymbol?_of_clear {c d : Char} {y : Symbol} (hy : singleSymbol? c = some y)
    (hd : (Token.symbol y).clear d = true) : pairSymbol? c d = none := by
  unfold pairSymbol?
  split <;> first
    | rfl
    | cases hy
      done
    | cases hy
      cases hd

/-- A symbol of one character. -/
theorem front_single {c : Char} {y : Symbol} (hblank : isBlank c = false)
    (hword : isWordChar c = false) (hne : c ≠ '#' ∧ c ≠ '"' ∧ c ≠ '\'' ∧ c ≠ '%')
    (hy : singleSymbol? c = some y) (h : (Token.symbol y).Clear rest) :
    front c rest = .token (.symbol y) 0 := by
  have hdigit : c.isDigit = false := by
    rw [← Bool.not_eq_true]
    intro h
    exact Bool.false_ne_true (hword.symm.trans (isWordChar_of_isDigit h))
  have hstart : isWordStart c = false := by
    rw [← Bool.not_eq_true]
    intro h
    exact Bool.false_ne_true (hword.symm.trans (isWordChar_of_isWordStart h))
  have hnone : rest.head?.bind (pairSymbol? c) = none := by
    cases rest with
    | nil => rfl
    | cons d rest => exact pairSymbol?_of_clear hy (h d rfl)
  have hcomment : ¬(c = '/' ∧ rest.head? = some '*') := by
    rintro ⟨rfl, hd⟩
    cases hy
    exact absurd (h '*' hd) (by decide)
  simp [front, hne, hcomment, hblank, hdigit, hstart, symbolFront, hnone, hy]

theorem front_symbol {y : Symbol} (h : (Token.symbol y).Clear rest) :
    ∃ c cs, y.text.toList = c :: cs ∧ front c (cs ++ rest) = .token (.symbol y) cs.length := by
  cases y
  case equal => exact ⟨'=', ['='], rfl, rfl⟩
  case notEqual => exact ⟨'!', ['='], rfl, rfl⟩
  case lessGreater => exact ⟨'<', ['>'], rfl, rfl⟩
  case lessEqual => exact ⟨'<', ['='], rfl, rfl⟩
  case greaterEqual => exact ⟨'>', ['='], rfl, rfl⟩
  case starStar => exact ⟨'*', ['*'], rfl, rfl⟩
  case leftParen => exact ⟨'(', [], rfl, front_single rfl rfl (by decide) rfl h⟩
  case rightParen => exact ⟨')', [], rfl, front_single rfl rfl (by decide) rfl h⟩
  case leftBrace => exact ⟨'\x7b', [], rfl, front_single rfl rfl (by decide) rfl h⟩
  case rightBrace => exact ⟨'\x7d', [], rfl, front_single rfl rfl (by decide) rfl h⟩
  case leftBracket => exact ⟨'[', [], rfl, front_single rfl rfl (by decide) rfl h⟩
  case rightBracket => exact ⟨']', [], rfl, front_single rfl rfl (by decide) rfl h⟩
  case comma => exact ⟨',', [], rfl, front_single rfl rfl (by decide) rfl h⟩
  case dot => exact ⟨'.', [], rfl, front_single rfl rfl (by decide) rfl h⟩
  case semicolon => exact ⟨';', [], rfl, front_single rfl rfl (by decide) rfl h⟩
  case colon => exact ⟨':', [], rfl, front_single rfl rfl (by decide) rfl h⟩
  case assign => exact ⟨'=', [], rfl, front_single rfl rfl (by decide) rfl h⟩
  case less => exact ⟨'<', [], rfl, front_single rfl rfl (by decide) rfl h⟩
  case greater => exact ⟨'>', [], rfl, front_single rfl rfl (by decide) rfl h⟩
  case plus => exact ⟨'+', [], rfl, front_single rfl rfl (by decide) rfl h⟩
  case minus => exact ⟨'-', [], rfl, front_single rfl rfl (by decide) rfl h⟩
  case star => exact ⟨'*', [], rfl, front_single rfl rfl (by decide) rfl h⟩
  case slash => exact ⟨'/', [], rfl, front_single rfl rfl (by decide) rfl h⟩

/-- The text of a token is read as that token, whatever goes on behind it. -/
theorem front_text {t : Token} (ht : t.Written) (h : t.Clear rest) :
    ∃ c cs, t.text.toList = c :: cs ∧ front c (cs ++ rest) = .token t cs.length := by
  cases t with
  | keyword k =>
    obtain ⟨hne, hstart, -⟩ := keyword_text_shape k
    exact front_of_wordFront hne hstart
      (wordFront_keyword k (endsWord_of_clear (t := .keyword k) (fun _ => rfl) h))
  | name n =>
    exact front_of_wordFront ht.ne_nil ht.start
      (wordFront_name ht (endsWord_of_clear (t := .name n) (fun _ => rfl) h))
  | truth b =>
    obtain ⟨hne, hstart, -⟩ := truthText_shape b
    exact front_of_wordFront hne hstart
      (wordFront_truth b (endsWord_of_clear (t := .truth b) (fun _ => rfl) h))
  | unit u =>
    by_cases hu : u = "%"
    · subst hu
      have hblank : isBlank '%' = false := rfl
      have hstart : isWordStart '%' = false := rfl
      have hdigit : '%'.isDigit = false := rfl
      exact ⟨'%', [], rfl, by simp [front, hblank, hstart, hdigit]⟩
    · obtain ⟨⟨hstart, hne, -⟩, -⟩ := (unitSpellings_shape u ht).resolve_left hu
      exact front_of_wordFront hne hstart
        (wordFront_unit ht hu (endsWord_of_clear (t := .unit u) (fun _ => rfl) h))
  | number x =>
    have hends : EndsNumber rest := fun c hc => by simpa [Token.clear] using h c hc
    have hfront := IsNumber.numberFront_append ht hends
    obtain ⟨c, cs, hx, hdigit⟩ := IsNumber.exists_cons ht
    refine ⟨c, cs, hx, ?_⟩
    rw [hx, List.cons_append] at hfront
    rw [front_of_isWordChar (isWordChar_of_isDigit hdigit), if_pos hdigit, hfront, ← hx,
      String.ofList_toList, hx, List.length_cons, Nat.add_sub_cancel]
  | string s =>
    refine ⟨'"', s.toList.flatMap quoteChar ++ ['"'], by simp [Token.text, quote], ?_⟩
    have hrest := stringRest_quoted s.toList rest
    have hblank : isBlank '"' = false := rfl
    have happend : s.toList.flatMap quoteChar ++ ['"'] ++ rest =
        s.toList.flatMap quoteChar ++ '"' :: rest := by simp
    simp [front, hblank, happend, hrest]
  | symbol y => exact front_symbol h
  | eof => exact ht.elim

/-- How the token at the front of the text `c :: cs` is read, with the number of characters it
takes of `cs`. -/
inductive TokenFront (c : Char) (cs : List Char) : Token → Nat → Prop
  | string {content : List Char} {n : Nat} (hc : c = '"' ∨ c = '\'')
      (h : stringRest c cs = .closed content n) :
      TokenFront c cs (.string (String.ofList content)) n
  | number {t : Token} {n : Nat} (hc : c.isDigit = true) (h : numberFront (c :: cs) = .token t n) :
      TokenFront c cs t n
  | word {t : Token} {n : Nat} (hc : isWordStart c = true) (h : wordFront (c :: cs) = (t, n + 1)) :
      TokenFront c cs t n
  | percent (hc : c = '%') : TokenFront c cs (.unit "%") 0
  | symbol {y : Symbol} {n : Nat} (h : symbolFront c cs = .token (.symbol y) n) :
      TokenFront c cs (.symbol y) n

theorem exists_symbol_of_symbolFront {c : Char} {cs : List Char} {t : Token} {n : Nat}
    (h : symbolFront c cs = .token t n) : ∃ y, t = .symbol y := by
  unfold symbolFront at h
  split at h
  · cases h
    exact ⟨_, rfl⟩
  · split at h
    · cases h
      exact ⟨_, rfl⟩
    · cases h

/-- A word takes the character it begins with. -/
theorem wordFront_ne_zero {c : Char} {cs : List Char} (hc : isWordStart c = true) :
    (wordFront (c :: cs)).2 ≠ 0 := by
  have hword : 0 < ((c :: cs).takeWhile isWordChar).length := by
    rw [List.takeWhile_cons, if_pos (isWordChar_of_isWordStart hc)]
    exact Nat.succ_pos _
  obtain h | ⟨u, -, hle, h⟩ := wordFront_length (c :: cs)
  · rw [h]
    exact hword.ne'
  · rw [h]
    exact (hword.trans_le hle).ne'

/-- What begins with a letter or `_` is read as a word. -/
theorem wordFront_of_front {c : Char} {cs : List Char} (hc : isWordStart c = true) {t : Token}
    {n : Nat} (h : front c cs = .token t n) : wordFront (c :: cs) = (t, n + 1) := by
  rw [front_of_isWordChar (isWordChar_of_isWordStart hc), not_isDigit_of_isWordStart hc] at h
  have hpos : (wordFront (c :: cs)).2 ≠ 0 := wordFront_ne_zero hc
  cases hword : wordFront (c :: cs) with
  | mk t' m =>
    rw [hword] at hpos
    simp only [Bool.false_eq_true, if_false, hc, if_true, hword, Front.token.injEq] at h
    obtain ⟨rfl, rfl⟩ := h
    rw [Nat.sub_one_add_one hpos]

theorem tokenFront_of_front {c : Char} {cs : List Char} {t : Token} {n : Nat}
    (h : front c cs = .token t n) : TokenFront c cs t n := by
  have hfront := h
  unfold front at h
  split at h
  · cases h
  split at h
  · split at h <;> cases h
  split at h
  · cases h
  split at h
  · next hquote =>
    split at h
    · next hstring =>
      cases h
      exact .string hquote hstring
    · cases h
  split at h
  · next hdigit => exact .number hdigit h
  split at h
  · next hstart => exact .word hstart (wordFront_of_front hstart hfront)
  split at h
  · next hpercent =>
    cases h
    exact .percent hpercent
  · obtain ⟨y, rfl⟩ := exists_symbol_of_symbolFront h
    exact .symbol h

/-- What is read as a token can be written. -/
theorem written_of_front {c : Char} {cs : List Char} {t : Token} {n : Nat}
    (h : front c cs = .token t n) : t.Written := by
  cases tokenFront_of_front h with
  | string => trivial
  | number hdigit hnumber =>
    obtain ⟨x, hx, rfl⟩ := numberFront_cases hdigit hnumber
    simpa [Token.Written] using hx
  | word hstart hword =>
    obtain ⟨k, rfl⟩ | ⟨b, rfl⟩ | ⟨u, hu, rfl⟩ | ⟨n, hn, rfl⟩ := wordFront_cases hstart hword
    · trivial
    · trivial
    · exact hu
    · exact hn
  | percent =>
    show "%" ∈ unitSpellings
    decide
  | symbol => trivial

end Fronts

end OpsLang
