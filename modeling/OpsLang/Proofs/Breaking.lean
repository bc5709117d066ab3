import OpsLang.Proofs.Separated

/-!
# Texts that break off

The fronts of a text are read with all of the text in view : a unit may go on past the word it
begins with, and a number is none before a word that is no unit. If no word and no unit goes on
from a text into the rest (`Breaks`), a front that takes no more than the text is the same front
without the rest (`front_gap_of_append`, `front_token_of_append`).

Only this much is asked of the rest. The way from a text to the text with more behind it asks
for a character that ends every token (`front_append_newline`).
-/

namespace OpsLang

/-! ## Breaks -/

/-- No word and no unit goes on from the text into the rest. -/
structure Breaks (cs rest : List Char) : Prop where
  word : ∀ c ∈ cs.getLast?, ∀ d ∈ rest.head?, isWordChar c = true → isWordChar d = false
  unit : ∀ u ∈ unitSpellings, ∀ as bs, u.toList = as ++ bs → as <:+ cs → bs <+: rest →
    as = [] ∨ bs = []

section Fronts

variable {c : Char} {cs rest : List Char} {t : Token} {n k : Nat}

theorem Breaks.of_append {before : List Char} (h : Breaks (before ++ cs) rest) :
    Breaks cs rest where
  word c hc := h.word c (by simp [List.getLast?_append, Option.mem_def.1 hc])
  unit u hu as bs heq has := h.unit u hu as bs heq (has.trans (List.suffix_append before cs))

/-! ### Gaps and strings -/

/-- What is taken only of the text is taken of it alone. -/
theorem takeWhile_append_of_le {p : Char → Bool}
    (h : ((cs ++ rest).takeWhile p).length ≤ cs.length) :
    (cs ++ rest).takeWhile p = cs.takeWhile p := by
  rw [List.takeWhile_append] at h ⊢
  split at h
  · next hall =>
    have hnone : rest.takeWhile p = [] := by
      rw [List.length_append] at h
      exact List.eq_nil_of_length_eq_zero (by omega)
    rw [if_pos hall, hnone, List.append_nil, (List.takeWhile_prefix p).eq_of_length hall]
  · next hsome => rw [if_neg hsome]

theorem lineRest_append_of_le (h : lineRest (cs ++ rest) ≤ cs.length) :
    lineRest (cs ++ rest) = lineRest cs :=
  congrArg List.length (takeWhile_append_of_le h)

theorem commentRest_of_append (h : commentRest (cs ++ rest) = some n) (hle : n ≤ cs.length) :
    commentRest cs = some n := by
  obtain ⟨body, tail, hcs, rfl, hbody⟩ := commentRest_eq_some h
  have htake : cs.take (body.length + 2) = body ++ ['*', '/'] := by
    have happend : (cs ++ rest).take (body.length + 2) = cs.take (body.length + 2) :=
      List.take_append_of_le_length hle
    rw [← happend, hcs]
    simp [List.take_append, List.take_of_length_le]
  rw [← List.take_append_drop (body.length + 2) cs, htake]
  simpa using commentRest_body hbody (cs.drop (body.length + 2))

theorem stringRest_of_append {q : Char} {content : List Char}
    (h : stringRest q (cs ++ rest) = .closed content n) (hle : n ≤ cs.length) :
    stringRest q cs = .closed content n := by
  have htake := stringRest_take h
  rw [List.take_append_of_le_length hle] at htake
  have happend := (stringRest_append htake (cs.drop n)).1
  rwa [List.take_append_drop] at happend

/-! ### Words -/

/-- The word at the end of a text that breaks off is as long as with the rest. -/
theorem takeWhile_append_of_breaks (hb : Breaks cs rest) (hne : cs ≠ []) :
    (cs ++ rest).takeWhile isWordChar = cs.takeWhile isWordChar := by
  by_cases hall : ∀ c ∈ cs, isWordChar c = true
  · refine takeWhile_append_of_head (fun d hd => ?_) cs
    exact hb.word _ (List.getLast?_eq_some_getLast hne) d hd (hall _ (List.getLast_mem hne))
  · refine takeWhile_append_of_le ?_
    rw [List.takeWhile_append, if_neg]
    · exact (List.takeWhile_sublist _).length_le
    · intro hlen
      rw [← (List.takeWhile_prefix isWordChar).eq_of_length hlen] at hall
      exact hall fun c hc => List.all_eq_true.1 List.all_takeWhile c hc

/-- The last character of a unit is a percent sign or a word character. -/
theorem getLast?_unit {u : String} (hu : u ∈ unitSpellings) (hne : u ≠ "%") :
    ∀ c ∈ u.toList.getLast?, isWordChar c = true := by
  intro c hc
  obtain ⟨⟨-, -, hchars⟩, -⟩ := (unitSpellings_shape u hu).resolve_left hne
  refine (hchars c (List.mem_of_getLast? hc)).resolve_right ?_
  rintro rfl
  exact getLast?_unit_ne_slash u hu hc

theorem unitAtFront_append_of_breaks {u : String} (hu : u ∈ unitSpellings)
    (hc : isWordChar c = true) (hb : Breaks (c :: cs) rest) :
    unitAtFront (c :: cs ++ rest) u = unitAtFront (c :: cs) u := by
  rw [Bool.eq_iff_iff, unitAtFront_iff, unitAtFront_iff]
  constructor
  · rintro ⟨behind, h, hend⟩
    obtain ⟨as, hu', rfl⟩ | ⟨as, hcs, rfl⟩ := List.append_eq_append_iff.1 h
    · obtain hnil | rfl := hb.unit u hu _ as hu' List.suffix_rfl (List.prefix_append as behind)
      · cases hnil
      · exact ⟨[], by simpa using hu'.symm, rfl⟩
    · refine ⟨as, hcs, atWordEnd_iff.2 fun d hd => atWordEnd_iff.1 hend d ?_⟩
      simp [List.head?_append, Option.mem_def.1 hd]
  · rintro ⟨behind, hcs, hend⟩
    refine ⟨behind ++ rest, by rw [hcs, List.append_assoc], ?_⟩
    cases behind with
    | cons d behind => exact hend
    | nil =>
      have hne : u ≠ "%" := by
        rintro rfl
        obtain ⟨rfl, -⟩ := List.cons.inj hcs
        cases hc
      rw [List.append_nil] at hcs
      rw [hcs] at hb
      have hulast := getLast?_unit hu hne
      refine atWordEnd_iff.2 fun d hd => ?_
      cases hlast : u.toList.getLast? with
      | none =>
        rw [List.getLast?_eq_none_iff.1 hlast] at hcs
        cases hcs
      | some e => exact hb.word e hlast d hd (hulast e hlast)

theorem longestUnit_append_of_breaks (hc : isWordChar c = true) (hb : Breaks (c :: cs) rest) :
    longestUnit (c :: cs ++ rest) = longestUnit (c :: cs) := by
  rw [longestUnit, longestUnit,
    List.filter_congr fun u hu => unitAtFront_append_of_breaks hu hc hb]

theorem wordFront_append_of_breaks (hc : isWordChar c = true) (hb : Breaks (c :: cs) rest) :
    wordFront (c :: cs ++ rest) = wordFront (c :: cs) := by
  simp only [wordFront, takeWhile_append_of_breaks hb (List.cons_ne_nil c cs),
    longestUnit_append_of_breaks hc hb]

/-! ### Numbers -/

theorem digitCount_append_of_le (h : digitCount (cs ++ rest) ≤ cs.length) :
    digitCount (cs ++ rest) = digitCount cs :=
  congrArg List.length (takeWhile_append_of_le h)

theorem fractionLength_append_of_le (h : fractionLength (cs ++ rest) ≤ cs.length) :
    fractionLength (cs ++ rest) = fractionLength cs := by
  cases cs with
  | nil => exact Nat.eq_zero_of_le_zero h
  | cons c cs =>
    by_cases hc : c = '.'
    · subst hc
      rw [List.cons_append] at h ⊢
      simp only [fractionLength, List.length_cons] at h ⊢
      have hle : digitCount (cs ++ rest) ≤ cs.length := by
        split at h <;> omega
      rw [digitCount_append_of_le hle]
    · simp [fractionLength, hc]

/-- An exponent is more than its letter. -/
theorem exponentLength_ne_one (cs : List Char) : exponentLength cs ≠ 1 := by
  have hcount : ∀ {ds k}, (if digitCount ds = 0 then 0 else digitCount ds + (k + 1)) ≠ 1 := by
    intro ds k h
    split at h <;> omega
  unfold exponentLength
  split
  · exact Nat.zero_ne_one
  · split
    · split
      · exact Nat.zero_ne_one
      · split <;> exact hcount
    · exact Nat.zero_ne_one

theorem exponentLength_append_of_le (h : exponentLength (cs ++ rest) ≤ cs.length) :
    exponentLength (cs ++ rest) = exponentLength cs := by
  cases cs with
  | nil => exact Nat.eq_zero_of_le_zero h
  | cons e cs =>
    by_cases he : e = 'e' ∨ e = 'E'
    · cases cs with
      | nil =>
        have hone : exponentLength ([e] ++ rest) ≠ 1 := exponentLength_ne_one _
        have hzero : exponentLength [e] = 0 := by simp [exponentLength]
        rw [List.length_singleton] at h
        omega
      | cons s cs =>
        simp only [List.cons_append, exponentLength, if_pos he, List.length_cons] at h ⊢
        by_cases hs : s = '+' ∨ s = '-'
        · rw [if_pos hs] at h ⊢
          have hle : digitCount (cs ++ rest) ≤ cs.length := by
            split at h <;> omega
          rw [if_pos hs, digitCount_append_of_le hle]
        · rw [if_neg hs] at h ⊢
          have hle : digitCount (s :: cs ++ rest) ≤ (s :: cs).length := by
            rw [List.cons_append, List.length_cons]
            split at h <;> omega
          rw [if_neg hs, ← List.cons_append, digitCount_append_of_le hle]
    · simp [exponentLength, he]

theorem decimalLength_append_of_le (h : decimalLength (cs ++ rest) ≤ cs.length) :
    decimalLength (cs ++ rest) = decimalLength cs := by
  simp only [decimalLength] at h ⊢
  have hwhole : digitCount (cs ++ rest) = digitCount cs := digitCount_append_of_le (by omega)
  rw [hwhole] at h ⊢
  rw [List.drop_append_of_le_length (digitCount_le cs)] at h ⊢
  have hfraction : fractionLength (cs.drop (digitCount cs) ++ rest) =
      fractionLength (cs.drop (digitCount cs)) := by
    refine fractionLength_append_of_le ?_
    rw [List.length_drop]
    omega
  rw [hfraction] at h ⊢
  rw [List.drop_append_of_le_length (by omega)] at h ⊢
  rw [exponentLength_append_of_le]
  rw [List.length_drop]
  omega

theorem numberOfLength_of_append (h : numberOfLength (cs ++ rest) k = .token t n)
    (hk : k ≤ cs.length) (hb : Breaks cs rest) : numberOfLength cs k = .token t n := by
  rw [numberOfLength, List.drop_append_of_le_length hk, List.take_append_of_le_length hk] at h
  rw [numberOfLength]
  cases hd : cs.drop k with
  | nil =>
    rw [hd, List.nil_append] at h
    cases rest with
    | nil => exact h
    | cons d rest =>
      dsimp only at h
      split at h
      · cases h
      · exact h
  | cons d ds =>
    have hbreaks : Breaks (d :: ds) rest := by
      rw [← List.take_append_drop k cs, hd] at hb
      exact hb.of_append
    rw [hd, List.cons_append] at h
    dsimp only at h ⊢
    by_cases hd : isWordChar d = true
    · rwa [← List.cons_append, longestUnit_append_of_breaks hd hbreaks] at h
    · simpa [hd] using h

theorem numberFront_of_append (h : numberFront (c :: cs ++ rest) = .token t n)
    (hle : n ≤ cs.length) (hb : Breaks (c :: cs) rest) : numberFront (c :: cs) = .token t n := by
  by_cases hradix : ∃ r ds radix, c :: cs ++ rest = '0' :: r :: ds ∧ radixOf? r = some radix
  · obtain ⟨r, ds, radix, heq, hr⟩ := hradix
    rw [List.cons_append] at heq
    obtain ⟨rfl, hcs⟩ := List.cons.inj heq
    rw [List.cons_append, heq] at h
    simp only [numberFront, hr] at h
    split at h
    · cases h
    next hdigits =>
    have hmore := numberOfLength_more h
    cases cs with
    | nil =>
      rw [List.length_nil] at hle
      omega
    | cons r' cs =>
      rw [List.cons_append] at hcs
      obtain ⟨rfl, rfl⟩ := List.cons.inj hcs
      rw [List.length_cons] at hle
      have htake : (cs ++ rest).takeWhile (isDigitOf radix) = cs.takeWhile (isDigitOf radix) :=
        takeWhile_append_of_le (by omega)
      have hlength := (@List.takeWhile_sublist _ cs (isDigitOf radix)).length_le
      rw [htake, ← List.cons_append, ← List.cons_append] at h
      rw [htake] at hdigits
      simp only [numberFront, hr, hdigits, if_false]
      exact numberOfLength_of_append h (Nat.add_le_add_right hlength 2) hb
  · have hnone : ∀ r ds, c :: cs ++ rest = '0' :: r :: ds → radixOf? r = none := by
      intro r ds heq
      rw [← Option.not_isSome_iff_eq_none, Option.isSome_iff_exists]
      rintro ⟨radix, hr⟩
      exact hradix ⟨r, ds, radix, heq, hr⟩
    have halone : ∀ r ds, c :: cs = '0' :: r :: ds → radixOf? r = none :=
      fun r ds heq => hnone r (ds ++ rest) (by rw [heq]; rfl)
    rw [numberFront_decimal hnone] at h
    rw [numberFront_decimal halone]
    have hmore := numberOfLength_more h
    have hlength : decimalLength (c :: cs ++ rest) ≤ (c :: cs).length := by
      rw [List.length_cons]
      omega
    rw [decimalLength_append_of_le hlength] at h hlength
    exact numberOfLength_of_append h hlength hb

/-! ### Symbols -/

theorem symbolFront_of_append (h : symbolFront c (cs ++ rest) = .token t n) (hle : n ≤ cs.length) :
    symbolFront c cs = .token t n := by
  cases cs with
  | cons d cs => exact h
  | nil =>
    unfold symbolFront at h
    split at h
    · cases h
      cases hle
    · split at h
      · next y hy =>
        cases h
        simp [symbolFront, hy]
      · cases h

/-! ### All fronts -/

/-- What is passed over only of the text is passed over in it alone. -/
theorem front_gap_of_append (h : front c (cs ++ rest) = .gap n) (hle : n ≤ cs.length) :
    front c cs = .gap n := by
  obtain ⟨rfl, rfl⟩ | ⟨ds, m, rfl, hcs, hm, rfl⟩ | ⟨hc, rfl⟩ := front_gap_cases h
  · rw [lineRest_append_of_le hle, front, if_pos rfl]
  · cases cs with
    | nil => cases hle
    | cons d cs =>
      obtain ⟨rfl, rfl⟩ := List.cons.inj hcs
      have hcomment := commentRest_of_append hm (Nat.le_of_succ_le_succ hle)
      simp [front, hcomment]
  · have hhash : c ≠ '#' := by
      rintro rfl
      cases hc
    have hslash : c ≠ '/' := by
      rintro rfl
      cases hc
    simp [front, hhash, hslash, hc]

/-- What is read as a token only of the text is read as it in the text alone, if no word goes
on from the text into the rest. -/
theorem front_token_of_append (h : front c (cs ++ rest) = .token t n) (hle : n ≤ cs.length)
    (hb : Breaks (c :: cs) rest) : front c cs = .token t n := by
  have hopen : (c = '/' ∧ cs.head? = some '*') → (c = '/' ∧ (cs ++ rest).head? = some '*') := by
    rintro ⟨hc, hcs⟩
    exact ⟨hc, by simp [List.head?_append, hcs]⟩
  unfold front at h ⊢
  split at h
  · cases h
  next hhash =>
  rw [if_neg hhash]
  split at h
  · split at h <;> cases h
  next hcomment =>
  rw [if_neg (mt hopen hcomment)]
  split at h
  · cases h
  next hblank =>
  rw [if_neg hblank]
  split at h
  · next hq =>
    rw [if_pos hq]
    split at h
    · next content m hstring =>
      cases h
      rw [stringRest_of_append hstring hle]
    · cases h
  next hq =>
  rw [if_neg hq]
  split at h
  · next hdigit =>
    rw [if_pos hdigit]
    exact numberFront_of_append h hle hb
  next hdigit =>
  rw [if_neg hdigit]
  split at h
  · next hstart =>
    rw [if_pos hstart]
    rwa [← List.cons_append, wordFront_append_of_breaks (isWordChar_of_isWordStart hstart) hb] at h
  next hstart =>
  rw [if_neg hstart]
  split at h
  · next hpercent =>
    rw [if_pos hpercent]
    exact h
  next hpercent =>
  rw [if_neg hpercent]
  exact symbolFront_of_append h hle

end Fronts

end OpsLang
