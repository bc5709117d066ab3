import OpsLang.Proofs.Tiling

/-!
# Tokens of a text with more text behind it

No token goes on past a line feed, and no gap that is complete. So a text that can be read is
read in the same way with a line feed and any other text behind it (`front_append_newline` for
the front of a text), and its tokens stand before those of what was added
(`tokenize_append_newline`). Of words this is so before any blank or comment (`Parted`), which
matters for units, as some of them go on behind a slash.

A text that cannot be read stays so where nothing behind the line feed can end a string or a
comment (`tokensFrom_error_append_newline`).
-/

namespace OpsLang

section Fronts

variable {cs ds : List Char}

theorem takeWhile_append_newline {p : Char → Bool} (h : p '\n' = false) (cs ds : List Char) :
    (cs ++ '\n' :: ds).takeWhile p = cs.takeWhile p :=
  takeWhile_append_of_head (by simpa using h) cs

/-! ## Gaps and strings -/

theorem lineRest_append_newline (cs ds : List Char) :
    lineRest (cs ++ '\n' :: ds) = lineRest cs :=
  congrArg List.length (takeWhile_append_newline rfl cs ds)

theorem lineRest_le (cs : List Char) : lineRest cs ≤ cs.length :=
  (List.takeWhile_sublist _).length_le

/-- A comment that is closed does not depend on what stands behind it. -/
theorem commentRest_append {n : Nat} (h : commentRest cs = some n) (ds : List Char) :
    commentRest (cs ++ ds) = some n := by
  fun_induction commentRest cs generalizing n with
  | case1 => cases h
  | case2 => cases h
  | case3 c d cs hclose =>
    rw [List.cons_append, List.cons_append, commentRest, if_pos hclose, h]
  | case4 c d cs hopen ih =>
    obtain ⟨m, hm, rfl⟩ := Option.map_eq_some_iff.1 h
    rw [List.cons_append, List.cons_append, commentRest, if_neg hopen, ← List.cons_append, ih hm]
    rfl

theorem commentRest_le {n : Nat} (h : commentRest cs = some n) : n ≤ cs.length := by
  obtain ⟨body, rest, rfl, rfl, -⟩ := commentRest_eq_some h
  simp

theorem StringRest.push_eq_closed {s content : List Char} {k n : Nat} {r : StringRest}
    (h : r.push s k = .closed content n) :
    ∃ content' n', r = .closed content' n' ∧ content = s ++ content' ∧ n = k + n' := by
  cases r with
  | closed content' n' =>
    cases h
    exact ⟨_, _, rfl, rfl, rfl⟩
  | broken f n' => cases h

theorem StringRest.push_eq_broken {s : List Char} {f : LexicalFault} {k n : Nat} {r : StringRest}
    (h : r.push s k = .broken f n) : ∃ n', r = .broken f n' := by
  cases r with
  | closed => cases h
  | broken g n' =>
    cases h
    exact ⟨n', rfl⟩

/-- A string that is closed does not depend on what stands behind it. -/
theorem stringRest_append {q : Char} {content : List Char} {n : Nat}
    (h : stringRest q cs = .closed content n) (ds : List Char) :
    stringRest q (cs ++ ds) = .closed content n ∧ n ≤ cs.length := by
  fun_induction stringRest q cs generalizing content n with
  | case1 => cases h
  | case2 cs => cases h
  | case3 cs hq =>
    cases h
    rw [List.cons_append, stringRest.eq_def]
    simp [hq]
  | case4 => cases h
  | case5 d es hn hq ih =>
    obtain ⟨content', n', hr, rfl, rfl⟩ := StringRest.push_eq_closed h
    obtain ⟨hstring, hle⟩ := ih hr
    refine ⟨?_, by simp only [List.length_cons]; omega⟩
    rw [List.cons_append, List.cons_append, stringRest.eq_def]
    simp [hq, hstring, StringRest.push]
  | case6 c cs hn hq hb ih =>
    obtain ⟨content', n', hr, rfl, rfl⟩ := StringRest.push_eq_closed h
    obtain ⟨hstring, hle⟩ := ih hr
    refine ⟨?_, by simp only [List.length_cons]; omega⟩
    rw [List.cons_append, stringRest.eq_def]
    simp [hn, hq, hb, hstring, StringRest.push]

/-! ## Words -/

/-- The text is empty, or begins with a blank or a comment, so no word goes on into it. -/
def Parted (rest : List Char) : Prop :=
  ∀ c ∈ rest.head?, isBlank c = true ∨ c = '#' ∨ c = '/' ∧ rest.tail.head? = some '*'

theorem parted_nil : Parted [] := by
  rintro c ⟨⟩

theorem parted_newline (ds : List Char) : Parted ('\n' :: ds) := by
  rintro c ⟨⟩
  exact .inl rfl

theorem Parted.not_isWordChar {rest : List Char} (h : Parted rest) :
    ∀ c ∈ rest.head?, isWordChar c = false := by
  intro c hc
  rw [← Bool.not_eq_true]
  intro hword
  obtain hblank | rfl | ⟨rfl, -⟩ := h c hc
  · rw [not_isBlank_of_isWordChar hword] at hblank
    cases hblank
  · cases hword
  · cases hword

/-- A unit does not end with a slash. -/
theorem getLast?_unit_ne_slash : ∀ u ∈ unitSpellings, u.toList.getLast? ≠ some '/' := by
  have hall : unitSpellings.all (fun u => u.toList.getLast? != some '/') = true := by cbv
  simpa only [List.all_eq_true, bne_iff_ne] using hall

/-- No unit goes on into a blank or a comment. -/
theorem Parted.eq_nil_of_unit {u : String} (hu : u ∈ unitSpellings) {cs as rest : List Char}
    (hrest : Parted (as ++ rest)) (h : u.toList = cs ++ as) : as = [] := by
  have hchars : ∀ d ∈ cs ++ as, d = '%' ∨ isWordChar d = true ∨ d = '/' := by
    rw [← h]
    obtain rfl | ⟨⟨-, -, hchars⟩, -⟩ := unitSpellings_shape u hu
    · exact fun d hd => .inl (List.mem_singleton.1 hd)
    · exact fun d hd => .inr (hchars d hd)
  cases as with
  | nil => rfl
  | cons c as =>
    exfalso
    have hword := hrest.not_isWordChar c rfl
    obtain hblank | rfl | ⟨rfl, hstar⟩ := hrest c rfl
    · obtain rfl | hc | rfl := hchars c (by simp)
      · cases hblank
      · rw [hc] at hword
        cases hword
      · cases hblank
    · obtain hc | hc | hc := hchars '#' (by simp) <;> cases hc
    · cases as with
      | nil => exact getLast?_unit_ne_slash u hu (by simp [h])
      | cons d as =>
        cases hstar
        obtain hc | hc | hc := hchars '*' (by simp) <;> cases hc

/-- What stands before a blank or a comment begins with a unit, or does not, whatever is
behind. -/
theorem unitAtFront_append_parted {u : String} (hu : u ∈ unitSpellings) (cs : List Char)
    {rest : List Char} (hrest : Parted rest) :
    unitAtFront (cs ++ rest) u = unitAtFront cs u := by
  rw [Bool.eq_iff_iff, unitAtFront_iff, unitAtFront_iff]
  constructor
  · rintro ⟨behind, h, hend⟩
    obtain ⟨as, hu', rfl⟩ | ⟨as, rfl, rfl⟩ := List.append_eq_append_iff.1 h
    · obtain rfl := hrest.eq_nil_of_unit hu hu'
      exact ⟨[], by simpa using hu'.symm, rfl⟩
    · refine ⟨as, rfl, atWordEnd_iff.2 fun c hc => atWordEnd_iff.1 hend c ?_⟩
      simp [List.head?_append, Option.mem_def.1 hc]
  · rintro ⟨behind, rfl, hend⟩
    refine ⟨behind ++ rest, List.append_assoc _ _ _, ?_⟩
    cases behind with
    | nil => exact atWordEnd_iff.2 hrest.not_isWordChar
    | cons d behind => exact hend

theorem longestUnit_append_parted (cs : List Char) {rest : List Char} (hrest : Parted rest) :
    longestUnit (cs ++ rest) = longestUnit cs := by
  rw [longestUnit, longestUnit,
    List.filter_congr fun u hu => unitAtFront_append_parted hu cs hrest]

theorem longestUnit_append_newline (cs ds : List Char) :
    longestUnit (cs ++ '\n' :: ds) = longestUnit cs :=
  longestUnit_append_parted cs (parted_newline ds)

theorem wordFront_append_parted (cs : List Char) {rest : List Char} (hrest : Parted rest) :
    wordFront (cs ++ rest) = wordFront cs := by
  simp only [wordFront, takeWhile_append_of_head hrest.not_isWordChar,
    longestUnit_append_parted cs hrest]

theorem wordFront_append_newline (cs ds : List Char) :
    wordFront (cs ++ '\n' :: ds) = wordFront cs :=
  wordFront_append_parted cs (parted_newline ds)

theorem wordFront_le (cs : List Char) : (wordFront cs).2 ≤ cs.length := by
  obtain h | ⟨u, hu, -, h⟩ := wordFront_length cs
  · rw [h]
    exact (List.takeWhile_prefix _).length_le
  · obtain ⟨rest, hcs, -⟩ := unitAtFront_iff.1 (longestUnit_eq_some hu).1.2
    rw [h, hcs, List.length_append, String.length_toList]
    exact Nat.le_add_right _ _

/-! ## Numbers -/

theorem digitCount_append_newline (cs ds : List Char) :
    digitCount (cs ++ '\n' :: ds) = digitCount cs :=
  congrArg List.length (takeWhile_append_newline rfl cs ds)

theorem digitCount_le (cs : List Char) : digitCount cs ≤ cs.length :=
  (List.takeWhile_sublist _).length_le

theorem fractionLength_append_newline (cs ds : List Char) :
    fractionLength (cs ++ '\n' :: ds) = fractionLength cs := by
  cases cs with
  | nil => rfl
  | cons c cs =>
    by_cases hc : c = '.'
    · simp only [hc, List.cons_append, fractionLength, digitCount_append_newline]
    · simp [fractionLength, hc]

theorem fractionLength_le (cs : List Char) : fractionLength cs ≤ cs.length := by
  unfold fractionLength
  split
  · next cs =>
    have hle := digitCount_le cs
    split
    · exact Nat.zero_le _
    · exact Nat.succ_le_succ hle
  · exact Nat.zero_le _

theorem exponentLength_append_newline (cs ds : List Char) :
    exponentLength (cs ++ '\n' :: ds) = exponentLength cs := by
  cases cs with
  | nil => rfl
  | cons c cs =>
    cases cs with
    | nil => simp [exponentLength, digitCount]
    | cons c' cs =>
      have hcount := digitCount_append_newline (c' :: cs) ds
      rw [List.cons_append] at hcount
      simp only [List.cons_append, exponentLength, digitCount_append_newline, hcount]

theorem exponentLength_le (cs : List Char) : exponentLength cs ≤ cs.length := by
  unfold exponentLength
  split
  · exact Nat.zero_le _
  split
  · split
    · exact Nat.zero_le _
    · next s ds =>
      have hds := digitCount_le ds
      have hcs := digitCount_le (s :: ds)
      simp only [List.length_cons] at hcs ⊢
      split <;> split <;> omega
  · exact Nat.zero_le _

theorem drop_append_newline {n : Nat} (h : n ≤ cs.length) :
    (cs ++ '\n' :: ds).drop n = cs.drop n ++ '\n' :: ds :=
  List.drop_append_of_le_length h

theorem decimalLength_le (cs : List Char) : decimalLength cs ≤ cs.length := by
  have hwhole := digitCount_le cs
  have hfraction := fractionLength_le (cs.drop (digitCount cs))
  have hexponent := exponentLength_le
    (cs.drop (digitCount cs + fractionLength (cs.drop (digitCount cs))))
  simp only [List.length_drop] at hfraction hexponent
  simp only [decimalLength]
  omega

theorem decimalLength_append_newline (cs ds : List Char) :
    decimalLength (cs ++ '\n' :: ds) = decimalLength cs := by
  have hwhole := digitCount_le cs
  have hfraction := fractionLength_le (cs.drop (digitCount cs))
  rw [List.length_drop] at hfraction
  simp only [decimalLength, digitCount_append_newline, drop_append_newline hwhole,
    fractionLength_append_newline]
  rw [drop_append_newline (by omega), exponentLength_append_newline]

theorem numberOfLength_append_newline {n : Nat} (h : n ≤ cs.length) (ds : List Char) :
    numberOfLength (cs ++ '\n' :: ds) n = numberOfLength cs n := by
  rw [numberOfLength, drop_append_newline h, List.take_append_of_le_length h, numberOfLength]
  cases cs.drop n with
  | nil => rfl
  | cons c rest =>
    have hunit := longestUnit_append_newline (c :: rest) ds
    rw [List.cons_append] at hunit
    simp only [List.cons_append, hunit]

theorem numberFront_append_newline (cs ds : List Char) :
    numberFront (cs ++ '\n' :: ds) = numberFront cs := by
  have hdecimal : numberOfLength (cs ++ '\n' :: ds) (decimalLength (cs ++ '\n' :: ds)) =
      numberOfLength cs (decimalLength cs) := by
    rw [decimalLength_append_newline, numberOfLength_append_newline (decimalLength_le cs)]
  by_cases hradix : ∃ r rest radix, cs = '0' :: r :: rest ∧ radixOf? r = some radix
  · obtain ⟨r, rest, radix, rfl, hr⟩ := hradix
    have hnewline : isDigitOf radix '\n' = false := by
      rw [← Bool.not_eq_true]
      exact fun h => by cases isWordChar_of_isDigitOf h
    have hlength := (List.takeWhile_sublist (l := rest) (isDigitOf radix)).length_le
    have hle : ((rest.takeWhile (isDigitOf radix)).length + 2) ≤ ('0' :: r :: rest).length :=
      Nat.add_le_add_right hlength 2
    have hnumber := numberOfLength_append_newline hle ds
    simp only [List.cons_append] at hnumber ⊢
    simp only [numberFront, hr, takeWhile_append_newline hnewline, hnumber]
  · have hnone : ∀ r rest, cs = '0' :: r :: rest → radixOf? r = none := by
      intro r rest hcs
      rw [← Option.not_isSome_iff_eq_none, Option.isSome_iff_exists]
      rintro ⟨radix, hr⟩
      exact hradix ⟨r, rest, radix, hcs, hr⟩
    rw [numberFront_decimal hnone, numberFront_decimal, hdecimal]
    intro r rest h
    cases cs with
    | nil => cases (List.cons.inj h).1
    | cons c cs =>
      cases cs with
      | nil =>
        obtain ⟨-, htail⟩ := List.cons.inj h
        obtain ⟨rfl, -⟩ := List.cons.inj htail
        rfl
      | cons r' cs =>
        obtain ⟨rfl, htail⟩ := List.cons.inj h
        obtain ⟨rfl, -⟩ := List.cons.inj htail
        exact hnone _ cs rfl

theorem numberOfLength_more {n k : Nat} {t : Token} (h : numberOfLength cs k = .token t n) :
    n = k - 1 := by
  unfold numberOfLength at h
  split at h
  · cases h
    rfl
  · split at h
    · cases h
    · cases h
      rfl

/-- The length of a number at the front of a text, which is in the text. -/
theorem numberOfLength_of_numberFront {c : Char} {n : Nat} {t : Token} (hc : c.isDigit = true)
    (h : numberFront (c :: cs) = .token t n) :
    n ≤ cs.length ∧ numberOfLength (c :: cs) (n + 1) = .token t n := by
  have hwhole : ∀ {k}, k ≠ 0 → k ≤ (c :: cs).length → numberOfLength (c :: cs) k = .token t n →
      n ≤ cs.length ∧ numberOfLength (c :: cs) (n + 1) = .token t n := by
    intro k hk hle h
    obtain ⟨m, rfl⟩ := Nat.exists_eq_succ_of_ne_zero hk
    obtain rfl : n = m := numberOfLength_more h
    exact ⟨Nat.le_of_succ_le_succ hle, h⟩
  have hdecimal : decimalLength (c :: cs) ≠ 0 := by
    have hdigit : digitCount (c :: cs) ≠ 0 := by simp [digitCount, hc]
    simp only [decimalLength]
    omega
  have hle := decimalLength_le (c :: cs)
  unfold numberFront at h
  split at h
  · next r rest heq =>
    rw [heq] at hwhole hdecimal hle ⊢
    split at h
    · next radix hr =>
      dsimp only at h
      split at h
      · cases h
      · have hlength := (List.takeWhile_sublist (l := rest) (isDigitOf radix)).length_le
        exact hwhole (Nat.succ_ne_zero _) (Nat.add_le_add_right hlength 2) h
    · exact hwhole hdecimal hle h
  · exact hwhole hdecimal hle h

/-! ## The front of a text -/

theorem symbolFront_append_newline (c : Char) (cs ds : List Char) :
    symbolFront c (cs ++ '\n' :: ds) = symbolFront c cs := by
  cases cs with
  | cons d cs => rfl
  | nil =>
    have hpair : pairSymbol? c '\n' = none := by
      unfold pairSymbol?
      split <;> first | rfl | (rename_i h; cases h)
    simp [symbolFront, hpair]

theorem symbolFront_le {c : Char} {t : Token} {n : Nat} (h : symbolFront c cs = .token t n) :
    n ≤ cs.length := by
  unfold symbolFront at h
  split at h
  · next hy =>
    cases h
    cases cs with
    | nil => cases hy
    | cons d cs => exact Nat.succ_le_succ (Nat.zero_le _)
  · split at h
    · cases h
      exact Nat.zero_le _
    · cases h

/-- What the front of a text is taken for takes no more than the text. -/
theorem front_le {c : Char} {n : Nat} (h : front c cs = .gap n ∨ ∃ t, front c cs = .token t n) :
    n ≤ cs.length := by
  obtain h | ⟨t, h⟩ := h
  · obtain ⟨-, rfl⟩ | ⟨es, m, -, rfl, hm, rfl⟩ | ⟨-, rfl⟩ := front_gap_cases h
    · exact lineRest_le cs
    · exact Nat.succ_le_succ (commentRest_le hm)
    · exact Nat.zero_le _
  · cases tokenFront_of_front h with
    | string _ hstring => exact (stringRest_append hstring []).2
    | number hdigit hnumber => exact (numberOfLength_of_numberFront hdigit hnumber).1
    | word _ hword =>
      have hle := wordFront_le (c :: cs)
      rw [hword] at hle
      exact Nat.le_of_succ_le_succ hle
    | percent => exact Nat.zero_le _
    | symbol hsymbol => exact symbolFront_le hsymbol

/-- The front of a text is the same with a line feed and more behind it, if it is no fault. -/
theorem front_append_newline {c : Char} (h : ∀ f n, front c cs ≠ .fault f n) (ds : List Char) :
    front c (cs ++ '\n' :: ds) = front c cs := by
  have hopen : (c = '/' ∧ (cs ++ '\n' :: ds).head? = some '*') ↔
      (c = '/' ∧ cs.head? = some '*') := by
    cases cs <;> simp
  have hnumber := numberFront_append_newline (c :: cs) ds
  have hword := wordFront_append_newline (c :: cs) ds
  rw [List.cons_append] at hnumber hword
  unfold front at h ⊢
  simp only [hopen, lineRest_append_newline, hnumber, hword, symbolFront_append_newline]
  split
  · rfl
  split
  · next hc hcomment =>
    obtain ⟨es, rfl⟩ := List.head?_eq_some_iff.1 hcomment.2
    cases hm : commentRest es with
    | none => exact (h .openComment (es.length + 1) (by simp [hcomment.1, hm])).elim
    | some m => simp [commentRest_append hm, hm]
  split
  · rfl
  split
  · next hc hcomment hblank hq =>
    cases hs : stringRest c cs with
    | broken f n => exact (h f n (by simp [hc, hcomment, hblank, hq, hs])).elim
    | closed content n => rw [(stringRest_append hs _).1]
  rfl

end Fronts

/-! ## The whole text -/

/-- What keeps a text from being read as tokens is a lexical fault. -/
theorem kind_of_tokensFrom_error {p : Place} {cs : List Char} {d : Diagnostic}
    (h : tokensFrom p cs = .error d) : d.kind = .lexical := by
  fun_induction tokensFrom p cs with
  | case1 => cases h
  | case2 p c cs n hgap ih => exact ih h
  | case3 p c cs t n htoken q =>
    next ih => exact ih (Except.map_eq_error.1 h)
  | case4 p c cs f n hfault =>
    cases h
    cases f <;> rfl

/-- The tokens of a text with a line feed and more behind it : those of the text, and behind
them those of what was added. -/
theorem tokensFrom_append_newline {p : Place} {cs : List Char} {ts : List Located}
    (h : tokensFrom p cs = .ok ts) (ds : List Char) :
    ∃ us e, ts = us ++ [e] ∧ tokensFrom p (cs ++ '\n' :: ds) =
      (tokensFrom ((p.after cs).step '\n') ds).map (us ++ ·) := by
  have hplace : ∀ (p : Place) c (cs : List Char) n,
      ((p.step c).after (cs.take n)).after (cs.drop n) = p.after (c :: cs) := by
    intro p c cs n
    rw [← Place.after_append, List.take_append_drop, Place.after_cons]
  fun_induction tokensFrom p cs generalizing ts with
  | case1 p =>
    cases h
    refine ⟨[], _, rfl, ?_⟩
    rw [List.nil_append, tokensFrom_blank rfl (by decide) (by decide), Place.after_nil]
    cases tokensFrom (p.step '\n') ds <;> rfl
  | case2 p c cs n hgap ih =>
    have hle := front_le (.inl hgap)
    have hfront : front c (cs ++ '\n' :: ds) = front c cs :=
      front_append_newline (by simp [hgap]) ds
    obtain ⟨us, e, rfl, hrest⟩ := ih h
    refine ⟨us, e, rfl, ?_⟩
    rw [List.cons_append, tokensFrom, hfront, hgap]
    dsimp only
    rw [List.take_append_of_le_length hle, drop_append_newline hle, hrest, hplace]
  | case3 p c cs t n htoken q =>
    next ih =>
    have hle := front_le (.inr ⟨t, htoken⟩)
    have hfront : front c (cs ++ '\n' :: ds) = front c cs :=
      front_append_newline (by simp [htoken]) ds
    obtain ⟨ts', hts', rfl⟩ := Except.map_eq_ok.1 h
    obtain ⟨us, e, rfl, hrest⟩ := ih hts'
    refine ⟨_ :: us, e, rfl, ?_⟩
    rw [List.cons_append, tokensFrom, hfront, htoken]
    simp only [List.take_append_of_le_length hle, drop_append_newline hle]
    rw [hrest, hplace]
    cases tokensFrom ((p.after (c :: cs)).step '\n') ds <;> rfl
  | case4 => cases h

/-! ## Faults before a line feed -/

/-- No string and no comment can end among the characters. -/
def EndsNothing (ds : List Char) : Prop :=
  ∀ d ∈ ds, d ≠ '"' ∧ d ≠ '\'' ∧ d ≠ '/'

section Faults

variable {ds : List Char} (hds : EndsNothing ds)

include hds

theorem commentRest_of_endsNothing : commentRest ds = none := by
  fun_induction commentRest ds with
  | case1 => rfl
  | case2 => rfl
  | case3 c d cs h => exact absurd h.2 (hds d (by simp)).2.2
  | case4 c d cs h ih =>
    rw [ih fun x hx => hds x (List.mem_cons_of_mem _ hx)]
    rfl

/-- An open comment is open with a line feed and such characters behind it. -/
theorem commentRest_append_newline {cs : List Char} (h : commentRest cs = none) :
    commentRest (cs ++ '\n' :: ds) = none := by
  have hnewline : EndsNothing ('\n' :: ds) := List.forall_mem_cons.2 ⟨by simp, hds⟩
  fun_induction commentRest cs with
  | case1 => exact commentRest_of_endsNothing hnewline
  | case2 c =>
    have hne : ¬(c = '*' ∧ '\n' = '/') := by simp
    rw [List.singleton_append, commentRest, if_neg hne, commentRest_of_endsNothing hnewline]
    rfl
  | case3 c d cs hend => cases h
  | case4 c d cs hne ih =>
    rw [Option.map_eq_none_iff] at h
    rw [List.cons_append, List.cons_append, commentRest, if_neg hne, ← List.cons_append, ih h]
    rfl

theorem stringRest_of_endsNothing {q : Char} (hq : q = '"' ∨ q = '\'') :
    ∃ f n, stringRest q ds = .broken f n := by
  fun_induction stringRest q ds with
  | case1 => exact ⟨_, _, rfl⟩
  | case2 => exact ⟨_, _, rfl⟩
  | case3 cs hnewline =>
    obtain ⟨h, h', -⟩ := hds q (by simp)
    exact (hq.elim h h').elim
  | case4 => exact ⟨_, _, rfl⟩
  | case5 d ds hnewline hclosed ih =>
    obtain ⟨f, n, h⟩ := ih fun x hx => hds x (by simp [hx])
    exact ⟨f, 2 + n, by rw [h]; rfl⟩
  | case6 c cs hnewline hclosed hescape ih =>
    obtain ⟨f, n, h⟩ := ih fun x hx => hds x (by simp [hx])
    exact ⟨f, 1 + n, by rw [h]; rfl⟩

/-- A string that is broken off is broken off with a line feed and such characters behind it. -/
theorem stringRest_append_newline {q : Char} (hq : q = '"' ∨ q = '\'') {cs : List Char}
    {f : LexicalFault} {n : Nat} (h : stringRest q cs = .broken f n) :
    ∃ f' n', stringRest q (cs ++ '\n' :: ds) = .broken f' n' := by
  fun_induction stringRest q cs generalizing f n with
  | case1 => exact ⟨.openString, 0, by rw [List.nil_append, stringRest.eq_def]; rfl⟩
  | case2 cs => exact ⟨.openString, 0, by rw [List.cons_append, stringRest.eq_def]; rfl⟩
  | case3 => cases h
  | case4 hn hclosed =>
    -- The escape takes the line feed, and the string goes on behind it.
    obtain ⟨f', n', hrest⟩ := stringRest_of_endsNothing hds hq
    refine ⟨f', 2 + n', ?_⟩
    rw [List.singleton_append, stringRest.eq_def]
    simp [hclosed, hrest, StringRest.push]
  | case5 d cs hn hclosed ih =>
    obtain ⟨m, hr⟩ := StringRest.push_eq_broken h
    obtain ⟨f', n', hrest⟩ := ih hr
    refine ⟨f', 2 + n', ?_⟩
    rw [List.cons_append, List.cons_append, stringRest.eq_def]
    simp [hclosed, hrest, StringRest.push]
  | case6 c cs hn hclosed hescape ih =>
    obtain ⟨m, hr⟩ := StringRest.push_eq_broken h
    obtain ⟨f', n', hrest⟩ := ih hr
    refine ⟨f', 1 + n', ?_⟩
    rw [List.cons_append, stringRest.eq_def]
    simp [hn, hclosed, hescape, hrest, StringRest.push]

theorem front_fault_append_newline {c : Char} {cs : List Char} {f : LexicalFault} {n : Nat}
    (h : front c cs = .fault f n) : ∃ f' n', front c (cs ++ '\n' :: ds) = .fault f' n' := by
  have hopen : (c = '/' ∧ (cs ++ '\n' :: ds).head? = some '*') ↔
      (c = '/' ∧ cs.head? = some '*') := by
    cases cs <;> simp
  have hnumber := numberFront_append_newline (c :: cs) ds
  have hword := wordFront_append_newline (c :: cs) ds
  rw [List.cons_append] at hnumber hword
  unfold front at h ⊢
  simp only [hopen, lineRest_append_newline, hnumber, hword, symbolFront_append_newline]
  split
  · next hc => simp [hc] at h
  split
  · next hc hcomment =>
    obtain ⟨es, rfl⟩ := List.head?_eq_some_iff.1 hcomment.2
    cases hm : commentRest es with
    | some m => simp [hcomment.1, hm] at h
    | none =>
      have hes := commentRest_append_newline hds hm
      exact ⟨_, _, by rw [List.cons_append, List.tail_cons, hes]⟩
  split
  · next hc hcomment hblank => simp [hc, hcomment, hblank] at h
  split
  · next hc hcomment hblank hq =>
    cases hs : stringRest c cs with
    | closed content m => simp [hc, hcomment, hblank, hq, hs] at h
    | broken g m =>
      obtain ⟨f', n', hrest⟩ := stringRest_append_newline hds hq hs
      exact ⟨f', n', by rw [hrest]⟩
  · next hc hcomment hblank hq =>
    rw [if_neg hc, if_neg hcomment, if_neg hblank, if_neg hq] at h
    exact ⟨f, n, h⟩

/-- A text that cannot be read cannot be read with a line feed and such characters behind it. -/
theorem tokensFrom_error_append_newline {p : Place} {cs : List Char} {d : Diagnostic}
    (h : tokensFrom p cs = .error d) : ∃ d', tokensFrom p (cs ++ '\n' :: ds) = .error d' := by
  fun_induction tokensFrom p cs with
  | case1 => cases h
  | case2 p c cs n hgap ih =>
    have hle := front_le (.inl hgap)
    have hfront : front c (cs ++ '\n' :: ds) = front c cs :=
      front_append_newline (by simp [hgap]) ds
    obtain ⟨d', hrest⟩ := ih h
    refine ⟨d', ?_⟩
    rw [List.cons_append, tokensFrom, hfront, hgap]
    dsimp only
    rw [List.take_append_of_le_length hle, drop_append_newline hle, hrest]
  | case3 p c cs t n htoken q =>
    next ih =>
    have hle := front_le (.inr ⟨t, htoken⟩)
    have hfront : front c (cs ++ '\n' :: ds) = front c cs :=
      front_append_newline (by simp [htoken]) ds
    obtain ⟨d', hrest⟩ := ih (Except.map_eq_error.1 h)
    refine ⟨d', ?_⟩
    rw [List.cons_append, tokensFrom, hfront, htoken]
    simp only [List.take_append_of_le_length hle, drop_append_newline hle]
    rw [hrest]
    rfl
  | case4 p c cs f n hfault =>
    obtain ⟨f', n', hfront⟩ := front_fault_append_newline hds hfault
    exact ⟨_, by rw [List.cons_append, tokensFrom, hfront]⟩

end Faults

theorem toList_append_newline (a b : String) :
    (a ++ "\n" ++ b).toList = a.toList ++ '\n' :: b.toList := by
  simp

theorem tokenize_append_newline {a : String} {us : List Located} {e : Located}
    (h : tokenize a = .ok (us ++ [e])) (b : String) :
    tokenize (a ++ "\n" ++ b) =
      (tokensFrom ((Place.origin.after a.toList).step '\n') b.toList).map (us ++ ·) := by
  obtain ⟨us', e', heq, hread⟩ := tokensFrom_append_newline h b.toList
  obtain rfl := List.append_inj_left' heq rfl
  rw [← hread, tokenize, toList_append_newline]

end OpsLang
