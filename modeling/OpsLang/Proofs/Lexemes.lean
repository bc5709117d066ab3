import OpsLang.Proofs.Lines

/-!
# Lexemes read again

The lexeme of a token is a text that the token is read from, with one exception : a string in
which a listing writes a character as its number (`isNumbered`). The language knows no such escape,
so the backslash and the letter behind it are kept, and the braces with the digits between them are
characters like others. What is read in place of a character is `relistedChar`.

For the tokens that are no strings the lexeme is the text of the token, of which this is known
(`tokensFrom_token`). For strings it is shown one character at a time (`stringRest_listedChar`), and
a string that is read again comes out as it was only where none of its characters grows, since none
of them is left out (`flatMap_relistedChar_eq_iff`).
-/

namespace OpsLang

/-! ## Characters of a listing -/

/-- A listing writes the character as its number. -/
def isNumbered (c : Char) : Bool :=
  (shortEscape? c).isNone && (isCombining c || isUnprintable c)

/-- What is read where a listing has the character. -/
def relistedChar (c : Char) : List Char :=
  if isNumbered c then numbered c else [c]

section Characters

variable {c : Char} {cs rest : List Char}

theorem listedChar_of_numbered (h : isNumbered c = true) : listedChar c = numbered c := by
  simp only [isNumbered, Bool.and_eq_true, Option.isNone_iff_eq_none] at h
  simp [listedChar, h.1, h.2]

theorem listedChar_of_not_numbered (h : isNumbered c = false) : listedChar c = quoteChar c := by
  rw [listedChar, quoteChar]
  cases he : shortEscape? c with
  | some e => rfl
  | none =>
    have hvisible : (isCombining c || isUnprintable c) = false := by simpa [isNumbered, he] using h
    simp [hvisible]

theorem exists_digitChar_of_mem_toDigits {n : Nat} (h : c ∈ Nat.toDigits 16 n) :
    ∃ d < 16, c = Nat.digitChar d := by
  induction n using Nat.strong_induction_on with
  | _ n ih =>
    by_cases hn : n < 16
    · rw [Nat.toDigits_of_lt_base hn] at h
      exact ⟨n, hn, List.mem_singleton.1 h⟩
    · rw [Nat.toDigits_of_base_le (by omega) (Nat.le_of_not_lt hn)] at h
      obtain h | h := List.mem_append.1 h
      · exact ih (n / 16) (by omega) h
      · exact ⟨n % 16, Nat.mod_lt _ (by omega), List.mem_singleton.1 h⟩

theorem StringRest.push_push (r : StringRest) (as bs : List Char) (m n : Nat) :
    (r.push bs n).push as m = r.push (as ++ bs) (m + n) := by
  cases r <;> simp [push, Nat.add_assoc]

/-- Characters that need no escape are read as themselves. -/
theorem stringRest_append_plain (h : ∀ c ∈ cs, c ≠ '\n' ∧ c ≠ '"' ∧ c ≠ '\\')
    (rest : List Char) : stringRest '"' (cs ++ rest) = (stringRest '"' rest).push cs cs.length := by
  induction cs with
  | nil => cases hrest : stringRest '"' rest <;> simp [hrest, StringRest.push]
  | cons c cs ih =>
    obtain ⟨hc, hcs⟩ := List.forall_mem_cons.1 h
    rw [List.cons_append, stringRest_plain hc, ih hcs, StringRest.push_push, List.singleton_append,
      List.length_cons, Nat.add_comm 1]

/-- The number of a character is read as it is written, backslash and all. -/
theorem stringRest_numbered (c : Char) (rest : List Char) :
    stringRest '"' (numbered c ++ rest) =
      (stringRest '"' rest).push (numbered c) (numbered c).length := by
  have hdigit : ∀ d < 16, Nat.digitChar d ≠ '\n' ∧ Nat.digitChar d ≠ '"' ∧
      Nat.digitChar d ≠ '\\' := by decide
  have hplain : ∀ d ∈ '\x7b' :: (Nat.toDigits 16 c.toNat ++ ['\x7d']),
      d ≠ '\n' ∧ d ≠ '"' ∧ d ≠ '\\' := by
    intro d hd
    simp only [List.mem_cons, List.mem_append, List.not_mem_nil, or_false] at hd
    obtain rfl | hd | rfl := hd
    · decide
    · obtain ⟨n, hn, rfl⟩ := exists_digitChar_of_mem_toDigits hd
      exact hdigit n hn
    · decide
  have hnumbered : numbered c = '\\' :: 'u' :: '\x7b' :: (Nat.toDigits 16 c.toNat ++ ['\x7d']) :=
    rfl
  rw [hnumbered, List.cons_append, List.cons_append, stringRest_escape,
    stringRest_append_plain hplain, StringRest.push_push]
  congr 1
  simp only [List.length_cons]
  omega

theorem stringRest_listedChar (c : Char) (rest : List Char) :
    stringRest '"' (listedChar c ++ rest) =
      (stringRest '"' rest).push (relistedChar c) (listedChar c).length := by
  cases h : isNumbered c with
  | true =>
    have hrelisted : relistedChar c = numbered c := if_pos h
    rw [listedChar_of_numbered h, hrelisted, stringRest_numbered]
  | false =>
    have hrelisted : relistedChar c = [c] := if_neg (by simp [h])
    rw [listedChar_of_not_numbered h, hrelisted, stringRest_quoteChar]

/-- A listed string is read with every character relisted. -/
theorem stringRest_listed (s rest : List Char) :
    stringRest '"' (s.flatMap listedChar ++ '"' :: rest) =
      .closed (s.flatMap relistedChar) ((s.flatMap listedChar).length + 1) := by
  induction s with
  | nil => exact stringRest_close rest
  | cons c s ih =>
    rw [List.flatMap_cons, List.append_assoc, List.length_append, stringRest_listedChar, ih,
      StringRest.push, ← List.flatMap_cons, Nat.add_assoc]

/-- Characters that are read again come back unless one of them is numbered. -/
theorem flatMap_relistedChar_eq_iff {s : List Char} :
    s.flatMap relistedChar = s ↔ ∀ c ∈ s, isNumbered c = false := by
  have hpos : ∀ c, 1 ≤ (relistedChar c).length := by
    intro c
    rw [relistedChar]
    split <;> simp [numbered]
  have hlong : ∀ s : List Char, s.length ≤ (s.flatMap relistedChar).length := by
    intro s
    induction s with
    | nil => exact Nat.le_refl 0
    | cons c s ih =>
      rw [List.flatMap_cons, List.length_append, List.length_cons]
      have hc := hpos c
      omega
  induction s with
  | nil => simp
  | cons c s ih =>
    rw [List.forall_mem_cons, List.flatMap_cons]
    cases h : isNumbered c with
    | true =>
      have hrelisted : relistedChar c = numbered c := if_pos h
      have hs := hlong s
      have hne : relistedChar c ++ s.flatMap relistedChar ≠ c :: s := by
        intro heq
        have hlength := congrArg List.length heq
        rw [hrelisted] at hlength
        simp only [numbered, List.length_append, List.length_cons, List.length_nil] at hlength
        omega
      simp [hne]
    | false =>
      have hrelisted : relistedChar c = [c] := if_neg (by simp [h])
      simp [hrelisted, ih]

end Characters

/-! ## Tokens -/

/-- The token that its lexeme is read as. -/
def Token.relisted : Token → Token
  | string s => .string (String.ofList (s.toList.flatMap relistedChar))
  | t => t

/-- Listings write no character of the token as its number. -/
def Token.ListedPlainly (t : Token) : Prop :=
  ∀ s, t = .string s → ∀ c ∈ s.toList, isNumbered c = false

section Tokens

variable {t : Token}

theorem Token.relisted_eq_iff : t.relisted = t ↔ t.ListedPlainly := by
  cases t with
  | string s =>
    have hcontent : (Token.string s).relisted = .string s ↔
        s.toList.flatMap relistedChar = s.toList := by
      rw [Token.relisted, Token.string.injEq, ← String.toList_inj, String.toList_ofList]
    rw [hcontent, flatMap_relistedChar_eq_iff]
    simp [Token.ListedPlainly]
  | _ => simp [Token.relisted, Token.ListedPlainly]

/-- A token that can be written is read from its lexeme, relisted. -/
theorem tokenize_lexeme (h : t.Written) :
    ∃ u e, tokenize t.lexeme = .ok [u, e] ∧ u.token = t.relisted ∧ e.token = .eof := by
  have hplain : t.lexeme = t.text → t.relisted = t →
      ∃ u e, tokenize t.lexeme = .ok [u, e] ∧ u.token = t.relisted ∧ e.token = .eof := by
    intro hlexeme hrelisted
    have hclear : t.Clear [] := by rintro c ⟨⟩
    have hscan := tokensFrom_token h hclear .origin
    rw [List.append_nil, tokensFrom] at hscan
    rw [hlexeme, hrelisted]
    exact ⟨_, _, hscan, rfl, rfl⟩
  cases t with
  | string s =>
    have hlexeme : (Token.string s).lexeme.toList =
        '"' :: (s.toList.flatMap listedChar ++ ['"']) := by
      simp [Token.lexeme, quoteListed]
    have hfront : front '"' (s.toList.flatMap listedChar ++ ['"']) =
        .token (Token.string s).relisted (s.toList.flatMap listedChar ++ ['"']).length := by
      have hblank : isBlank '"' = false := rfl
      simp [front, hblank, stringRest_listed s.toList [], Token.relisted]
    rw [tokenize, hlexeme, tokensFrom, hfront]
    dsimp only
    rw [List.drop_length, tokensFrom]
    exact ⟨_, _, rfl, rfl, rfl⟩
  | _ => exact hplain rfl rfl

end Tokens

/-- The lexeme of a token of a text is read as one token and the end of the text. It is the same
token, unless that is a string which a listing writes with the number of a character : then the
number is kept as it is written. -/
theorem tokenize_lexeme_of_mem {text : String} {ts : List Located} (hts : tokenize text = .ok ts)
    {t : Located} (ht : t ∈ ts) (hend : t.token ≠ .eof) :
    ∃ u e, tokenize t.token.lexeme = .ok [u, e] ∧ e.token = .eof ∧ u.token = t.token.relisted ∧
      (u.token = t.token ↔ t.token.ListedPlainly) := by
  obtain ⟨us, e, rfl, he, hus⟩ := tokenize_spec hts
  have hwritten : t.token.Written := by
    obtain ht | ht := List.mem_append.1 ht
    · exact hus t ht
    · obtain rfl := List.mem_singleton.1 ht
      exact absurd he hend
  obtain ⟨u, e, htokens, hu, he⟩ := tokenize_lexeme hwritten
  exact ⟨u, e, htokens, he, hu, hu ▸ Token.relisted_eq_iff⟩

/-- A quotation mark in quotes is read again from its lexeme, and an accent is not. -/
theorem tokenize_lexeme_of_mem_quotes :
    ∃ ts t t', tokenize "'\"' \"\u0301\"" = .ok ts ∧ t ∈ ts ∧ t.token = .string "\"" ∧
      t' ∈ ts ∧ t'.token = .string "\u0301" ∧
      (∃ u e, tokenize t.token.lexeme = .ok [u, e] ∧ e.token = .eof ∧ u.token = t.token) ∧
      ∃ u e, tokenize t'.token.lexeme = .ok [u, e] ∧ e.token = .eof ∧ u.token ≠ t'.token := by
  have hok : (tokenize "'\"' \"\u0301\"").map words =
      .ok [.string "\"", .string "\u0301", .eof] := by cbv
  obtain ⟨ts, hts, hwords⟩ := Except.map_eq_ok.1 hok
  obtain ⟨t, _, rfl, ht, hrest⟩ := words_eq_cons.1 hwords
  obtain ⟨t', us, rfl, ht', -⟩ := words_eq_cons.1 hrest
  have hplain : t.token.ListedPlainly := by
    rw [ht]
    rintro s ⟨⟩ c hc
    obtain rfl : c = '"' := by simpa using hc
    rfl
  have hlisted : ¬t'.token.ListedPlainly := by
    intro h
    have hnumbered := h _ ht' '\u0301' (by decide)
    revert hnumbered
    decide
  obtain ⟨u, e, hlex, he, -, hu⟩ :=
    tokenize_lexeme_of_mem hts (t := t) (by simp) (by simp [ht])
  obtain ⟨u', e', hlex', he', -, hu'⟩ :=
    tokenize_lexeme_of_mem hts (t := t') (by simp) (by simp [ht'])
  exact ⟨_, t, t', hts, by simp, ht, by simp, ht', ⟨u, e, hlex, he, hu.2 hplain⟩,
    u', e', hlex', he', mt hu'.1 hlisted⟩

/-- The lexeme of an accent in quotes is read as another string : its number, with a backslash and
braces. -/
theorem exists_lexeme_of_other_token : ∃ ts t u e, tokenize "\"\u0301\"" = .ok ts ∧ t ∈ ts ∧
    t.token ≠ .eof ∧ tokenize t.token.lexeme = .ok [u, e] ∧ u.token ≠ t.token := by
  have hok : (tokenize "\"\u0301\"").map words = .ok [.string "\u0301", .eof] := by cbv
  obtain ⟨ts, hts, hwords⟩ := Except.map_eq_ok.1 hok
  obtain ⟨t, us, rfl, ht, -⟩ := words_eq_cons.1 hwords
  obtain ⟨u, e, hlex, hu, -⟩ := tokenize_lexeme (t := t.token) (by rw [ht]; trivial)
  refine ⟨_, t, u, e, hts, by simp, by simp [ht], hlex, fun heq => ?_⟩
  have hnumbered := Token.relisted_eq_iff.1 (hu.symm.trans heq) _ ht '\u0301' (by decide)
  revert hnumbered
  decide

end OpsLang
