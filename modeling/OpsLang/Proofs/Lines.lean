import OpsLang.Proofs.Passing
import OpsLang.Proofs.Separated

/-!
# Line feeds in tokens

A token stands on one line, but for a string : the character behind a backslash is taken into a
string whatever it is, so a backslash at the end of a line lets the string go on into the next
one. A character is `Escaped` by an odd number of backslashes before it. A line feed in a token
is escaped and the token is a string, and a string that comes to a line feed which is not escaped
stays open (`tokenize_newline`).
-/

namespace OpsLang

/-! ## Escaped characters -/

/-- A character behind the text is escaped : the number of backslashes it ends with is odd. -/
def Escaped (cs : List Char) : Prop :=
  (cs.reverse.takeWhile (· == '\\')).length % 2 = 1

instance (cs : List Char) : Decidable (Escaped cs) :=
  inferInstanceAs (Decidable (_ = _))

section Escapes

variable {c : Char} {cs : List Char}

theorem not_escaped_nil : ¬Escaped [] := by
  decide

theorem escaped_concat : Escaped (cs ++ [c]) ↔ c = '\\' ∧ ¬Escaped cs := by
  simp only [Escaped, List.reverse_append, List.reverse_singleton, List.singleton_append,
    List.takeWhile_cons]
  by_cases hc : c = '\\'
  · simp only [hc, beq_self_eq_true, if_true, List.length_cons, true_and]
    omega
  · simp [hc]

/-- What stands before a character that is not escaped does not matter behind it. -/
theorem escaped_append {as : List Char} (h : ¬Escaped as) : Escaped (as ++ cs) ↔ Escaped cs := by
  induction cs using List.reverseRecOn with
  | nil => simp [h, not_escaped_nil]
  | append_singleton cs c ih => rw [← List.append_assoc, escaped_concat, escaped_concat, ih]

theorem escaped_cons (hc : c ≠ '\\') : Escaped (c :: cs) ↔ Escaped cs := by
  have hone : ¬Escaped ([] ++ [c]) := fun h => hc (escaped_concat.1 h).1
  exact escaped_append hone

theorem escaped_cons_cons : Escaped ('\\' :: c :: cs) ↔ Escaped cs := by
  have hpair : ¬Escaped (['\\'] ++ [c]) := fun h => (escaped_concat.1 h).2 (by decide)
  exact escaped_append hpair

end Escapes

/-! ## Strings -/

section Strings

variable {q : Char} {as bs cs : List Char}

/-- A line feed in a string is escaped. -/
theorem escaped_of_stringRest {content : List Char} {n : Nat}
    (h : stringRest q (as ++ '\n' :: bs) = .closed content n) (hlt : as.length < n) :
    Escaped as := by
  generalize hcs : as ++ '\n' :: bs = cs at h
  fun_induction stringRest q cs generalizing as content n with
  | case1 => cases h
  | case2 => cases h
  | case3 cs hn =>
    cases h
    obtain rfl := List.eq_nil_of_length_eq_zero (Nat.lt_one_iff.1 hlt)
    exact absurd (List.cons.inj hcs).1.symm hn
  | case4 => cases h
  | case5 d ds hn hq ih =>
    obtain ⟨content', m, hr, rfl, rfl⟩ := StringRest.push_eq_closed h
    cases as with
    | nil => cases hcs
    | cons c as =>
      obtain ⟨rfl, htail⟩ := List.cons.inj hcs
      cases as with
      | nil => decide
      | cons d' as =>
        obtain ⟨rfl, hrest⟩ := List.cons.inj htail
        rw [escaped_cons_cons]
        simp only [List.length_cons] at hlt
        exact ih (by omega) hrest hr
  | case6 c cs hn hq hb ih =>
    obtain ⟨content', m, hr, rfl, rfl⟩ := StringRest.push_eq_closed h
    cases as with
    | nil => exact absurd (List.cons.inj hcs).1.symm hn
    | cons c' as =>
      obtain ⟨rfl, htail⟩ := List.cons.inj hcs
      rw [escaped_cons hb]
      simp only [List.length_cons] at hlt
      exact ih (by omega) htail hr

/-- A string stays open before a line feed that is not escaped, if each quote before that is. -/
theorem stringRest_broken (hq : q ≠ '\\')
    (hquote : ∀ cs ds, as = cs ++ q :: ds → Escaped cs) (has : ¬Escaped as) :
    ∃ n ≤ as.length, stringRest q (as ++ '\n' :: bs) = .broken .openString n := by
  generalize hcs : as ++ '\n' :: bs = cs
  fun_induction stringRest q cs generalizing as with
  | case1 => simp at hcs
  | case2 => exact ⟨0, Nat.zero_le _, rfl⟩
  | case3 cs hn =>
    cases as with
    | nil => exact absurd (List.cons.inj hcs).1.symm hn
    | cons c as =>
      obtain ⟨rfl, -⟩ := List.cons.inj hcs
      exact absurd (hquote [] as rfl) not_escaped_nil
  | case4 =>
    cases as with
    | nil => cases hcs
    | cons c as => simp at hcs
  | case5 d ds hn hq' ih =>
    cases as with
    | nil => cases hcs
    | cons c as =>
      obtain ⟨rfl, htail⟩ := List.cons.inj hcs
      cases as with
      | nil => exact absurd (by decide) has
      | cons d' as =>
        obtain ⟨rfl, hrest⟩ := List.cons.inj htail
        rw [escaped_cons_cons] at has
        have hquote' : ∀ cs ds, as = cs ++ q :: ds → Escaped cs := fun cs ds h =>
          escaped_cons_cons.1 (hquote ('\\' :: d' :: cs) ds (by rw [h]; rfl))
        obtain ⟨n, hle, hr⟩ := ih hquote' has hrest
        refine ⟨2 + n, ?_, by rw [hr]; rfl⟩
        simp only [List.length_cons]
        omega
  | case6 c cs hn hq' hb ih =>
    cases as with
    | nil => exact absurd (List.cons.inj hcs).1.symm hn
    | cons c' as =>
      obtain ⟨rfl, htail⟩ := List.cons.inj hcs
      rw [escaped_cons hb] at has
      have hquote' : ∀ cs ds, as = cs ++ q :: ds → Escaped cs := fun cs ds h =>
        (escaped_cons hb).1 (hquote (c' :: cs) ds (by rw [h]; rfl))
      obtain ⟨n, hle, hr⟩ := ih hquote' has htail
      refine ⟨1 + n, ?_, by rw [hr]; rfl⟩
      simp only [List.length_cons]
      omega

end Strings

/-! ## Tokens -/

theorem newline_notMem_of_isWordChar {cs : List Char} (h : ∀ c ∈ cs, isWordChar c = true) :
    '\n' ∉ cs :=
  fun hmem => by cases h _ hmem

/-- The text of a token stands on one line. -/
theorem Token.Written.newline_notMem_text {t : Token} (ht : t.Written) : '\n' ∉ t.text.toList := by
  cases t with
  | keyword k => exact newline_notMem_of_isWordChar (keyword_text_shape k).2.2
  | name n => exact newline_notMem_of_isWordChar ht.chars
  | truth b => exact newline_notMem_of_isWordChar (truthText_shape b).2.2
  | number x => exact newline_notMem_of_isNumber ht
  | string s => exact newline_notMem_quote s
  | unit u =>
    obtain rfl | ⟨⟨-, -, hchars⟩, -⟩ := unitSpellings_shape u ht
    · decide
    · intro hmem
      obtain h | h := hchars _ hmem <;> cases h
  | symbol y => cases y <;> decide
  | eof => exact ht.elim

/-- Only a string is read off a word with a line feed, which is escaped in it. -/
theorem Token.ReadOff.newline {t : Token} {as bs : List Char}
    (h : t.ReadOff (as ++ '\n' :: bs)) : (∃ content, t = .string content) ∧ Escaped as := by
  obtain ⟨c, cs, hword, hfront⟩ := h
  have hf := hfront [] parted_nil
  rw [List.append_nil] at hf
  by_cases hq : c = '"' ∨ c = '\''
  · cases as with
    | nil =>
      obtain ⟨rfl, -⟩ := List.cons.inj hword
      simp at hq
    | cons c' as =>
      obtain ⟨rfl, rfl⟩ := List.cons.inj hword
      have hc : c' ≠ '\\' := by
        rintro rfl
        simp at hq
      rw [front_quote hq] at hf
      split at hf
      · next content n hstring =>
        obtain ⟨rfl, rfl⟩ := Front.token.inj hf
        refine ⟨⟨_, rfl⟩, (escaped_cons hc).2 (escaped_of_stringRest hstring ?_)⟩
        simp
      · cases hf
  · have htext := text_of_front hf hq
    rw [List.take_length, ← hword] at htext
    exact absurd (by simp [htext]) (written_of_front hf).newline_notMem_text

/-- The end of a text takes no characters. -/
theorem slice_of_tokensFrom {text : String} {us : List Located} {e : Located}
    (h : tokenize text = .ok (us ++ [e])) : e.span.slice text = "" := by
  obtain ⟨us', hts, -⟩ := (tokensFrom_laid h).exists_last
  obtain ⟨-, hlast⟩ := List.append_inj' hts rfl
  obtain rfl := List.singleton_inj.1 hlast
  have hparts : text.toList = text.toList ++ ([] ++ []) := by simp
  exact Span.slice_eq hparts

/-- A line feed in a token is in a string, and escaped. A string that comes to a line feed which
is not escaped, and to no quote before that closes it, stays open. -/
theorem tokenize_newline (text : String) :
    (∀ ts, tokenize text = .ok ts → ∀ t ∈ ts, ∀ before behind,
      (t.span.slice text).toList = before ++ '\n' :: behind →
        (∃ content, t.token = .string content) ∧ Escaped before) ∧
    ∀ before us q body behind, text.toList = before ++ q :: (body ++ '\n' :: behind) →
      Scans .origin before us (q :: (body ++ '\n' :: behind)) → q = '"' ∨ q = '\'' →
      (∀ cs ds, body = cs ++ q :: ds → Escaped cs) → ¬Escaped body →
        ∃ n ≤ body.length, tokenize text = .error (LexicalFault.openString.diagnostic
          ((Place.origin.after before).to
            ((Place.origin.after before).after (q :: body.take n)))) := by
  refine ⟨?tokens, ?strings⟩
  case tokens =>
    intro ts h t ht before behind hslice
    obtain ⟨us, e, rfl, he, hus⟩ := tokensFrom_standsIn h
    obtain ht | ht := List.mem_append.1 ht
    · obtain ⟨_, word, _, hparts, hspan, hread⟩ := hus t ht
      rw [hspan, Span.slice_eq hparts, String.toList_ofList] at hslice
      rw [hslice] at hread
      exact hread.newline
    · obtain rfl := List.mem_singleton.1 ht
      rw [slice_of_tokensFrom h] at hslice
      simp at hslice
  case strings =>
    intro before us q body behind hparts hscans hq hquote hbody
    have hne : q ≠ '\\' := by
      rintro rfl
      simp at hq
    obtain ⟨n, hle, hbroken⟩ := @stringRest_broken q body behind hne hquote hbody
    refine ⟨n, hle, ?_⟩
    have hread := hscans.tokensFrom_append
    rw [tokensFrom, front_quote hq, hbroken] at hread
    simp only [List.take_append_of_le_length hle] at hread
    rw [tokenize, hparts, hread]
    rfl

/-- A backslash at the end of a line, and one there that is escaped itself. -/
theorem tokenize_newline_backslash :
    (tokenize "'a\\\n'" = .ok [⟨.string "a\\\n", ⟨0, 5, 1, 1⟩⟩, ⟨.eof, ⟨5, 5, 2, 2⟩⟩] ∧
      Escaped ['\'', 'a', '\\']) ∧
    ∃ n ≤ 2, tokenize "'\\\\\n'" = .error (LexicalFault.openString.diagnostic
      (Place.origin.to (Place.origin.after ('\'' :: ['\\', '\\'].take n)))) := by
  have hread : tokenize "'a\\\n'" =
      .ok [⟨.string "a\\\n", ⟨0, 5, 1, 1⟩⟩, ⟨.eof, ⟨5, 5, 2, 2⟩⟩] := by
    cbv
  have hslice : (Span.slice ⟨0, 5, 1, 1⟩ "'a\\\n'").toList =
      ['\'', 'a', '\\'] ++ '\n' :: ['\''] := by
    rfl
  have hquote : ∀ cs ds, ['\\', '\\'] = cs ++ '\'' :: ds → Escaped cs := by
    intro cs ds h
    have hmem : '\'' ∈ ['\\', '\\'] := by simp [h]
    exact absurd hmem (by decide)
  exact ⟨⟨hread, ((tokenize_newline _).1 _ hread _ List.mem_cons_self _ _ hslice).2⟩,
    (tokenize_newline _).2 [] [] '\'' _ ['\''] rfl .done (.inr rfl) hquote (by decide)⟩

/-- A string goes on into the next line behind a backslash. -/
theorem tokenize_newline_in_string :
    ∃ ts t, tokenize "\"a\\\n\"" = .ok ts ∧ t ∈ ts ∧
      '\n' ∈ (t.span.slice "\"a\\\n\"").toList :=
  ⟨[⟨.string "a\\\n", ⟨0, 5, 1, 1⟩⟩, ⟨.eof, ⟨5, 5, 2, 2⟩⟩], _, by cbv, List.mem_cons_self,
    by decide⟩

end OpsLang
