import OpsLang.Proofs.Breaking
import OpsLang.Proofs.Passing

/-!
# Where a text cannot be read

A text that cannot be read is passed over up to the first front that is no token, and the
diagnostic points at that front. The tokens before it were told with all of the text in view, so
it is to be shown that none of them is another one where the text is cut before the fault. This
rests on what a fault begins with. It is no letter, so no word goes on into it; and a digit does
not follow a word character that is passed over (`Scans.not_isDigit`), so no number goes on into
it either. `Scans.cut` is the cut, and `tokenize_fault` what it gives.
-/

namespace OpsLang

section Fronts

variable {c : Char} {cs rest : List Char} {t : Token} {n k : Nat}

/-! ## Ends of tokens -/

theorem not_isDigit_of_unitAtFront {u : String} (hu : u ∈ unitSpellings)
    (h : unitAtFront (c :: cs) u = true) : c.isDigit = false := by
  obtain ⟨rest, hcs, -⟩ := unitAtFront_iff.1 h
  obtain rfl | ⟨⟨hstart, hne, -⟩, -⟩ := unitSpellings_shape u hu
  · obtain ⟨rfl, -⟩ := List.cons.inj hcs
    rfl
  · obtain ⟨d, ds, hd⟩ := List.exists_cons_of_ne_nil hne
    rw [hd] at hcs hstart
    obtain ⟨rfl, -⟩ := List.cons.inj hcs
    exact not_isDigit_of_isWordStart (hstart _ rfl)

/-- No digit stands behind a number. -/
theorem not_isDigit_of_numberOfLength (h : numberOfLength cs k = .token t n) :
    ∀ d ∈ (cs.drop k).head?, d.isDigit = false := by
  intro d hd
  obtain ⟨ds, hds⟩ := List.head?_eq_some_iff.1 hd
  rw [← Bool.not_eq_true]
  intro hdigit
  rw [numberOfLength, hds] at h
  simp only [isWordChar_of_isDigit hdigit, Bool.true_and] at h
  split at h
  · cases h
  · next hunit =>
    cases hu : longestUnit (d :: ds) with
    | none => exact hunit (by rw [hu]; rfl)
    | some u =>
      obtain ⟨⟨hmem, hfront⟩, -⟩ := longestUnit_eq_some hu
      rw [not_isDigit_of_unitAtFront hmem hfront] at hdigit
      cases hdigit

theorem not_isDigit_of_numberFront (hc : c.isDigit = true)
    (h : numberFront (c :: cs) = .token t n) : ∀ d ∈ (cs.drop n).head?, d.isDigit = false := by
  have hbehind := not_isDigit_of_numberOfLength (numberOfLength_of_numberFront hc h).2
  rwa [List.drop_succ_cons] at hbehind

/-- No word character stands behind a word. -/
theorem atWordEnd_of_wordFront (cs : List Char) : atWordEnd (cs.drop (wordFront cs).2) = true := by
  obtain h | ⟨u, hu, -, h⟩ := wordFront_length cs
  · have hdrop := @List.drop_left _ (cs.takeWhile isWordChar) (cs.dropWhile isWordChar)
    rw [List.takeWhile_append_dropWhile] at hdrop
    have hnot := List.head?_dropWhile_not isWordChar cs
    rw [h, hdrop, atWordEnd_iff]
    intro d hd
    rw [Option.mem_def] at hd
    rw [hd] at hnot
    exact hnot
  · obtain ⟨rest, hcs, hend⟩ := unitAtFront_iff.1 (longestUnit_eq_some hu).1.2
    rwa [h, hcs, ← String.length_toList, List.drop_left]

theorem not_isWordChar_symbol (y : Symbol) : ∀ c ∈ y.text.toList, isWordChar c = false := by
  have hall : y.text.toList.all (fun c => !isWordChar c) = true := by cases y <;> rfl
  simpa using hall

theorem getLast?_of_stringRest {q : Char} {content : List Char}
    (h : stringRest q cs = .closed content n) : (cs.take n).getLast? = some q := by
  fun_induction stringRest q cs generalizing content n with
  | case1 => cases h
  | case2 cs => cases h
  | case3 cs hq =>
    cases h
    rfl
  | case4 => cases h
  | case5 d ds hn hq ih =>
    obtain ⟨content', m, hr, rfl, rfl⟩ := StringRest.push_eq_closed h
    rw [Nat.add_comm 2, List.take_succ_cons, List.take_succ_cons, List.getLast?_cons,
      List.getLast?_cons, ih hr]
    rfl
  | case6 d ds hn hq hb ih =>
    obtain ⟨content', m, hr, rfl, rfl⟩ := StringRest.push_eq_closed h
    rw [Nat.add_comm 1, List.take_succ_cons, List.getLast?_cons, ih hr]
    rfl

/-- No digit touches a word character that stands before it as the last of what was passed
over. -/
theorem not_isDigit_of_gap (h : front c cs = .gap n) :
    ∀ e ∈ (c :: cs.take n).getLast?, isWordChar e = true →
      ∀ d ∈ (cs.drop n).head?, d.isDigit = false := by
  intro e he hword d hd
  obtain ⟨rfl, rfl⟩ | ⟨ds, m, rfl, rfl, hm, rfl⟩ | ⟨hc, rfl⟩ := front_gap_cases h
  · rw [drop_lineRest cs d hd]
    rfl
  · obtain ⟨body, tail, rfl, rfl, -⟩ := commentRest_eq_some hm
    have htake : '/' :: ('*' :: (body ++ '*' :: '/' :: tail)).take (body.length + 2 + 1) =
        '/' :: '*' :: (body ++ ['*']) ++ ['/'] := by
      simp [List.take_append, List.take_of_length_le]
    rw [htake, List.getLast?_concat] at he
    cases he
    cases hword
  · obtain rfl : c = e := by simpa using he
    rw [not_isBlank_of_isWordChar hword] at hc
    cases hc

theorem not_isDigit_of_atWordEnd (h : atWordEnd cs = true) :
    ∀ d ∈ cs.head?, d.isDigit = false := by
  intro d hd
  rw [← Bool.not_eq_true]
  intro hdigit
  exact Bool.false_ne_true ((atWordEnd_iff.1 h d hd).symm.trans (isWordChar_of_isDigit hdigit))

theorem not_isDigit_of_token (h : front c cs = .token t n) :
    ∀ e ∈ (c :: cs.take n).getLast?, isWordChar e = true →
      ∀ d ∈ (cs.drop n).head?, d.isDigit = false := by
  intro e he hword
  cases tokenFront_of_front h with
  | string hc hstring =>
    rw [List.getLast?_cons, getLast?_of_stringRest hstring] at he
    cases he
    obtain rfl | rfl := hc <;> cases hword
  | number hdigit hnumber => exact not_isDigit_of_numberFront hdigit hnumber
  | word _ hfront =>
    have hend := atWordEnd_of_wordFront (c :: cs)
    rw [hfront, List.drop_succ_cons] at hend
    exact not_isDigit_of_atWordEnd hend
  | percent hc =>
    obtain rfl : c = e := by simpa using he
    rw [hc] at hword
    cases hword
  | @symbol y n hsymbol =>
    have hmem : e ∈ y.text.toList := by
      rw [show y.text.toList = c :: cs.take n from text_of_symbolFront hsymbol]
      exact List.mem_of_getLast? he
    rw [not_isWordChar_symbol y e hmem] at hword
    cases hword

/-! ## The cut before a fault -/

/-- No digit stands behind a slash in a unit. -/
theorem isChain_unit : ∀ u ∈ unitSpellings,
    u.toList.IsChain fun a b => a = '/' → b.isDigit = false := by
  decide

/-- How a unit goes on behind its beginning : with a letter, with a digit behind a word character,
or with a slash that opens no comment. -/
theorem unit_goes_on {u : String} (hu : u ∈ unitSpellings) {as bs : List Char} {d : Char}
    (h : u.toList = as ++ d :: bs) (hne : as ≠ []) :
    (isWordChar d = true ∧ (d.isDigit = true → ∃ e ∈ as.getLast?, isWordChar e = true)) ∨
      d = '/' ∧ ∃ d' bs', bs = d' :: bs' ∧ d' ≠ '*' := by
  have hpercent : u ≠ "%" := by
    rintro rfl
    have hlength := congrArg List.length h
    rw [List.length_append, List.length_cons] at hlength
    have hpos := List.length_pos_iff.2 hne
    have hone : "%".toList.length = 1 := rfl
    omega
  obtain ⟨⟨-, -, hchars⟩, -⟩ := (unitSpellings_shape u hu).resolve_left hpercent
  have hchain := isChain_unit u hu
  rw [h] at hchars hchain
  obtain hd | rfl := hchars d (by simp)
  · refine .inl ⟨hd, fun hdigit => ?_⟩
    obtain ⟨e, he⟩ := Option.isSome_iff_exists.1 (List.getLast?_isSome.2 hne)
    refine ⟨e, he, (hchars e (List.mem_append_left _ (List.mem_of_getLast? he))).resolve_right ?_⟩
    intro hslash
    have hno := (List.isChain_append.1 hchain).2.2 e he d rfl hslash
    rw [hno] at hdigit
    cases hdigit
  · cases bs with
    | nil => exact absurd (by simp [h]) (getLast?_unit_ne_slash u hu)
    | cons d' bs =>
      refine .inr ⟨rfl, d', bs, rfl, ?_⟩
      rintro rfl
      obtain hstar | hstar := hchars '*' (by simp) <;> cases hstar

/-- No word and no unit goes on into a front that is no token, if that is no number that touches
a word. -/
theorem breaks_of_fault {f : LexicalFault} (hf : front c rest = .fault f n)
    (hlast : ∀ e ∈ cs.getLast?, isWordChar e = true → c.isDigit = false) :
    Breaks cs (c :: rest) := by
  have hstart : isWordStart c = false := by
    rw [← Bool.not_eq_true]
    intro hstart
    rw [front_of_isWordChar (isWordChar_of_isWordStart hstart),
      not_isDigit_of_isWordStart hstart, if_neg Bool.false_ne_true, if_pos hstart] at hf
    cases hf
  have hdigit : isWordChar c = true → c.isDigit = true := by
    intro hword
    rw [isWordChar_iff] at hword
    rw [← Bool.not_eq_true, isWordStart_iff] at hstart
    rw [isDigit_iff]
    omega
  refine ⟨?word, ?unit⟩
  case word =>
    rintro e he _ ⟨⟩ hword
    rw [← Bool.not_eq_true]
    intro hc
    exact Bool.false_ne_true ((hlast e he hword).symm.trans (hdigit hc))
  case unit =>
    intro u hu as bs heq has hbs
    cases bs with
    | nil => exact .inr rfl
    | cons d bs =>
      obtain ⟨rfl, hrest⟩ := List.cons_prefix_cons.1 hbs
      refine .inl ?_
      by_contra hne
      obtain ⟨hword, hbefore⟩ | ⟨rfl, d', bs', rfl, hstar⟩ := unit_goes_on hu heq hne
      · obtain ⟨e, he, hword'⟩ := hbefore (hdigit hword)
        obtain ⟨before, rfl⟩ := has
        have hno := hlast e (by simp [List.getLast?_append, Option.mem_def.1 he]) hword'
        exact Bool.false_ne_true (hno.symm.trans (hdigit hword))
      · obtain ⟨tail, rfl⟩ := hrest
        have hclear : (Token.symbol .slash).Clear (d' :: (bs' ++ tail)) := by
          rintro _ ⟨⟩
          simpa [Token.clear] using hstar
        have hslash : front '/' (d' :: (bs' ++ tail)) = .token (.symbol .slash) 0 :=
          front_single rfl rfl (by decide) rfl hclear
        rw [List.cons_append, hslash] at hf
        cases hf

end Fronts

/-- No digit touches a word character that was passed over before it. -/
theorem Scans.not_isDigit {p : Place} {cs rest : List Char} {ts : List Located}
    (h : Scans p cs ts rest) :
    ∀ e ∈ cs.getLast?, isWordChar e = true → ∀ d ∈ rest.head?, d.isDigit = false := by
  have hlast : ∀ {c : Char} {word cs : List Char},
      (∀ e ∈ (c :: word).getLast?, isWordChar e = true →
        ∀ d ∈ (cs ++ rest).head?, d.isDigit = false) →
      (∀ e ∈ cs.getLast?, isWordChar e = true → ∀ d ∈ rest.head?, d.isDigit = false) →
      ∀ e ∈ (c :: (word ++ cs)).getLast?, isWordChar e = true →
        ∀ d ∈ rest.head?, d.isDigit = false := by
    intro c word cs hword hcs
    cases cs with
    | nil => simpa using hword
    | cons d cs =>
      intro e he
      rw [← List.cons_append, List.getLast?_append, List.getLast?_cons, Option.some_or,
        ← List.getLast?_cons] at he
      exact hcs e he
  induction h with
  | done => simp
  | @gap p c word cs r ts hfront _ ih =>
    refine hlast ?_ (ih hlast)
    simpa using not_isDigit_of_gap hfront
  | @token p c word cs r t ts hfront _ ih =>
    refine hlast ?_ (ih hlast)
    simpa using not_isDigit_of_token hfront

/-- What was passed over, up to a front that is no token, is passed over in the same way where
the text ends before it. -/
theorem Scans.cut {p : Place} {cs rest : List Char} {ts : List Located} {c : Char}
    {f : LexicalFault} {n : Nat} (h : Scans p cs ts (c :: rest)) (hf : front c rest = .fault f n) :
    Scans p cs ts [] := by
  generalize hr : c :: rest = r at h
  induction h with
  | done => exact .done
  | @gap p c' word cs r ts hfront _ ih =>
    subst hr
    have halone : front c' (word ++ cs) = .gap word.length :=
      front_gap_of_append (by rwa [List.append_assoc]) (by simp)
    exact .gap (by rwa [List.append_nil]) (ih rfl)
  | @token p c' word cs r t ts hfront h ih =>
    subst hr
    have hbreaks : Breaks (c' :: (word ++ cs)) (c :: rest) :=
      breaks_of_fault hf fun e he hword => (Scans.token hfront h).not_isDigit e he hword c rfl
    have halone : front c' (word ++ cs) = .token t word.length :=
      front_token_of_append (by rwa [List.append_assoc]) (by simp) hbreaks
    exact .token (by rwa [List.append_nil]) (ih rfl)

/-! ## Diagnostics of a text -/

/-- The diagnostic points at the first front of the text that is no token. -/
structure PointsAtFault (text : String) (d : Diagnostic) : Prop where
  kind : d.kind = .lexical
  /-- The fault takes characters, and is in the text. -/
  nonempty : d.span.start < d.span.stop
  inside : d.span.stop ≤ text.utf8ByteSize
  /-- Its span begins and stops at boundaries of characters, on the line and in the column that
  the text before it tells, and that text has tokens. -/
  placed : ∃ before word behind, Cut text d.span.start d.span.stop before word behind ∧
    d.span.line = 1 + before.toList.count '\n' ∧
    d.span.column = 1 + (before.toList.reverse.takeWhile (· != '\n')).length ∧
    ∃ ts, tokenize before = .ok ts

theorem Cut.stop_le {text before middle behind : String} {i j : Nat}
    (h : Cut text i j before middle behind) : j ≤ text.utf8ByteSize := by
  rw [← h.stop, h.parts, @String.utf8ByteSize_append (before ++ middle)]
  exact Nat.le_add_right _ _

theorem LexicalFault.span_diagnostic (f : LexicalFault) (s : Span) :
    (f.diagnostic s).span = s := by
  cases f <;> rfl

/-- A text that cannot be read is refused for its first fault, and the text before that fault
can be read. -/
theorem tokenize_fault {text : String} {d : Diagnostic} (h : tokenize text = .error d) :
    PointsAtFault text d := by
  obtain ⟨before, ts, c, rest, f, n, hparts, hscans, hf, rfl⟩ := exists_scans_of_error h
  have hsplit : text.toList = before ++ ((c :: rest.take n) ++ rest.drop n) := by
    rw [hparts, List.cons_append, List.take_append_drop]
  have hcut := cut_of_append hsplit
  have hspan := f.span_diagnostic
    ((Place.origin.after before).to ((Place.origin.after before).after (c :: rest.take n)))
  refine ⟨kind_of_tokensFrom_error h, ?nonempty, ?inside, ?placed⟩
  case nonempty =>
    rw [hspan, Place.to, Place.offset_after (Place.origin.after before)]
    exact Nat.lt_add_of_pos_right (utf8ByteSize_ofList_pos (List.cons_ne_nil _ _))
  case inside =>
    rw [hspan]
    exact hcut.stop_le
  case placed =>
    rw [hspan]
    refine ⟨_, _, _, hcut, ?_, ?_, ?_⟩
    · rw [Place.to, Place.origin_after, String.toList_ofList]
    · rw [Place.to, Place.origin_after, String.toList_ofList]
    · have hread := (hscans.cut hf).tokensFrom_append
      rw [List.append_nil, tokensFrom] at hread
      exact ⟨_, by rw [tokenize, String.toList_ofList, hread]; rfl⟩

/-- A comment that stays open, behind a character of more than one byte and a number that the
slash does not touch as a unit. -/
theorem tokenize_fault_comment :
    tokenize "\"\u00e9\"\n 5 m/* x" =
      .error (LexicalFault.openComment.diagnostic ⟨9, 13, 2, 5⟩) ∧
      PointsAtFault "\"\u00e9\"\n 5 m/* x" (LexicalFault.openComment.diagnostic ⟨9, 13, 2, 5⟩) := by
  have h : tokenize "\"\u00e9\"\n 5 m/* x" =
      .error (LexicalFault.openComment.diagnostic ⟨9, 13, 2, 5⟩) := by cbv
  exact ⟨h, tokenize_fault h⟩

end OpsLang
