import Mathlib
import OpsLang.Proofs.Appending.Text

/-!
# Tokens with other gaps between them

A token that stands in a text is read off its own word, whatever stands behind it, as long as
that begins with a blank or a comment (`readOff_of_front`). So the words of a text, cut out of it
and put together again with any gaps between them, are read as the same tokens
(`tokenize_gapped`), however close they stood : a gap is passed over whole
(`Gap.tokensFrom_append`), and no word sees more of it than that it begins.

What a word is read as depends on its kind. A string is read up to its closing quote, and every
other word is the text of its token (`text_of_front`).
-/

namespace OpsLang

/-! ## Words of their own -/

/-- The word is read as the token where nothing stands behind it, or a blank or a comment. -/
def Token.ReadOff (t : Token) (word : List Char) : Prop :=
  ∃ c cs, word = c :: cs ∧ ∀ rest, Parted rest → front c (cs ++ rest) = .token t cs.length

section Fronts

variable {c : Char} {cs : List Char} {t : Token} {n : Nat}

theorem text_of_numberOfLength {k : Nat} (h : numberOfLength cs k = .token t n) :
    t.text.toList = cs.take k := by
  unfold numberOfLength at h
  split at h
  · cases h
    exact String.toList_ofList
  · split at h
    · cases h
    · cases h
      exact String.toList_ofList

theorem text_of_numberFront (hc : c.isDigit = true)
    (h : numberFront (c :: cs) = .token t n) : t.text.toList = c :: cs.take n :=
  text_of_numberOfLength (numberOfLength_of_numberFront hc h).2

theorem text_of_wordFront (h : wordFront cs = (t, n)) : t.text.toList = cs.take n := by
  have hword : cs.take (String.ofList (cs.takeWhile isWordChar)).length =
      cs.takeWhile isWordChar := by
    rw [String.length_ofList, take_length_takeWhile]
  unfold wordFront at h
  dsimp only at h
  split at h
  · next k hk =>
    cases h
    rw [hword, Token.text, Keyword.text_of_ofText? hk, String.toList_ofList]
  split at h
  · next ht =>
    cases h
    rw [hword, ← String.toList_ofList (l := cs.takeWhile isWordChar), ht]
    rfl
  split at h
  · next hf =>
    cases h
    rw [hword, ← String.toList_ofList (l := cs.takeWhile isWordChar), hf]
    rfl
  split at h
  · next u hu =>
    split at h
    · cases h
      obtain ⟨rest, rfl, -⟩ := unitAtFront_iff.1 (longestUnit_eq_some hu).1.2
      rw [← String.length_toList, List.take_left]
      rfl
    · cases h
      rw [hword]
      exact String.toList_ofList
  · cases h
    rw [hword]
    exact String.toList_ofList

theorem text_of_pairSymbol? {d : Char} {y : Symbol} (h : pairSymbol? c d = some y) :
    y.text.toList = [c, d] := by
  unfold pairSymbol? at h
  split at h <;> cases h <;> rfl

theorem text_of_singleSymbol? {y : Symbol} (h : singleSymbol? c = some y) :
    y.text.toList = [c] := by
  unfold singleSymbol? at h
  split at h <;> cases h <;> rfl

theorem text_of_symbolFront (h : symbolFront c cs = .token t n) :
    t.text.toList = c :: cs.take n := by
  unfold symbolFront at h
  split at h
  · next y hy =>
    cases h
    cases cs with
    | nil => cases hy
    | cons d cs => exact text_of_pairSymbol? hy
  · split at h
    · next y hy =>
      cases h
      exact text_of_singleSymbol? hy
    · cases h

theorem Token.clear_nil (t : Token) : t.Clear [] := by
  rintro c ⟨⟩

/-- What is read as a token without quotes is its text. -/
theorem text_of_front (h : front c cs = .token t n) (hq : ¬(c = '"' ∨ c = '\'')) :
    t.text.toList = c :: cs.take n := by
  cases tokenFront_of_front h with
  | string hc => exact (hq hc).elim
  | number hdigit hnumber => exact text_of_numberFront hdigit hnumber
  | word _ hword => exact text_of_wordFront hword
  | percent hc =>
    rw [hc]
    rfl
  | symbol hsymbol => exact text_of_symbolFront hsymbol

/-! ### Words before a gap -/

/-- What begins with a letter or `_` is read in the same way before a blank or a comment. -/
theorem front_append_parted (hc : isWordStart c = true) (cs : List Char) {rest : List Char}
    (hrest : Parted rest) : front c (cs ++ rest) = front c cs := by
  have hword := wordFront_append_parted (c :: cs) hrest
  rw [List.cons_append] at hword
  simp [front_of_isWordChar (isWordChar_of_isWordStart hc), not_isDigit_of_isWordStart hc, hc,
    hword]

theorem front_percent (cs : List Char) : front '%' cs = .token (.unit "%") 0 := by
  have hblank : isBlank '%' = false := rfl
  have hdigit : '%'.isDigit = false := rfl
  have hstart : isWordStart '%' = false := rfl
  simp [front, hblank, hdigit, hstart]

theorem Parted.ne_sign {rest : List Char} (h : Parted rest) :
    ∀ d ∈ rest.head?, d ≠ '.' ∧ d ≠ '*' ∧ d ≠ '=' ∧ d ≠ '>' := by
  intro d hd
  refine ⟨?_, ?_, ?_, ?_⟩ <;>
  · rintro rfl
    obtain hblank | hd | ⟨hd, -⟩ := h _ hd <;> contradiction

/-- A token that is no word does not go on into a blank or a comment. -/
theorem Parted.clear {rest : List Char} (h : Parted rest) (ht : t.Written)
    (hstart : ∀ d ∈ t.text.toList.head?, isWordStart d = false ∧ d ≠ '%') : t.Clear rest := by
  have hnone : ∀ {word : String}, t.text = word → word.toList ≠ [] →
      (∀ d ∈ word.toList.head?, isWordStart d = true) → t.Clear rest := by
    rintro word rfl hne hall
    obtain ⟨d, ds, hd⟩ := List.exists_cons_of_ne_nil hne
    rw [hd] at hall hstart
    exact (Bool.eq_false_iff.1 (hstart d rfl).1 (hall d rfl)).elim
  cases t with
  | keyword k => exact hnone rfl (keyword_text_shape k).1 (keyword_text_shape k).2.1
  | name x => exact hnone rfl ht.ne_nil ht.start
  | truth b => exact hnone rfl (truthText_shape b).1 (truthText_shape b).2.1
  | unit u =>
    obtain rfl | ⟨⟨hall, hne, -⟩, -⟩ := unitSpellings_shape u ht
    · exact ((hstart '%' rfl).2 rfl).elim
    · exact hnone rfl hne hall
  | number x =>
    intro d hd
    simp [Token.clear, h.not_isWordChar d hd, (h.ne_sign d hd).1]
  | string x => exact fun d hd => rfl
  | symbol y =>
    intro d hd
    obtain ⟨-, hstar, hequal, hgreater⟩ := h.ne_sign d hd
    cases y <;> simp [Token.clear, hstar, hequal, hgreater]
  | eof => exact ht.elim

/-- The text of a token is read as that token before a blank or a comment. -/
theorem readOff_text (ht : t.Written) : t.ReadOff t.text.toList := by
  obtain ⟨c, cs, htext, hfront⟩ := front_text ht t.clear_nil
  rw [List.append_nil] at hfront
  refine ⟨c, cs, htext, fun rest hrest => ?_⟩
  by_cases hstart : isWordStart c = true
  · rw [front_append_parted hstart cs hrest, hfront]
  by_cases hpercent : c = '%'
  · subst hpercent
    rw [front_percent, ← hfront, front_percent]
  · have hclear : t.Clear rest := by
      refine hrest.clear ht fun d hd => ?_
      rw [htext] at hd
      cases hd
      exact ⟨Bool.eq_false_iff.2 hstart, hpercent⟩
    obtain ⟨c', cs', htext', hfront'⟩ := front_text ht hclear
    obtain ⟨rfl, rfl⟩ := List.cons.inj (htext.symm.trans htext')
    exact hfront'

/-- A string is read up to its closing quote, and sees nothing behind it. -/
theorem stringRest_take {q : Char} {content : List Char}
    (h : stringRest q cs = .closed content n) : stringRest q (cs.take n) = .closed content n := by
  fun_induction stringRest q cs generalizing content n with
  | case1 => cases h
  | case2 cs => cases h
  | case3 cs hq =>
    cases h
    rw [List.take_succ_cons, stringRest.eq_def]
    simp [hq]
  | case4 => cases h
  | case5 d ds hn hq ih =>
    obtain ⟨content', m, hr, rfl, rfl⟩ := StringRest.push_eq_closed h
    rw [Nat.add_comm 2, List.take_succ_cons, List.take_succ_cons, stringRest.eq_def]
    simp [hq, ih hr, StringRest.push, Nat.add_comm]
  | case6 d ds hn hq hb ih =>
    obtain ⟨content', m, hr, rfl, rfl⟩ := StringRest.push_eq_closed h
    rw [Nat.add_comm 1, List.take_succ_cons, stringRest.eq_def]
    simp [hn, hq, hb, ih hr, StringRest.push, Nat.add_comm]

theorem front_quote {q : Char} (hq : q = '"' ∨ q = '\'') (cs : List Char) :
    front q cs =
      match stringRest q cs with
      | .closed content n => .token (.string (String.ofList content)) n
      | .broken f n => .fault f n := by
  have hhash : q ≠ '#' := by
    rintro rfl
    simp at hq
  have hslash : q ≠ '/' := by
    rintro rfl
    simp at hq
  have hblank : ¬isBlank q = true := by
    obtain rfl | rfl := hq <;> decide
  cases h : stringRest q cs <;> simp [front, hhash, hslash, hblank, hq, h]

/-- What is read as a token is read as it before any blank or comment. -/
theorem readOff_of_front (h : front c cs = .token t n) : t.ReadOff (c :: cs.take n) := by
  by_cases hq : c = '"' ∨ c = '\''
  · have hle := front_le (.inr ⟨t, h⟩)
    rw [front_quote hq] at h
    split at h
    · next content m hstring =>
      cases h
      refine ⟨c, cs.take n, rfl, fun rest _ => ?_⟩
      rw [front_quote hq, (stringRest_append (stringRest_take hstring) rest).1,
        List.length_take_of_le hle]
    · cases h
  · rw [← text_of_front h hq]
    exact readOff_text (written_of_front h)

end Fronts

/-! ## Words of a text -/

/-- The part of a text that a stretch covers. -/
def Span.slice (s : Span) (text : String) : String :=
  String.Pos.Raw.extract text ⟨s.start⟩ ⟨s.stop⟩

theorem Span.slice_eq {text : String} {before word behind : List Char}
    (h : text.toList = before ++ (word ++ behind)) :
    ((Place.origin.after before).to ((Place.origin.after before).after word)).slice text =
      String.ofList word := by
  have hslice := String.extract_of_valid before word behind
  rw [← String.utf8ByteSize_ofList, ← String.utf8ByteSize_ofList, List.append_assoc, ← h,
    String.ofList_toList] at hslice
  rw [slice, Place.to, Place.offset_after (Place.origin.after before), Place.origin_after]
  exact hslice

/-- The token is read at the front of a part of the text, which begins at `p`, and its stretch is
what it takes of it. -/
def Located.FrontIn (u : Located) (p : Place) (cs : List Char) : Prop :=
  ∃ before c word behind, cs = before ++ (c :: word ++ behind) ∧
    u.span = (p.after before).to ((p.after before).after (c :: word)) ∧
      front c (word ++ behind) = .token u.token word.length

theorem Located.FrontIn.behind {u : Located} {p : Place} {g cs : List Char}
    (h : u.FrontIn (p.after g) cs) : u.FrontIn p (g ++ cs) := by
  obtain ⟨before, c, word, behind, rfl, hspan, hfront⟩ := h
  refine ⟨g ++ before, c, word, behind, by simp, ?_, hfront⟩
  rw [hspan, Place.after_append]

/-- Every token of a text but its end is read at the front of a part of it. -/
theorem tokensFrom_frontIn {p : Place} {cs : List Char} {ts : List Located}
    (h : tokensFrom p cs = .ok ts) :
    ∃ (us : List Located) (e : Located), ts = us ++ [e] ∧ e.token = .eof ∧
      e.span.stop = e.span.start ∧ ∀ u ∈ us, u.FrontIn p cs := by
  have hsplit : ∀ c (cs : List Char) n, c :: cs = (c :: cs.take n) ++ cs.drop n := by
    intro c cs n
    rw [List.cons_append, List.take_append_drop]
  fun_induction tokensFrom p cs generalizing ts with
  | case1 =>
    cases h
    exact ⟨[], _, rfl, rfl, rfl, by simp⟩
  | case2 p c cs n hgap ih =>
    obtain ⟨us, e, rfl, he, hempty, hus⟩ := ih h
    refine ⟨us, e, rfl, he, hempty, fun u hu => ?_⟩
    rw [hsplit c cs n]
    exact Located.FrontIn.behind (hus u hu)
  | case3 p c cs t n htoken q =>
    next ih =>
    obtain ⟨ts', hts', rfl⟩ := Except.map_eq_ok.1 h
    obtain ⟨us, e, rfl, he, hempty, hus⟩ := ih hts'
    rw [hsplit c cs n]
    refine ⟨_ :: us, e, rfl, he, hempty, List.forall_mem_cons.2 ⟨?first, fun u hu => ?others⟩⟩
    case first =>
      refine ⟨[], c, cs.take n, cs.drop n, rfl, rfl, ?_⟩
      rw [List.take_append_drop, List.length_take_of_le (front_le (.inr ⟨t, htoken⟩))]
      exact htoken
    case others => exact Located.FrontIn.behind (hus u hu)
  | case4 => cases h

/-- The token is read off a word of the text, which begins at `p`, and its stretch is where the
word stands. -/
def Located.StandsIn (u : Located) (p : Place) (cs : List Char) : Prop :=
  ∃ before word behind, cs = before ++ (word ++ behind) ∧
    u.span = (p.after before).to ((p.after before).after word) ∧ u.token.ReadOff word

theorem Located.FrontIn.standsIn {u : Located} {p : Place} {cs : List Char}
    (h : u.FrontIn p cs) : u.StandsIn p cs := by
  obtain ⟨before, c, word, behind, hcs, hspan, hfront⟩ := h
  refine ⟨before, c :: word, behind, hcs, hspan, ?_⟩
  have hread := readOff_of_front hfront
  rwa [List.take_left] at hread

/-- Every token of a text but its end stands in the text. -/
theorem tokensFrom_standsIn {p : Place} {cs : List Char} {ts : List Located}
    (h : tokensFrom p cs = .ok ts) :
    ∃ (us : List Located) (e : Located), ts = us ++ [e] ∧ e.token = .eof ∧
      ∀ u ∈ us, u.StandsIn p cs := by
  obtain ⟨us, e, rfl, he, -, hus⟩ := tokensFrom_frontIn h
  exact ⟨us, e, rfl, he, fun u hu => (hus u hu).standsIn⟩

/-! ## Gaps -/

/-- The first `*/` behind an opened comment closes it. -/
theorem commentRest_body {body : List Char} (h : ¬['*', '/'] <:+: body) (rest : List Char) :
    commentRest (body ++ '*' :: '/' :: rest) = some (body.length + 2) := by
  induction body with
  | nil => simp [commentRest]
  | cons c body ih =>
    have hbody : ¬['*', '/'] <:+: body := fun hin => h (hin.trans (List.suffix_cons c body).isInfix)
    have hopen : ∀ d ds, body ++ '*' :: '/' :: rest = d :: ds → ¬(c = '*' ∧ d = '/') := by
      rintro d ds hds ⟨rfl, rfl⟩
      cases body with
      | nil => cases hds
      | cons d' body =>
        obtain ⟨rfl, -⟩ := List.cons.inj hds
        exact h ⟨[], body, rfl⟩
    obtain ⟨d, ds, hds⟩ : ∃ d ds, body ++ '*' :: '/' :: rest = d :: ds := by
      cases body <;> exact ⟨_, _, rfl⟩
    rw [List.cons_append, hds, commentRest, if_neg (hopen d ds hds), ← hds, ih hbody]
    simp

theorem lineRest_body {body rest : List Char} (h : '\n' ∉ body)
    (hrest : ∀ c ∈ rest.head?, c = '\n') : lineRest (body ++ rest) = body.length := by
  have hend : ∀ c ∈ rest.head?, (c != '\n') = false := fun c hc => by simp [hrest c hc]
  have hbody : ∀ c ∈ body, (c != '\n') = true := by
    intro c hc
    rw [bne_iff_ne]
    rintro rfl
    exact h hc
  rw [lineRest, takeWhile_append_of_head hend, List.takeWhile_eq_self_iff.2 hbody]

/-- A gap is passed over whole. -/
theorem Gap.tokensFrom_append {g rest : List Char} (h : Gap g rest) (p : Place) :
    tokensFrom p (g ++ rest) = tokensFrom (p.after g) rest := by
  induction h generalizing p with
  | nil => rfl
  | @blank c cs rest hc _ ih =>
    have hhash : c ≠ '#' := by
      rintro rfl
      cases hc
    have hslash : c ≠ '/' := by
      rintro rfl
      cases hc
    rw [List.cons_append, tokensFrom_blank hc hhash hslash, ih, Place.after_cons]
  | @line body cs rest hbody hnext _ ih =>
    have hfront : front '#' (body ++ (cs ++ rest)) = .gap body.length := by
      rw [front, if_pos rfl, lineRest_body hbody hnext]
    rw [List.cons_append, List.append_assoc, tokensFrom, hfront]
    simp only [List.take_left, List.drop_left]
    rw [ih, Place.after_cons, Place.after_append]
  | @block body cs rest hbody _ ih =>
    have hclose : body ++ '*' :: '/' :: cs ++ rest = body ++ ['*', '/'] ++ (cs ++ rest) := by simp
    have hlength : body.length + 2 = (body ++ ['*', '/']).length := by simp
    have hfront : front '/' ('*' :: (body ++ ['*', '/'] ++ (cs ++ rest))) =
        .gap (('*' :: (body ++ ['*', '/'])).length) := by
      have hcomment := commentRest_body hbody (cs ++ rest)
      rw [hlength] at hcomment
      simp [front, hcomment]
    rw [List.cons_append, List.cons_append, hclose, tokensFrom, hfront]
    simp only [← List.cons_append, List.take_left, List.drop_left]
    rw [ih, List.cons_append, List.cons_append, Place.after_cons, Place.after_cons,
      ← Place.after_append]
    simp

/-- What begins with a gap is a gap, or begins with a blank or a comment. -/
theorem Gap.parted {g rest : List Char} (h : Gap g rest) (hg : g ≠ []) : Parted (g ++ rest) := by
  intro c hc
  cases h with
  | nil => exact (hg rfl).elim
  | blank hblank =>
    cases hc
    exact .inl hblank
  | line =>
    cases hc
    exact .inr (.inl rfl)
  | block =>
    cases hc
    exact .inr (.inr ⟨rfl, rfl⟩)

/-- The text is blank space and complete comments, whatever stands behind it, and not empty. -/
structure Separates (g : String) : Prop where
  ne_empty : g ≠ ""
  gap : ∀ rest, Gap g.toList rest

/-! ## Words put together again -/

/-- The words with a gap before each but the first. -/
def gapped : List String → List String → String
  | w :: ws, gs => w ++ String.join (List.zipWith (· ++ ·) gs ws)
  | [], _ => ""

theorem Token.ReadOff.tokensFrom_append {t : Token} {word rest : List Char} (h : t.ReadOff word)
    (hrest : Parted rest) (p : Place) : tokensFrom p (word ++ rest) =
      (tokensFrom (p.after word) rest).map (⟨t, p.to (p.after word)⟩ :: ·) := by
  obtain ⟨c, cs, rfl, hfront⟩ := h
  rw [List.cons_append, tokensFrom, hfront rest hrest]
  simp

theorem parted_gapped {gs ws : List String} (hgs : ∀ g ∈ gs, Separates g) :
    Parted (String.join (List.zipWith (· ++ ·) gs ws)).toList := by
  cases gs with
  | nil => simp [Parted]
  | cons g gs =>
    cases ws with
    | nil => simp [Parted]
    | cons w ws =>
      have hg := hgs g List.mem_cons_self
      rw [List.zipWith_cons_cons, String.join_cons, String.append_assoc, String.toList_append]
      exact (hg.gap _).parted fun h => hg.ne_empty (String.toList_eq_nil_iff.1 h)

/-- Words with gaps before them are read as their tokens and the end of the text. -/
theorem tokensFrom_gapped {us : List Located} {ws : List String}
    (h : List.Forall₂ (fun u w => u.token.ReadOff w.toList) us ws) :
    ∀ {gs : List String}, gs.length = ws.length → (∀ g ∈ gs, Separates g) → ∀ p, ∃ vs,
      tokensFrom p (String.join (List.zipWith (· ++ ·) gs ws)).toList = .ok vs ∧
        words vs = words us ++ [Token.eof] := by
  induction h with
  | nil =>
    intro gs hlen _ p
    obtain rfl := List.eq_nil_of_length_eq_zero hlen
    exact ⟨_, tokensFrom.eq_1 p, rfl⟩
  | @cons u w us ws hu _ ih =>
    intro gs hlen hgs p
    cases gs with
    | nil => cases hlen
    | cons g gs =>
      obtain ⟨hg, hgs⟩ := List.forall_mem_cons.1 hgs
      have hgs' : Parted (String.join (List.zipWith (· ++ ·) gs ws)).toList :=
        parted_gapped hgs
      obtain ⟨vs, hvs, hwords⟩ := ih (Nat.succ.inj hlen) hgs ((p.after g.toList).after w.toList)
      rw [List.zipWith_cons_cons, String.join_cons, String.append_assoc, String.toList_append,
        String.toList_append, (hg.gap _).tokensFrom_append, hu.tokensFrom_append hgs', hvs]
      exact ⟨_, rfl, by rw [words_cons, hwords]; rfl⟩

/-- The words of the tokens of a text, put together again with any gaps between them, are read
as the same tokens. -/
theorem tokenize_gapped {text : String} {ts : List Located} (h : tokenize text = .ok ts) :
    ∃ us e, ts = us ++ [e] ∧ e.token = .eof ∧
      ∀ gs : List String, gs.length = us.length - 1 → (∀ g ∈ gs, Separates g) →
        ∃ vs, tokenize (gapped (us.map (·.span.slice text)) gs) = .ok vs ∧ words vs = words ts := by
  obtain ⟨us, e, rfl, he, hus⟩ := tokensFrom_standsIn h
  refine ⟨us, e, rfl, he, fun gs hlen hgs => ?_⟩
  have hread : List.Forall₂ (fun u w => u.token.ReadOff w.toList) us
      (us.map (·.span.slice text)) := by
    rw [List.forall₂_map_right_iff, List.forall₂_same]
    intro u hu
    obtain ⟨before, word, behind, htext, hspan, hword⟩ := hus u hu
    rw [hspan, Span.slice_eq htext, String.toList_ofList]
    exact hword
  cases us with
  | nil => exact ⟨_, tokensFrom.eq_1 _, by simp [words, he]⟩
  | cons u us =>
    rw [List.map_cons, List.forall₂_cons] at hread
    obtain ⟨hu, hus⟩ := hread
    obtain ⟨vs, hvs, hwords⟩ := tokensFrom_gapped hus (by simpa using hlen) hgs
      (Place.origin.after (u.span.slice text).toList)
    rw [List.map_cons, gapped, tokenize, String.toList_append,
      hu.tokensFrom_append (parted_gapped hgs), hvs]
    exact ⟨_, rfl, by simp [words_append, words_cons, hwords, he]⟩

/-- A unit that touches a slash, with two comments and a blank between the words. -/
theorem tokenize_gapped_unit :
    ∃ ts us e, tokenize "5 deg/s2/2" = .ok ts ∧ ts = us ++ [e] ∧ e.token = .eof ∧
      ["/* s */", "# 2\n", " "].length = us.length - 1 ∧
      (∀ g ∈ ["/* s */", "# 2\n", " "], Separates g) ∧
      ∃ vs, tokenize (gapped (us.map (·.span.slice "5 deg/s2/2")) ["/* s */", "# 2\n", " "]) =
        .ok vs ∧ words vs = words ts := by
  have hts : tokenize "5 deg/s2/2" = .ok
      [⟨.number "5", ⟨0, 1, 1, 1⟩⟩, ⟨.unit "deg/s2", ⟨2, 8, 1, 3⟩⟩, ⟨.symbol .slash, ⟨8, 9, 1, 9⟩⟩,
        ⟨.number "2", ⟨9, 10, 1, 10⟩⟩, ⟨.eof, ⟨10, 10, 1, 11⟩⟩] := by cbv
  have hblock : Separates "/* s */" := ⟨by decide, fun rest => by
    have hlist : "/* s */".toList = '/' :: '*' :: ([' ', 's', ' '] ++ '*' :: '/' :: []) := by
      decide
    rw [hlist]
    exact .block (by decide) .nil⟩
  have hline : Separates "# 2\n" := ⟨by decide, fun rest => by
    have hlist : "# 2\n".toList = '#' :: ([' ', '2'] ++ ['\n']) := by decide
    rw [hlist]
    exact .line (by decide) (by simp) (.blank rfl .nil)⟩
  have hblank : Separates " " := ⟨by decide, fun rest => .blank rfl .nil⟩
  have hgs : ∀ g ∈ ["/* s */", "# 2\n", " "], Separates g := by
    simp [hblock, hline, hblank]
  obtain ⟨us, e, heq, he, hread⟩ := tokenize_gapped hts
  have hlen : ["/* s */", "# 2\n", " "].length = us.length - 1 := by
    have := congrArg List.length heq
    simp only [List.length_append, List.length_cons, List.length_nil] at this ⊢
    omega
  exact ⟨_, us, e, hts, heq, he, hlen, hgs, hread _ hlen hgs⟩

end OpsLang
