import Mathlib
import OpsLang.Proofs.Scanning

/-!
# Tokens tile their text

The tokens of a text are laid out in it one behind another, with gaps of blank space and
complete comments between them. `Gap` says what a gap is, and `Laid p cs ts` that the tokens
`ts` are laid out in the text `cs`, which begins at `p`. Reading a text lays out its tokens
(`tokensFrom_laid`), whatever the front of the text is taken for.

What a place behind some text is does not depend on how the text was passed over
(`Place.origin_after`), so the spans of a layout can be told from the text alone. This gives
`tokenize_tiles` : the order of the spans, the gaps between them, and the line and the column
of each.
-/

namespace OpsLang

/-! ## Places -/

/-- The place behind a text : the number of its bytes, its line feeds, and its characters
behind the last of these. -/
theorem Place.origin_after (cs : List Char) :
    Place.origin.after cs =
      ⟨(String.ofList cs).utf8ByteSize, 1 + cs.count '\n',
        1 + (cs.reverse.takeWhile (· != '\n')).length⟩ := by
  induction cs using List.reverseRecOn with
  | nil => rfl
  | append_singleton cs c ih =>
    rw [after_append, ih, after_cons, after_nil, step]
    by_cases hc : c = '\n'
    · subst hc
      simp [String.ofList_append, Nat.add_assoc]
      rfl
    · simp [hc, String.ofList_append, Nat.add_comm]

/-- The bytes are counted from any place as from the origin. -/
theorem Place.offset_after (p : Place) (cs : List Char) :
    (p.after cs).offset = p.offset + (String.ofList cs).utf8ByteSize := by
  induction cs generalizing p with
  | nil => rfl
  | cons c cs ih =>
    have hstep : (p.step c).offset = p.offset + c.utf8Size := by
      unfold step
      split <;> rfl
    rw [after_cons, ih, hstep, String.ofList_cons, String.utf8ByteSize_append,
      String.utf8ByteSize_singleton, Nat.add_assoc]

/-- Lines are counted up only. -/
theorem Place.line_le_after (p : Place) (cs : List Char) : p.line ≤ (p.after cs).line := by
  induction cs generalizing p with
  | nil => exact Nat.le_refl _
  | cons c cs ih =>
    have hstep : p.line ≤ (p.step c).line := by
      unfold step
      split <;> simp
    rw [after_cons]
    exact hstep.trans (ih _)

theorem utf8ByteSize_ofList_pos {cs : List Char} (h : cs ≠ []) :
    0 < (String.ofList cs).utf8ByteSize := by
  obtain ⟨c, cs, rfl⟩ := List.exists_cons_of_ne_nil h
  rw [String.ofList_cons, String.utf8ByteSize_append, String.utf8ByteSize_singleton]
  exact Nat.lt_of_lt_of_le c.utf8Size_pos (Nat.le_add_right _ _)

/-! ## Gaps -/

/-- The text is blank space and complete comments, where `rest` stands behind it. A comment
that begins with `#` goes up to a line feed or the end of the text. -/
inductive Gap : List Char → List Char → Prop
  | nil {rest : List Char} : Gap [] rest
  | blank {c : Char} {cs rest : List Char} (hc : isBlank c = true) (h : Gap cs rest) :
      Gap (c :: cs) rest
  | line {body cs rest : List Char} (hbody : '\n' ∉ body)
      (hnext : ∀ c ∈ (cs ++ rest).head?, c = '\n') (h : Gap cs rest) :
      Gap ('#' :: (body ++ cs)) rest
  | block {body cs rest : List Char} (hbody : ¬['*', '/'] <:+: body) (h : Gap cs rest) :
      Gap ('/' :: '*' :: (body ++ '*' :: '/' :: cs)) rest

theorem drop_lineRest (cs : List Char) : ∀ c ∈ (cs.drop (lineRest cs)).head?, c = '\n' := by
  induction cs with
  | nil => simp [lineRest]
  | cons d cs ih =>
    by_cases hd : d = '\n'
    · simp [lineRest, hd]
    · have hcons : lineRest (d :: cs) = lineRest cs + 1 := by
        simp [lineRest, hd]
      rwa [hcons, List.drop_succ_cons]

theorem newline_notMem_take_lineRest (cs : List Char) : '\n' ∉ cs.take (lineRest cs) := by
  rw [lineRest, take_length_takeWhile]
  intro hmem
  simpa using List.mem_takeWhile_imp hmem

/-- What is passed over for a comment is its body, without `*/`, and `*/`. -/
theorem commentRest_eq_some {cs : List Char} {n : Nat} (h : commentRest cs = some n) :
    ∃ body rest, cs = body ++ '*' :: '/' :: rest ∧ n = body.length + 2 ∧
      ¬['*', '/'] <:+: body := by
  fun_induction commentRest cs generalizing n with
  | case1 => cases h
  | case2 => cases h
  | case3 c d cs hclose =>
    obtain ⟨rfl, rfl⟩ := hclose
    exact ⟨[], cs, rfl, (Option.some.inj h).symm, by simp⟩
  | case4 c d cs hopen ih =>
    obtain ⟨m, hm, rfl⟩ := Option.map_eq_some_iff.1 h
    obtain ⟨body, rest, hcs, rfl, hbody⟩ := ih hm
    refine ⟨c :: body, rest, by rw [hcs, List.cons_append], by simp, fun hin => ?_⟩
    rw [List.infix_cons_iff] at hin
    obtain hin | hin := hin
    · obtain ⟨hc, hin⟩ := List.cons_prefix_cons.1 hin
      cases body with
      | nil => simp at hin
      | cons e body =>
        obtain ⟨he, -⟩ := List.cons_prefix_cons.1 hin
        exact hopen ⟨hc.symm, (List.cons.inj hcs).1.trans he.symm⟩
    · exact hbody hin

/-- What is passed over is a comment or one blank character. -/
theorem front_gap_cases {c : Char} {cs : List Char} {n : Nat} (h : front c cs = .gap n) :
    (c = '#' ∧ n = lineRest cs) ∨
      (∃ ds m, c = '/' ∧ cs = '*' :: ds ∧ commentRest ds = some m ∧ n = m + 1) ∨
      isBlank c = true ∧ n = 0 := by
  have hnumber : ∀ {ds k}, numberOfLength ds k ≠ .gap n := by
    intro ds k h
    unfold numberOfLength at h
    split at h
    · cases h
    · split at h <;> cases h
  unfold front at h
  split at h
  · next hc => exact .inl ⟨hc, (Front.gap.inj h).symm⟩
  split at h
  · next hc =>
    obtain ⟨ds, rfl⟩ := List.head?_eq_some_iff.1 hc.2
    split at h
    · next m hm => exact .inr (.inl ⟨ds, m, hc.1, rfl, hm, (Front.gap.inj h).symm⟩)
    · cases h
  split at h
  · next hblank => exact .inr (.inr ⟨hblank, (Front.gap.inj h).symm⟩)
  split at h
  · split at h <;> cases h
  split at h
  · unfold numberFront at h
    split at h
    · split at h
      · dsimp only at h
        split at h
        · cases h
        · exact (hnumber h).elim
      · exact (hnumber h).elim
    · exact (hnumber h).elim
  split at h
  · cases h
  split at h
  · cases h
  · unfold symbolFront at h
    split at h
    · cases h
    · split at h <;> cases h

/-- What is passed over makes the gap behind it longer. -/
theorem Gap.of_front {c : Char} {cs gap rest : List Char} {n : Nat} (h : front c cs = .gap n)
    (hcs : cs.drop n = gap ++ rest) (hgap : Gap gap rest) :
    Gap (c :: (cs.take n ++ gap)) rest := by
  obtain ⟨rfl, rfl⟩ | ⟨ds, m, rfl, rfl, hm, rfl⟩ | ⟨hc, rfl⟩ := front_gap_cases h
  · refine .line (newline_notMem_take_lineRest cs) ?_ hgap
    rw [← hcs]
    exact drop_lineRest cs
  · obtain ⟨body, tail, rfl, rfl, hbody⟩ := commentRest_eq_some hm
    have htake : ('*' :: (body ++ '*' :: '/' :: tail)).take (body.length + 2 + 1) ++ gap =
        '*' :: (body ++ '*' :: '/' :: gap) := by
      simp [List.take_append, List.take_of_length_le]
    rw [htake]
    exact .block hbody hgap
  · exact .blank hc hgap

/-! ## Layouts -/

/-- The tokens stand in the text, which begins at `p`, one behind another and with gaps before
them. -/
inductive Laid : Place → List Char → List Located → Prop
  | done {p : Place} {gap : List Char} (hgap : Gap gap []) :
      Laid p gap [⟨.eof, (p.after gap).to (p.after gap)⟩]
  | token {p : Place} {gap word rest : List Char} {t : Token} {ts : List Located}
      (hgap : Gap gap (word ++ rest)) (hword : word ≠ []) (ht : t ≠ .eof)
      (h : Laid ((p.after gap).after word) rest ts) :
      Laid p (gap ++ (word ++ rest)) (⟨t, (p.after gap).to ((p.after gap).after word)⟩ :: ts)

/-- What makes every gap that stands behind it longer can stand before a layout. -/
theorem Laid.behind {p q : Place} {g cs : List Char} {ts : List Located} (h : Laid q cs ts)
    (hq : p.after g = q)
    (hg : ∀ gap rest, cs = gap ++ rest → Gap gap rest → Gap (g ++ gap) rest) :
    Laid p (g ++ cs) ts := by
  cases h with
  | done hgap =>
    subst hq
    rw [← Place.after_append]
    exact .done (hg _ _ (List.append_nil _).symm hgap)
  | @token _ gap _ _ _ _ hgap hword ht hl =>
    subst hq
    rw [← Place.after_append p g gap] at hl ⊢
    rw [← List.append_assoc]
    exact .token (hg _ _ rfl hgap) hword ht hl

/-- Reading a text lays out its tokens. -/
theorem tokensFrom_laid {p : Place} {cs : List Char} {ts : List Located}
    (h : tokensFrom p cs = .ok ts) : Laid p cs ts := by
  have hsplit : ∀ c (cs : List Char) n, c :: cs = (c :: cs.take n) ++ cs.drop n := by
    intro c cs n
    rw [List.cons_append, List.take_append_drop]
  fun_induction tokensFrom p cs generalizing ts with
  | case1 =>
    cases h
    exact .done .nil
  | case2 p c cs n hgap ih =>
    rw [hsplit c cs n]
    exact (ih h).behind rfl fun gap rest hcs hg => hg.of_front hgap hcs
  | case3 p c cs t n htoken q =>
    next ih =>
    obtain ⟨ts', hts', rfl⟩ := Except.map_eq_ok.1 h
    rw [hsplit c cs n, ← List.nil_append (_ ++ _)]
    exact .token .nil (List.cons_ne_nil _ _) (written_of_front htoken).ne_eof (ih hts')
  | case4 => cases h

namespace Laid

variable {p : Place} {cs : List Char} {ts : List Located}

/-- Each token stands on a stretch of the text. -/
theorem exists_stretch (h : Laid p cs ts) : ∀ t ∈ ts, ∃ before word behind,
    cs = before ++ (word ++ behind) ∧
      t.span = (p.after before).to ((p.after before).after word) := by
  induction h with
  | @done p gap hgap =>
    intro t ht
    obtain rfl := List.mem_singleton.1 ht
    exact ⟨gap, [], [], by simp, rfl⟩
  | @token p gap word rest t ts hgap hword ht hl ih =>
    refine List.forall_mem_cons.2 ⟨⟨gap, word, rest, rfl, rfl⟩, fun u hu => ?_⟩
    obtain ⟨before, w, behind, rfl, hspan⟩ := ih u hu
    refine ⟨gap ++ (word ++ before), w, behind, by simp, ?_⟩
    rw [Place.after_append, Place.after_append, hspan]

/-- Between the bytes where one token stops and the next one starts there is a gap, and also
before the first token and behind the last. -/
theorem exists_gap (h : Laid p cs ts) :
    ∀ b ∈ (p.offset :: ts.map (·.span.stop)).zip
        (ts.map (·.span.start) ++ [(p.after cs).offset]),
      ∃ before gap behind, cs = before ++ (gap ++ behind) ∧ Gap gap behind ∧
        b.1 = (p.after before).offset ∧ b.2 = ((p.after before).after gap).offset := by
  induction h with
  | @done p gap hgap =>
    intro b hb
    simp only [List.map_cons, List.map_nil, List.cons_append, List.nil_append, List.zip_cons_cons,
      List.zip_nil_right, List.mem_cons, List.not_mem_nil, or_false] at hb
    obtain rfl | rfl := hb
    · exact ⟨[], gap, [], by simp, hgap, rfl, rfl⟩
    · exact ⟨gap, [], [], by simp, .nil, rfl, rfl⟩
  | @token p gap word rest t ts hgap hword ht hl ih =>
    rw [List.map_cons, List.map_cons, List.cons_append, List.zip_cons_cons]
    refine List.forall_mem_cons.2 ⟨⟨[], gap, word ++ rest, rfl, hgap, rfl, rfl⟩, fun b hb => ?_⟩
    rw [Place.after_append, Place.after_append] at hb
    obtain ⟨before, g, behind, rfl, hg, hb₁, hb₂⟩ := ih b hb
    refine ⟨gap ++ (word ++ before), g, behind, by simp, hg, ?_, ?_⟩
    · rw [Place.after_append, Place.after_append, hb₁]
    · rw [Place.after_append, Place.after_append, hb₂]

theorem offset_le_start (h : Laid p cs ts) : ∀ t ∈ ts, p.offset ≤ t.span.start := by
  intro t ht
  obtain ⟨before, word, behind, -, hspan⟩ := h.exists_stretch t ht
  rw [hspan, Place.to, Place.offset_after]
  exact Nat.le_add_right _ _

/-- The tokens stand in order and do not overlap. -/
theorem ordered (h : Laid p cs ts) : ts.Pairwise fun t u => t.span.stop ≤ u.span.start := by
  induction h with
  | done hgap => exact List.pairwise_singleton _ _
  | token hgap hword ht hl ih => exact List.pairwise_cons.2 ⟨hl.offset_le_start, ih⟩

/-- The lines of the tokens do not decrease. -/
theorem lines (h : Laid p cs ts) : ts.Pairwise fun t u => t.line ≤ u.line := by
  induction h with
  | done hgap => exact List.pairwise_singleton _ _
  | @token p gap word rest t ts hgap hword ht hl ih =>
    refine List.pairwise_cons.2 ⟨fun u hu => ?_, ih⟩
    obtain ⟨before, word', behind, -, hspan⟩ := hl.exists_stretch u hu
    have hline : u.line = (((p.after gap).after word).after before).line := by
      rw [Located.line, hspan]
      rfl
    rw [hline]
    exact ((p.after gap).line_le_after word).trans (Place.line_le_after _ before)

/-- Only the end of the text, which is the last token, takes no characters. -/
theorem exists_last (h : Laid p cs ts) : ∃ us : List Located,
    ts = us ++ [⟨.eof, (p.after cs).to (p.after cs)⟩] ∧
      ∀ u ∈ us, u.token ≠ .eof ∧ u.span.start < u.span.stop := by
  induction h with
  | done hgap => exact ⟨[], rfl, by simp⟩
  | @token p gap word rest t ts hgap hword ht hl ih =>
    obtain ⟨us, rfl, hus⟩ := ih
    refine ⟨⟨t, (p.after gap).to ((p.after gap).after word)⟩ :: us, ?_,
      List.forall_mem_cons.2 ⟨⟨ht, ?_⟩, hus⟩⟩
    · rw [Place.after_append, Place.after_append]
      rfl
    · rw [Place.to, Place.offset_after (p.after gap)]
      exact Nat.lt_add_of_pos_right (utf8ByteSize_ofList_pos hword)

end Laid

/-! ## Tokens of a text -/

/-- The bytes `i` and `j` are boundaries of characters that cut the text in three. -/
structure Cut (text : String) (i j : Nat) (before middle behind : String) : Prop where
  parts : text = before ++ middle ++ behind
  start : before.utf8ByteSize = i
  stop : (before ++ middle).utf8ByteSize = j

/-- The tokens cover the text but for gaps, and know where in it they stand. -/
structure Tiles (text : String) (ts : List Located) : Prop where
  /-- The spans are in order and do not overlap. -/
  ordered : ts.Pairwise fun t u => t.span.stop ≤ u.span.start
  /-- A span begins and stops at boundaries of characters, on the line and in the column that
  the text before it tells. -/
  placed : ∀ t ∈ ts, ∃ before word behind, Cut text t.span.start t.span.stop before word behind ∧
    t.span.line = 1 + before.toList.count '\n' ∧
    t.span.column = 1 + (before.toList.reverse.takeWhile (· != '\n')).length
  /-- Before, between and behind the spans there are gaps. -/
  gaps : ∀ b ∈ (0 :: ts.map (·.span.stop)).zip (ts.map (·.span.start) ++ [text.utf8ByteSize]),
    ∃ before gap behind, Cut text b.1 b.2 before gap behind ∧ Gap gap.toList behind.toList
  /-- The last token is the only end of text, and stands at the last byte. Only its span is
  empty. -/
  last : ∃ us e, ts = us ++ [e] ∧ e.token = .eof ∧ e.span.start = text.utf8ByteSize ∧
    e.span.stop = text.utf8ByteSize ∧ ∀ u ∈ us, u.token ≠ .eof ∧ u.span.start < u.span.stop

theorem cut_of_append {text : String} {before middle behind : List Char}
    (h : text.toList = before ++ (middle ++ behind)) :
    Cut text (Place.origin.after before).offset
      ((Place.origin.after before).after middle).offset (String.ofList before)
      (String.ofList middle) (String.ofList behind) where
  parts := by
    rw [← String.ofList_toList (s := text), h, String.ofList_append, String.ofList_append,
      String.append_assoc]
  start := by rw [Place.origin_after]
  stop := by rw [← Place.after_append, Place.origin_after, String.ofList_append]

/-- The last token of a text is its only end, and stands at the last byte. Only its span is
empty. -/
theorem tokenize_last {text : String} {ts : List Located} (h : tokenize text = .ok ts) :
    ∃ (us : List Located) (e : Located), ts = us ++ [e] ∧ e.token = .eof ∧
      e.span.start = text.utf8ByteSize ∧ e.span.stop = text.utf8ByteSize ∧
        ∀ u ∈ us, u.token ≠ .eof ∧ u.span.start < u.span.stop := by
  have hend : (Place.origin.after text.toList).offset = text.utf8ByteSize := by
    rw [Place.origin_after, String.ofList_toList]
  obtain ⟨us, rfl, hus⟩ := (tokensFrom_laid h).exists_last
  exact ⟨us, _, rfl, rfl, hend, hend, hus⟩

/-- The tokens of a text tile it. -/
theorem tokenize_tiles {text : String} {ts : List Located} (h : tokenize text = .ok ts) :
    Tiles text ts := by
  have hl : Laid .origin text.toList ts := tokensFrom_laid h
  have hend : (Place.origin.after text.toList).offset = text.utf8ByteSize := by
    rw [Place.origin_after, String.ofList_toList]
  refine ⟨hl.ordered, ?placed, ?gaps, tokenize_last h⟩
  case placed =>
    intro t ht
    obtain ⟨before, word, behind, hparts, hspan⟩ := hl.exists_stretch t ht
    refine ⟨_, _, _, by rw [hspan]; exact cut_of_append hparts, ?_, ?_⟩
    · rw [hspan, Place.to, Place.origin_after, String.toList_ofList]
    · rw [hspan, Place.to, Place.origin_after, String.toList_ofList]
  case gaps =>
    intro b hb
    rw [← hend] at hb
    obtain ⟨before, gap, behind, hparts, hgap, hb₁, hb₂⟩ := hl.exists_gap b hb
    refine ⟨_, _, _, by rw [hb₁, hb₂]; exact cut_of_append hparts, ?_⟩
    rwa [String.toList_ofList, String.toList_ofList]

/-- Comments that span lines and end with the text, characters of more than one byte, and a
unit of more than one word. -/
theorem tokenize_tiles_comments :
    ∃ ts, tokenize "/* \u00e9\n*/ x = '\u65e5'\n2 m/s2 # \u00e9" = .ok ts ∧
      Tiles "/* \u00e9\n*/ x = '\u65e5'\n2 m/s2 # \u00e9" ts := by
  have hok : (tokenize "/* \u00e9\n*/ x = '\u65e5'\n2 m/s2 # \u00e9").isOk = true := by cbv
  obtain ⟨ts, h⟩ := exists_tokenize_of_isOk hok
  exact ⟨ts, h, tokenize_tiles h⟩

end OpsLang
