import OpsLang.Proofs.Entries.Block

/-!
# Entry points that agree

A text is a procedure or a declaration if it is a program of that one item, unless it begins with a
semicolon, which only a program may. And the statements of a block, with its end, are the `main` of
a procedure with its own words around them. The text between may be anything : whether it holds
ends, sections or further items, both readings come to the last words of their texts with all that
stands before taken for statements, or neither does (`statements_main`).
-/

namespace OpsLang

open Grammar Reader

/-! ## Rows of a block -/

section Rows

variable {us us' : List Located} {c c' c₁ c₂ c₃ c₄ e e' : Located}

/-- A row is the rest of a block if its statements are read up to the end of the block. -/
theorem parseBlock_row_iff {kind : BlockKind} {body : Block} (hus : ∀ u ∈ us, u.token ≠ .eof)
    (he : e.token = .eof) (hwords : words [c, c'] = [.keyword .end_, .keyword kind.closer]) :
    parseBlock kind (us ++ [c, c'] ++ [e]) = .accepted body ↔
      (statements .strict maxNesting kind
        (Stream.ofTokens (us ++ [c, c'] ++ [e])).line false).outcome
          ((⟨e, []⟩ : Stream).behind (us ++ [c, c'])) =
        .ok body ((⟨e, []⟩ : Stream).behind [c, c']) := by
  have hcs : ∀ u ∈ us ++ [c, c'], u.token ≠ .eof := by
    obtain ⟨hc, hc'⟩ : c.token = .keyword .end_ ∧ c'.token = .keyword kind.closer := by
      simpa [words] using hwords
    simpa [or_imp, forall_and, hc, hc'] using hus
  have hrow : us ++ [c, c'] ++ [e] = us ++ [c, c'] ++ (⟨e, []⟩ : Stream).row := rfl
  rw [parseBlock_eq_accepted, hrow, Stream.ofTokens_append_row,
    blockAt_fills_iff (Stream.ends_behind_end he hcs) he hwords]

/-- A row that begins with the words of a procedure and of its `main`, and ends in the ends of both,
is a procedure if the statements of `main` are read up to its end. -/
theorem parseProcedure_row_iff {t n m : Located} {name : String} {p : Procedure}
    (hus : ∀ u ∈ us, u.token ≠ .eof) (he : e.token = .eof)
    (hbegin : words [t, n, m] = [.keyword .procedure, .name name, .keyword .main])
    (hwords : words [c₁, c₂, c₃, c₄] =
      [.keyword .end_, .keyword .main, .keyword .end_, .keyword .procedure]) :
    parseProcedure ([t, n, m] ++ (us ++ [c₁, c₂, c₃, c₄] ++ [e])) = .accepted p ↔
      ∃ body, (statements .strict maxNesting .main m.line false).outcome
          ((⟨e, []⟩ : Stream).behind (us ++ [c₁, c₂, c₃, c₄])) =
            .ok body ((⟨e, []⟩ : Stream).behind [c₁, c₂, c₃, c₄]) ∧
        p = ⟨name, none, body, none, t.line⟩ := by
  obtain ⟨ht, hn, hm⟩ : t.token = .keyword .procedure ∧ n.token = .name name ∧
      m.token = .keyword .main := by
    simpa [words] using hbegin
  have hcs : ∀ u ∈ [t, n, m] ++ (us ++ [c₁, c₂, c₃, c₄]), u.token ≠ .eof := by
    obtain ⟨h₁, h₂, h₃, h₄⟩ : c₁.token = .keyword .end_ ∧ c₂.token = .keyword .main ∧
        c₃.token = .keyword .end_ ∧ c₄.token = .keyword .procedure := by
      simpa [words] using hwords
    simpa [or_imp, forall_and, ht, hn, hm, h₁, h₂, h₃, h₄] using hus
  have hrow : [t, n, m] ++ (us ++ [c₁, c₂, c₃, c₄] ++ [e]) =
      [t, n, m] ++ (us ++ [c₁, c₂, c₃, c₄]) ++ (⟨e, []⟩ : Stream).row := by
    simp [Stream.row]
  rw [parseProcedure_eq_accepted, hrow, Stream.ofTokens_append_row,
    procedureAt_fills_iff (Stream.ends_behind_end he hcs) he ht hn hm hwords]

theorem stops_of_words {y : Stream} (hy : y.Closed) {k k' : Keyword} (ht : y.token = .keyword k)
    (hk : (Token.keyword k).stops = true) (hn : y.next = .keyword k') : y.Stops :=
  ⟨hy, by rw [ht, hk], by rw [hn]; simp⟩

theorem stops_of_eof (he : e.token = .eof) : (⟨e, []⟩ : Stream).Stops :=
  ⟨Stream.closed_single.2 he, by rw [Stream.token, he]; rfl, by simp [Stream.next]⟩

/-- The statements of a block are those of `main` on other lines, read before the ends of both. -/
theorem statements_main (line line' : Nat) (he : e.token = .eof) (he' : e'.token = .eof)
    (hrows : Relined us us') (hwords : words [c, c'] = [.keyword .end_, .keyword .main])
    (hwords' : words [c₁, c₂, c₃, c₄] =
      [.keyword .end_, .keyword .main, .keyword .end_, .keyword .procedure])
    {o o' : Outcome Block}
    (ho : o = (statements .strict maxNesting .main line false).outcome
      ((⟨e, []⟩ : Stream).behind (us ++ [c, c'])))
    (ho' : o' = (statements .strict maxNesting .main line' false).outcome
      ((⟨e', []⟩ : Stream).behind (us' ++ [c₁, c₂, c₃, c₄]))) :
    (∀ body, o = .ok body ((⟨e, []⟩ : Stream).behind [c, c']) → ∃ body', SameBlock body body' ∧
      o' = .ok body' ((⟨e', []⟩ : Stream).behind [c₁, c₂, c₃, c₄])) ∧
    ∀ body', o' = .ok body' ((⟨e', []⟩ : Stream).behind [c₁, c₂, c₃, c₄]) →
      ∃ body, SameBlock body' body ∧ o = .ok body ((⟨e, []⟩ : Stream).behind [c, c']) := by
  obtain ⟨hmain, h₃, h₄⟩ : words [c₁, c₂] = [.keyword .end_, .keyword .main] ∧
      c₃.token = .keyword .end_ ∧ c₄.token = .keyword .procedure := by
    simpa [words, and_assoc] using hwords'
  have hnounit : ∀ d d' : Located, words [d, d'] = [.keyword .end_, .keyword .main] →
      ∀ u ∈ [d, d'], ∀ w, u.token ≠ .unit w := by
    intro d d' hd
    obtain ⟨h, h'⟩ : d.token = .keyword .end_ ∧ d'.token = .keyword .main := by
      simpa [words] using hd
    simp [h, h']
  have hx := stops_of_eof he
  have hy : ((⟨e', []⟩ : Stream).behind [c₃, c₄]).Stops := by
    refine stops_of_words ?_ h₃ rfl h₄
    rw [Stream.Closed, Stream.row_behind]
    exact ⟨e', rfl, he'⟩
  have hblocks : Relined (us ++ [c, c']) (us' ++ [c₁, c₂]) :=
    hrows.append (.of_words (hmain.trans hwords.symm) (hnounit _ _ hwords)) fun v hv =>
      hnounit _ _ hwords v (List.mem_of_mem_head? hv)
  have hbehind : ∀ vs, (⟨e', []⟩ : Stream).behind (vs ++ [c₁, c₂, c₃, c₄]) =
      ((⟨e', []⟩ : Stream).behind [c₃, c₄]).behind (vs ++ [c₁, c₂]) := by
    intro vs
    rw [← Stream.behind_append, List.append_assoc]
    rfl
  have hlast := hbehind []
  rw [hbehind] at ho'
  rw [List.nil_append, List.nil_append] at hlast
  rw [hlast, ho, ho']
  exact ⟨fun body h => statements_behind_relined hx.closed hy hblocks rfl (by simp) h,
    fun body h => statements_behind_relined hy.closed hx hblocks.symm rfl (by simp) h⟩

end Rows

/-! ## Texts of a block -/

/-- Rows further on are on other lines, and what was on one line still is. -/
theorem relined_map_shift (bytes lines : Nat) :
    ∀ us : List Located, Relined us (us.map (Located.shift bytes lines))
  | [] => .nil
  | t :: ts => by
    refine .cons rfl (fun _ _ _ u hu u' hu' _ => ?_) (relined_map_shift bytes lines ts)
    rw [List.head?_map, Option.mem_def, Option.mem_def.1 hu] at hu'
    obtain rfl := Option.some.inj hu'
    exact Nat.add_right_cancel_iff

theorem words_map_shift (bytes lines : Nat) (us : List Located) :
    words (us.map (Located.shift bytes lines)) = words us := by
  simp [words, Located.shift, Function.comp_def]

/-- The rest of `main`, with its end on a line of its own. -/
def endedText (b : String) : String :=
  b ++ "\n" ++ "end main"

/-- A procedure with this text in its `main`. -/
def procedureText (b : String) : String :=
  "procedure P main" ++ "\n" ++ (b ++ "\n" ++ "end main end procedure")

/-- The rows of both texts hold that of the text between, on other lines. -/
theorem exists_rows {b : String} {us : List Located} {e₀ : Located}
    (h : tokenize b = .ok (us ++ [e₀])) :
    ∃ c c' e t n m us' c₁ c₂ c₃ c₄ e',
      tokenize (endedText b) = .ok (us ++ [c, c'] ++ [e]) ∧
      tokenize (procedureText b) = .ok ([t, n, m] ++ (us' ++ [c₁, c₂, c₃, c₄] ++ [e'])) ∧
      e.token = .eof ∧ e'.token = .eof ∧ Relined us us' ∧
      words [c, c'] = [.keyword .end_, .keyword .main] ∧
      words [t, n, m] = [.keyword .procedure, .name "P", .keyword .main] ∧
      words [c₁, c₂, c₃, c₄] =
        [.keyword .end_, .keyword .main, .keyword .end_, .keyword .procedure] := by
  obtain ⟨cs, e, hended, hcs, he⟩ := tokenize_append_words h [.end_, .main]
  obtain ⟨c, c', rfl⟩ : ∃ c c', cs = [c, c'] := List.length_eq_two.1 (by
    simpa [words] using congrArg List.length hcs)
  obtain ⟨cs', e', hproc, hcs', he'⟩ := tokenize_append_words h [.end_, .main, .end_, .procedure]
  have hbegin : tokenize "procedure P main" = .ok ([⟨.keyword .procedure, ⟨0, 9, 1, 1⟩⟩,
      ⟨.name "P", ⟨10, 11, 1, 11⟩⟩, ⟨.keyword .main, ⟨12, 16, 1, 13⟩⟩] ++
        [⟨.eof, ⟨16, 16, 1, 17⟩⟩]) := by
    cbv
  have hshift := tokenize_append_shiftReading hbegin (b ++ "\n" ++ "end main end procedure")
  have hwords : " ".intercalate ([.end_, .main, .end_, .procedure].map Keyword.text) =
      "end main end procedure" := by decide
  rw [← hwords, hproc] at hshift
  generalize "procedure P main".utf8ByteSize + 1 = bytes at hshift
  generalize "procedure P main".toList.count '\n' + 1 = lines at hshift
  simp only [shiftReading, Except.map] at hshift
  rw [List.map_append, List.map_append, hwords] at hshift
  obtain ⟨c₁, c₂, c₃, c₄, h₄⟩ : ∃ c₁ c₂ c₃ c₄, cs'.map (Located.shift bytes lines) =
      [c₁, c₂, c₃, c₄] := by
    obtain ⟨d₁, _, rfl, -, h⟩ := words_eq_cons.1 hcs'
    obtain ⟨d₂, _, rfl, -, h⟩ := words_eq_cons.1 h
    obtain ⟨d₃, _, rfl, -, h⟩ := words_eq_cons.1 h
    obtain ⟨d₄, _, rfl, -, h⟩ := words_eq_cons.1 h
    rw [words_eq_nil.1 h]
    exact ⟨_, _, _, _, rfl⟩
  rw [h₄] at hshift
  refine ⟨c, c', e, _, _, _, _, c₁, c₂, c₃, c₄, _, hended, hshift, he, ?_,
    relined_map_shift bytes lines us, hcs, rfl, ?_⟩
  · exact he'
  rw [← h₄, words_map_shift, hcs']
  rfl

/-- A text that cannot be read cannot be read with words on a further line. -/
theorem tokenize_error_append {b : String} {d : Diagnostic} (h : tokenize b = .error d)
    {c : String} (hc : EndsNothing c.toList) :
    ∃ d', tokenize (b ++ "\n" ++ c) = .error d' := by
  rw [tokenize, toList_append_newline]
  exact tokensFrom_error_append_newline hc h

/-- A text is the rest of `main` if it is so in a procedure, with the same statements but for their
lines. -/
theorem parseBlock_iff_parseProcedure (b : String) :
    (∀ body, ofText (parseBlock .main) (endedText b) = .accepted body →
      ∃ p, ofText parseProcedure (procedureText b) = .accepted p ∧ SameBlock body p.main) ∧
    ∀ p, ofText parseProcedure (procedureText b) = .accepted p →
      ∃ body, ofText (parseBlock .main) (endedText b) = .accepted body ∧ SameBlock p.main body := by
  cases h : tokenize b with
  | error d =>
    obtain ⟨d₁, hended⟩ := tokenize_error_append h (c := "end main") (by simp [EndsNothing])
    obtain ⟨d₂, hproc⟩ : ∃ d₂, tokenize (procedureText b) = .error d₂ := by
      obtain ⟨d₂, hinner⟩ :=
        tokenize_error_append h (c := "end main end procedure") (by simp [EndsNothing])
      have hbegin : (tokenize "procedure P main").isOk = true := by cbv
      obtain ⟨ts, hts⟩ := exists_tokenize_of_isOk hbegin
      obtain ⟨us, e, rfl, -⟩ := tokenize_spec hts
      have hshift := tokenize_append_shiftReading hts (b ++ "\n" ++ "end main end procedure")
      rw [hinner] at hshift
      exact ⟨_, hshift⟩
    simp [ofText, endedText, hended, hproc]
  | ok ts =>
    obtain ⟨us, e₀, rfl, -, hus⟩ := tokenize_spec h
    obtain ⟨c, c', e, t, n, m, us', c₁, c₂, c₃, c₄, e', hended, hproc, he, he', hrows, hwords,
      hbegin, hwords'⟩ := exists_rows h
    have hus : ∀ u ∈ us, u.token ≠ .eof := fun u hu => (hus u hu).ne_eof
    have hus' : ∀ u ∈ us', u.token ≠ .eof := by
      intro u hu
      have hmem : u.token ∈ words us := by
        rw [← hrows.words_eq]
        exact List.mem_map_of_mem hu
      obtain ⟨v, hv, heq⟩ := List.mem_map.1 hmem
      exact heq ▸ hus v hv
    have hblock : ∀ body, parseBlock .main (us ++ [c, c'] ++ [e]) = .accepted body ↔ _ :=
      fun body => parseBlock_row_iff hus he hwords
    obtain ⟨hto, hfrom⟩ := statements_main (Stream.ofTokens (us ++ [c, c'] ++ [e])).line m.line
      he he' hrows hwords hwords' rfl rfl
    simp only [ofText, hended, hproc, hblock, parseProcedure_row_iff hus' he' hbegin hwords']
    constructor
    · intro body hbody
      obtain ⟨body', hsame, hbody'⟩ := hto body hbody
      exact ⟨_, ⟨body', hbody', rfl⟩, hsame⟩
    · rintro p ⟨body', hbody', rfl⟩
      obtain ⟨body, hsame, hbody⟩ := hfrom body' hbody'
      exact ⟨body, hbody, hsame⟩

/-! ## Texts of an item -/

/-- The text can be read, and its first token is a semicolon. -/
def BeginsWithSemicolon (s : String) : Prop :=
  ∃ ts, tokenize s = .ok ts ∧ ts.head?.map Located.token = some (.symbol .semicolon)

/-- The entry points agree : a text is a procedure or a declaration if it is a program of that item
alone and does not begin with a semicolon, and a text is the rest of `main`, with its end, if it is
so in a procedure, and then the statements are the same but for their lines. -/
theorem entryPoints_agree :
    (∀ s p, ofText parseProcedure s = .accepted p ↔
      parseSource s = .accepted ⟨[.procedure p]⟩ ∧ ¬BeginsWithSemicolon s) ∧
    (∀ s d, ofText parseDeclaration s = .accepted d ↔
      parseSource s = .accepted ⟨[.declaration d]⟩ ∧ ¬BeginsWithSemicolon s) ∧
    ∀ b, ((∃ body, ofText (parseBlock .main) (endedText b) = .accepted body) ↔
        ∃ p, ofText parseProcedure (procedureText b) = .accepted p) ∧
      ∀ body p, ofText (parseBlock .main) (endedText b) = .accepted body →
        ofText parseProcedure (procedureText b) = .accepted p →
          Block.unlined p.main = Block.unlined body := by
  have hbegins : ∀ s ts, tokenize s = .ok ts →
      ((Stream.ofTokens ts).token = .symbol .semicolon ↔ BeginsWithSemicolon s) := by
    intro s ts hs
    obtain ⟨us, e, rfl, -, -⟩ := tokenize_spec hs
    cases us <;> simp [BeginsWithSemicolon, hs, Stream.ofTokens, Stream.token]
  have hlast : ∀ s ts, tokenize s = .ok ts → EndsLast ts := by
    intro s ts hs
    obtain ⟨us, e, rfl, he, -⟩ := tokenize_spec hs
    exact ⟨e, by simp, he⟩
  refine ⟨fun s p => ?procedure, fun s d => ?declaration, fun b => ?block⟩
  case procedure =>
    cases hs : tokenize s with
    | error => simp [ofText, parseSource, hs]
    | ok ts =>
      simpa [ofText, parseSource, hs, ← hbegins s ts hs] using parseProcedure_iff (hlast s ts hs)
  case declaration =>
    cases hs : tokenize s with
    | error => simp [ofText, parseSource, hs]
    | ok ts =>
      simpa [ofText, parseSource, hs, ← hbegins s ts hs] using parseDeclaration_iff (hlast s ts hs)
  case block =>
    obtain ⟨hto, hfrom⟩ := parseBlock_iff_parseProcedure b
    refine ⟨⟨?_, ?_⟩, fun body p hbody hp => ?_⟩
    · rintro ⟨body, hbody⟩
      obtain ⟨p, hp, -⟩ := hto body hbody
      exact ⟨p, hp⟩
    · rintro ⟨p, hp⟩
      obtain ⟨body, hbody, -⟩ := hfrom p hp
      exact ⟨body, hbody⟩
    · obtain ⟨p', hp', hsame⟩ := hto body hbody
      rw [hp] at hp'
      obtain rfl := Verdict.accepted.inj hp'
      exact hsame

set_option maxRecDepth 2000 in
/-- A statement on another line in a procedure, with more semicolons than it needs. -/
theorem entryPoints_agree_wait :
    ofText (parseBlock .main) (endedText ";wait until x;") = .accepted [.wait (.name "x") 1] ∧
      ofText parseProcedure (procedureText ";wait until x;") =
        .accepted ⟨"P", none, [.wait (.name "x") 2], none, 1⟩ ∧
      Block.unlined [.wait (.name "x") 2] = Block.unlined [.wait (.name "x") 1] := by
  have hblock : ofText (parseBlock .main) (endedText ";wait until x;") =
      .accepted [.wait (.name "x") 1] := by cbv
  have hprocedure : ofText parseProcedure (procedureText ";wait until x;") =
      .accepted ⟨"P", none, [.wait (.name "x") 2], none, 1⟩ := by
    have htext : procedureText ";wait until x;" =
        "procedure P main\n;wait until x;\nend main end procedure" := by decide
    rw [htext]
    cbv
  exact ⟨hblock, hprocedure, (entryPoints_agree.2.2 _).2 _ _ hblock hprocedure⟩

end OpsLang
