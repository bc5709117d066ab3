import OpsLang.Proofs.Appending.File
import OpsLang.Proofs.Canonical.Statement
import OpsLang.Proofs.OpenBlocks.Statement

/-!
# Files that run out of text

A procedure runs out inside one of its sections or between them. Where its `main` has not
begun, the words that close it are those of an empty `main` and its own end
(`closes_mainAhead`); these stand behind the ends of the sections that are open inside it.
Between the items of a file the end of the text ends the file, so nothing runs out there :
`items_unterminated` goes by induction on the row from what is known of a single item.

`parseSource_unterminated` says what this comes to for texts. In the other direction a text that
is accepted leaves no block open (`nest_of_parseSource`).
-/

namespace OpsLang

namespace Grammar

open Reader

variable {e : Located} {us : List Located} {room : Nat} {bs : List OpenBlock}

/-! ## Sections -/

theorem tracksAt_sectionAt (he : e.token = .eof) {u : Located} {kind : BlockKind}
    (hu : u.token = .keyword kind.closer) (hkind : kind ≠ .procedure) (p : OpenBlock) :
    (sectionAt room kind).TracksAt e (u :: us) (p :: bs) (p.enter kind :: bs) AnyValue := by
  have hblock : (do
      let body ← (statements .strict room kind u.line false).outcome
      endOf kind u.line
      return body : Reader Block).TracksAt e us (⟨kind, u.line, false⟩ :: p.enter kind :: bs)
        (p.enter kind :: bs) AnyValue :=
    tracksAt_block_end he (tracksAt_statements he room) hkind
  refine .here_cons (hblock.opens hu (fun _ => rfl) fun t => ?_)
  rw [bind_run, skip_run, Stream.advance_behind_cons, Outcome.andThen_ok]

theorem tracksAt_optionalSectionAt (he : e.token = .eof) {kind : BlockKind}
    (hkind : kind ≠ .procedure) (hmain : kind ≠ .main) (p : OpenBlock) :
    (optionalSectionAt room kind).TracksAt e us (p :: bs) (p :: bs) AnyValue := by
  have hparts : ¬(Token.keyword kind.closer).Parts := by
    rintro (h | h) <;> cases kind <;> first | exact hmain rfl | cases h
  cases us with
  | nil =>
    intro _
    refine .of_blockless (persistsAt_optionalSectionAt he hparts) ?_
    have hrun : optionalSectionAt room kind ⟨e, []⟩ = .ok none ⟨e, []⟩ := by
      simp [optionalSectionAt, Stream.token, he]
    rw [Stream.behind_nil, hrun]
    exact .pure _ _
  | cons u us =>
    refine .peek_cons fun hs => ?_
    by_cases hu : u.token = .keyword kind.closer
    · rw [if_pos hu]
      have hsection : (sectionAt room kind).TracksAt e (u :: us) (p :: bs) (p.enter kind :: bs)
          AnyValue := tracksAt_sectionAt he hu hkind p
      rw [OpenBlock.enter_of_ne hmain] at hsection
      exact hsection.map (fun _ _ => trivial) hs
    · rw [if_neg hu]
      exact TracksAt.pure _ hs

/-- Before the end of a procedure no section begins. -/
theorem closes_optionalSectionAt {kind : BlockKind} {b : OpenBlock}
    (hb : b.closing = [.end_, b.kind.closer]) :
    (optionalSectionAt room kind).Closes [] (b :: bs) AnyValue := by
  refine .of_run fun t ht => ⟨none, trivial, ?_⟩
  have hne : t.token ≠ .keyword kind.closer := by
    rw [ht.token_eq hb]
    cases kind <;> simp [BlockKind.closer]
  simp [optionalSectionAt, hne]

/-! ## Procedures -/

section Procedures

variable {α : Type} {line : Nat}

theorem mainAhead_of_ne {line : Nat} (b : Bool) {s : Stream} (hmain : s.token ≠ .keyword .main)
    (heof : s.token ≠ .eof) : ∃ d s', mainAhead line b s = .fail d s' ∧ d.kind = .grammar := by
  rw [mainAhead_run]
  split
  · contradiction
  · contradiction
  · exact ⟨_, _, rfl, rfl⟩

theorem endAhead_of_ne (b : Bool) {s : Stream} (hend : s.token ≠ .keyword .end_)
    (heof : s.token ≠ .eof) : ∃ d s', endAhead b s = .fail d s' ∧ d.kind = .grammar := by
  rw [endAhead_run]
  split
  · contradiction
  · contradiction
  · exact ⟨_, _, rfl, rfl⟩

/-- An empty `main` closes what is missing of it. -/
theorem sectionAt_of_words {c c' c'' : Located} (hc' : c'.token = .keyword .end_)
    (hc'' : c''.token = .keyword .main) (t : Stream) :
    sectionAt (room + 1) .main (t.behind (c :: c' :: c'' :: us)) = .ok [] (t.behind us) := by
  have hblock : (statements .strict (room + 1) .main c.line false).outcome
      (t.behind (c' :: c'' :: us)) = .ok [] (t.behind (c' :: c'' :: us)) := statements_of_end hc'
  have hend : endOf .main c.line (t.behind (c' :: c'' :: us)) = .ok () (t.behind us) := by
    rw [endOf_eq_ok, Stream.token_behind_cons, Stream.next_behind_cons, Stream.token_behind_cons,
      Stream.advance_behind_cons, Stream.advance_behind_cons]
    exact ⟨hc', hc'', rfl⟩
  simp only [sectionAt, bind_run, here_run, skip_run, Outcome.andThen_ok,
    Stream.advance_behind_cons, Stream.here_behind_cons, hblock, hend, pure_run]

/-- The place of `main`, with what follows, before the words that close a procedure without
one. -/
theorem closes_mainAhead {b : Bool} {f : Block → Reader α}
    (hf : ∀ body, (f body).Closes [⟨.procedure, line, true⟩] bs AnyValue) :
    (do
      mainAhead line b
      let main ← sectionAt (room + 1) .main
      f main : Reader α).Closes [⟨.procedure, line, false⟩] bs AnyValue := by
  intro cs t hcs ht
  obtain ⟨c, cs, rfl, hc, hcs⟩ := words_eq_cons.1 hcs
  obtain ⟨c', cs, rfl, hc', hcs⟩ := words_eq_cons.1 hcs
  obtain ⟨c'', cs, rfl, hc'', hcs⟩ := words_eq_cons.1 hcs
  obtain ⟨a, -, ha⟩ := hf [] cs t hcs ht
  refine ⟨a, trivial, ?_⟩
  have hmain : mainAhead line b (t.behind (c :: c' :: c'' :: cs)) =
      .ok () (t.behind (c :: c' :: c'' :: cs)) := by
    rw [mainAhead_run, Stream.token_behind_cons, hc]
  rw [bind_run, hmain, Outcome.andThen_ok, bind_run, sectionAt_of_words hc' hc'',
    Outcome.andThen_ok, ha]

/-- Where the text ends at the place of `main`, the procedure is missing its end. -/
theorem tracksAt_mainAhead (he : e.token = .eof) {b : Bool} {f : Block → Reader α}
    (hf : ∀ body vs, (f body).TracksAt e vs (⟨.procedure, line, true⟩ :: bs) bs AnyValue)
    (hc : ∀ body, (f body).Closes [⟨.procedure, line, true⟩] bs AnyValue) :
    (do
      mainAhead line b
      let main ← sectionAt (room + 1) .main
      f main : Reader α).TracksAt e us (⟨.procedure, line, false⟩ :: bs) bs AnyValue := by
  cases us with
  | nil =>
    refine .of_end [⟨.procedure, line, false⟩] ⟨⟨e, []⟩, ?_⟩ rfl (closes_mainAhead hc)
    rw [bind_run, mainAhead_run, Stream.token, he]
    rfl
  | cons u us =>
    by_cases hu : u.token = .keyword .main
    · have hsection : (sectionAt (room + 1) .main).TracksAt e (u :: us)
          (⟨.procedure, line, false⟩ :: bs) ([⟨.procedure, line, true⟩] ++ bs) AnyValue :=
        tracksAt_sectionAt he hu (by simp) ⟨.procedure, line, false⟩
      have hrest := TracksAt.bind _ hsection (fun body vs _ => hf body vs) fun body _ => hc body
      refine hrest.congr fun t => ?_
      rw [bind_run, mainAhead_run, Stream.token_behind_cons, hu]
      rfl
    · intro hs
      exact TracksAt.bind_of_fault (mainAhead_of_ne b hu hs.head_ne_eof) hs

theorem closes_endAhead {b : Bool} {a : α} :
    (do
      endAhead b
      endOf .procedure line
      return a : Reader α).Closes [⟨.procedure, line, true⟩] bs AnyValue := by
  have hahead : (endAhead b).Closes [] ([⟨.procedure, line, true⟩] ++ bs) AnyValue := by
    refine .of_run fun t ht => ⟨(), trivial, ?_⟩
    rw [endAhead_run, ht.token_eq rfl]
  have hend : (endOf .procedure line).Closes [⟨.procedure, line, true⟩] bs AnyValue :=
    closes_endOf (b := ⟨.procedure, line, true⟩) rfl
  exact hahead.bind fun _ => hend.bind fun _ => .pure trivial

/-- Behind its sections a procedure has to end. -/
theorem tracksAt_endAhead (he : e.token = .eof) {b : Bool} {a : α} :
    (do
      endAhead b
      endOf .procedure line
      return a : Reader α).TracksAt e us (⟨.procedure, line, true⟩ :: bs) bs AnyValue := by
  have hend : (do
      endOf .procedure line
      return a : Reader α).TracksAt e us (⟨.procedure, line, true⟩ :: bs) bs AnyValue :=
    (tracksAt_endOf he (b := ⟨.procedure, line, true⟩) rfl).map fun _ _ => trivial
  have hclose : (do
      endAhead b
      endOf .procedure line
      return a : Reader α).Closes [⟨.procedure, line, true⟩] bs AnyValue := closes_endAhead
  cases us with
  | nil =>
    refine .of_end [⟨.procedure, line, true⟩] ⟨⟨e, []⟩, ?_⟩ rfl hclose
    simp [endAhead_run, endOf, Stream.token, he, Stream.unterminated]
  | cons u us =>
    intro hs
    by_cases hu : u.token = .keyword .end_
    · refine hend.congr (fun t => ?_) hs
      rw [bind_run, endAhead_run, Stream.token_behind_cons, hu]
      rfl
    · exact TracksAt.bind_of_fault (endAhead_of_ne b hu hs.head_ne_eof) hs

/-- What follows `main` in a procedure. -/
theorem tracksAt_afterMain (he : e.token = .eof) {a : Option Block → α} :
    (do
      let confirmation ← optionalSectionAt room .confirmation
      endAhead confirmation.isSome
      endOf .procedure line
      return a confirmation : Reader α).TracksAt e us (⟨.procedure, line, true⟩ :: bs) bs
        AnyValue :=
  .bind [⟨.procedure, line, true⟩] (tracksAt_optionalSectionAt he (by simp) (by simp) _)
    (fun _ _ _ => tracksAt_endAhead he) fun _ _ => closes_endAhead

theorem closes_afterMain {a : Option Block → α} :
    (do
      let confirmation ← optionalSectionAt room .confirmation
      endAhead confirmation.isSome
      endOf .procedure line
      return a confirmation : Reader α).Closes [⟨.procedure, line, true⟩] bs AnyValue := by
  have hnone : (optionalSectionAt room .confirmation).Closes []
      ([⟨.procedure, line, true⟩] ++ bs) AnyValue := closes_optionalSectionAt rfl
  exact hnone.bind fun _ => closes_endAhead

/-- A procedure runs out inside one of its blocks, or between its sections. -/
theorem tracksAt_procedureAt (he : e.token = .eof) {u : Located}
    (hu : u.token = .keyword .procedure) :
    (procedureAt (room + 1)).TracksAt e (u :: us) bs bs AnyValue := by
  refine .here_cons ?_
  have hrest : ∀ n vs, (do
      let preconditions ← optionalSectionAt (room + 1) .preconditions
      mainAhead u.line preconditions.isSome
      let main ← sectionAt (room + 1) .main
      let confirmation ← optionalSectionAt (room + 1) .confirmation
      endAhead confirmation.isSome
      endOf .procedure u.line
      return ⟨n, preconditions, main, confirmation, u.line⟩ : Reader Procedure).TracksAt e vs
        (⟨.procedure, u.line, false⟩ :: bs) bs AnyValue := fun n vs =>
    .bind [⟨.procedure, u.line, false⟩] (tracksAt_optionalSectionAt he (by simp) (by simp) _)
      (fun _ _ _ => tracksAt_mainAhead he (fun _ _ => tracksAt_afterMain he)
        fun _ => closes_afterMain)
      fun _ _ => closes_mainAhead fun _ => closes_afterMain
  refine TracksAt.opens (.bind_blockless (persistsAt_name he "procedure name")
    (blockless_name _) fun n vs _ => hrest n vs) hu
      (fun _ => OpenBlock.modifyHead_enter_of_ne (by simp) _) fun t => ?_
  rw [bind_run, keyword_run, Stream.token_behind_cons, if_pos hu, Stream.advance_behind_cons]
  rfl

end Procedures

theorem tracksAt_itemAt (he : e.token = .eof) :
    (itemAt (room + 1)).TracksAt e us bs bs AnyValue := by
  cases us with
  | nil =>
    have hrun : itemAt (room + 1) ⟨e, []⟩ =
        .fail ((⟨e, []⟩ : Stream).expecting ["'procedure'", "'namespace'", "'type'"]) ⟨e, []⟩ := by
      rw [itemAt_run, Stream.token, he]
    exact .of_fault ⟨_, _, hrun, rfl⟩
  | cons u us =>
    have hdeclaration : (declaration (room + 1)).TracksAt e (u :: us) bs bs AnyValue :=
      .of_blockless (persistsAt_declaration he _) (blockless_declaration _)
    refine .peek_cons ?_
    split
    · next hu => exact (tracksAt_procedureAt he hu).map fun _ _ => trivial
    · exact hdeclaration.map fun _ _ => trivial
    · exact hdeclaration.map fun _ _ => trivial
    · exact .of_fault ⟨_, _, rfl, rfl⟩

/-! ## Rows -/

/-- A file that is read leaves no block open. -/
theorem nest_of_items (he : e.token = .eof) {is : List Item} {s : Stream}
    (hs : ((⟨e, []⟩ : Stream).behind us).Ends)
    (h : many (fileRoundAt (room + 1)) ((⟨e, []⟩ : Stream).behind us) = .ok is s) :
    Nest.ofRow us = ⟨[], false⟩ := by
  induction hn : us.length using Nat.strongRecOn generalizing us is with
  | _ n ih =>
    subst hn
    obtain ⟨ss, vs, rfl, hss, hround⟩ := fileRoundAt_behind_end he (room + 1) us
    have hvs := hs.of_suffix (List.suffix_append ss vs)
    have hlead : Nest.ofRow (ss ++ vs) = Nest.ofRow vs := by
      rw [Nest.ofRow, Nest.after_append, Nest.after_blockless fun u hu => by rw [hss u hu]; rfl]
      rfl
    rw [hlead]
    obtain ⟨heof, -⟩ | ⟨-, hround⟩ := hround
    · cases vs with
      | nil => rfl
      | cons v vs => exact absurd heof hvs.head_ne_eof
    have hitem : Tracks e vs [] [] AnyValue (fun t => itemAt (room + 1) (t.behind vs))
        (itemAt (room + 1) ((⟨e, []⟩ : Stream).behind vs)) := tracksAt_itemAt he hvs
    rw [many_run, hround, Outcome.andThen_eq_ok] at h
    obtain ⟨turn, s', hturn, h⟩ := h
    obtain ⟨item, hi, rfl⟩ := Outcome.map_eq_ok.1 hturn
    rw [hi] at hitem
    cases hitem with
    | @ok _ ys ws hys hmove =>
      subst hys
      rw [afterRound] at h
      split at h
      · next hlt =>
        obtain ⟨is', his, -⟩ := Outcome.map_eq_ok.1 h
        have hrest := ih _ (Stream.size_behind_lt_size_behind.1 hlt)
          (hvs.of_suffix (List.suffix_append ys ws)) his rfl
        rw [Nest.ofRow, Nest.after_append]
        exact (congrArg (·.after ws) (hmove [])).trans hrest
      · cases h

/-- A file that runs out is accepted with closing words behind it. -/
theorem items_unterminated (he : e.token = .eof) {d : Diagnostic} {s : Stream}
    (hs : ((⟨e, []⟩ : Stream).behind us).Ends)
    (h : many (fileRoundAt (room + 1)) ((⟨e, []⟩ : Stream).behind us) = .fail d s)
    (hd : d.kind = .unterminated) :
    ∃ n, RunsOut e us [] [] d n ∧ ∀ cs e', words cs = n.closing.map .keyword → e'.token = .eof →
      ∃ is, many (fileRoundAt (room + 1)) ((⟨e', []⟩ : Stream).behind (us ++ cs)) =
        .ok is ⟨e', []⟩ := by
  induction hn : us.length using Nat.strongRecOn generalizing us s with
  | _ n ih =>
    subst hn
    obtain ⟨ss, vs, rfl, hss, hne, hround, hcases⟩ := many_fileRoundAt_fail he h
    have hvs := hs.of_suffix (List.suffix_append ss vs)
    have hlead : ∀ around, Nest.after ⟨[] ++ around, false⟩ ss = ⟨[] ++ around, false⟩ :=
      fun _ => Nest.after_blockless fun u hu => by rw [hss u hu]; rfl
    have hitem : Tracks e vs [] [] AnyValue (fun t => itemAt (room + 1) (t.behind vs))
        (itemAt (room + 1) ((⟨e, []⟩ : Stream).behind vs)) := tracksAt_itemAt he hvs
    obtain hfail | ⟨item, ws, hws, hlt, hlong, hfail⟩ := hcases
    · rw [hfail] at hitem
      cases hitem with
      | runsOut hout hlong =>
        refine ⟨_, hout.behind hlead, fun cs e' hcs he' => ?_⟩
        obtain ⟨item, -, hitem⟩ := hlong cs ⟨e', []⟩ hcs fun k hk => by cases hk
        have hturn := hround ((⟨e', []⟩ : Stream).behind cs)
        rw [hitem, Outcome.map_ok, ← Stream.behind_append] at hturn
        have hlt : (⟨e', []⟩ : Stream).size <
            ((⟨e', []⟩ : Stream).behind (ss ++ vs ++ cs)).size := by
          rw [Stream.size_behind, List.length_append, List.length_append]
          have hpos := List.length_pos_iff.2 hne
          omega
        exact ⟨[item], by rw [many_item hturn hlt, many_fileRoundAt_end he', Outcome.map_ok]⟩
      | fault hd' =>
        rw [hd'] at hd
        cases hd
    · rw [hlong] at hitem
      obtain ⟨ys, rfl, hmove⟩ := hitem.of_ok
      obtain ⟨n, hout, hclosed⟩ := ih ws.length hlt (hvs.of_suffix hws) hfail rfl
      refine ⟨n, (hout.behind hmove).behind hlead, fun cs e' hcs he' => ?_⟩
      obtain ⟨is, his⟩ := hclosed cs e' hcs he'
      have hturn := hround ((⟨e', []⟩ : Stream).behind cs)
      rw [hlong] at hturn
      rw [Stream.behind_append] at his ⊢
      exact ⟨item :: is, by
        rw [many_item hturn (Stream.size_behind_lt_size_behind.2 hlt), his, Outcome.map_ok]⟩

end Grammar

open Grammar

theorem Stream.ends_behind_end {us : List Located} {e : Located} (he : e.token = .eof)
    (hus : ∀ u ∈ us, u.token ≠ .eof) : ((⟨e, []⟩ : Stream).behind us).Ends := by
  unfold Stream.Ends
  rw [Stream.row_behind]
  exact endsOnce_append_singleton.2 ⟨he, hus⟩

/-- The verdict on a row is that of its rounds before the end. -/
theorem parseFile_append_end (us : List Located) (e : Located) :
    parseFile (us ++ [e]) =
      ((Reader.many (fileRoundAt (127 + 1)) ((⟨e, []⟩ : Stream).behind us)).map
        SourceFile.mk).verdict := by
  have hrow : us ++ [e] = us ++ (⟨e, []⟩ : Stream).row := rfl
  rw [parseFile_eq, fileRound_outcome, hrow, Stream.ofTokens_append_row]
  rfl

/-- A row that runs out inside a block is accepted with closing words before its end. -/
theorem parseFile_unterminated {us : List Located} {e : Located} {d : Diagnostic}
    (he : e.token = .eof) (hus : ∀ u ∈ us, u.token ≠ .eof)
    (h : parseFile (us ++ [e]) = .refused d) (hd : d.kind = .unterminated) :
    (∃ b bs, (Nest.ofRow us).blocks = b :: bs ∧ d = .unterminated e.span b.kind.text b.line) ∧
      ∀ (cs : List Located) (e' : Located), words cs = (Nest.ofRow us).closing.map .keyword →
        e'.token = .eof → ∃ f, parseFile (us ++ cs ++ [e']) = .accepted f := by
  rw [parseFile_append_end] at h
  cases ho : Reader.many (fileRoundAt (127 + 1)) ((⟨e, []⟩ : Stream).behind us) with
  | fail d' s =>
    rw [ho] at h
    obtain rfl : d' = d := by
      cases h
      rfl
    obtain ⟨n, hout, hclosed⟩ := items_unterminated he (Stream.ends_behind_end he hus) ho hd
    have hn : Nest.ofRow us = n := by
      have hnest := hout.nest []
      simpa [Nest.ofRow] using hnest
    rw [hn]
    refine ⟨by simpa using hout.names, fun cs e' hcs he' => ?_⟩
    obtain ⟨is, his⟩ := hclosed cs e' hcs he'
    refine ⟨⟨is⟩, ?_⟩
    rw [parseFile_append_end, his]
    rfl
  | ok is s =>
    rw [ho] at h
    cases h
  | endless =>
    rw [ho] at h
    cases h

/-- A row that is accepted leaves no block open. -/
theorem nest_of_parseFile {us : List Located} {e : Located} {f : SourceFile}
    (he : e.token = .eof) (hus : ∀ u ∈ us, u.token ≠ .eof)
    (h : parseFile (us ++ [e]) = .accepted f) : Nest.ofRow us = ⟨[], false⟩ := by
  rw [parseFile_append_end] at h
  cases ho : Reader.many (fileRoundAt (127 + 1)) ((⟨e, []⟩ : Stream).behind us) with
  | ok is s => exact nest_of_items he (Stream.ends_behind_end he hus) ho
  | fail d s =>
    rw [ho] at h
    cases h
  | endless =>
    rw [ho] at h
    cases h

/-! ## Texts -/

theorem writes_keywords : ∀ ks : List Keyword,
    Writes (" ".intercalate (ks.map Keyword.text)) (ks.map .keyword)
  | [] => .empty
  | [k] => .keyword k
  | k :: k' :: ks => by
    simp only [List.map_cons, String.intercalate_cons_cons]
    exact .after k (writes_keywords (k' :: ks))

/-- A text with more words behind it, on a line of their own. -/
theorem tokenize_append_words {s : String} {us : List Located} {e : Located}
    (h : tokenize s = .ok (us ++ [e])) (ks : List Keyword) :
    ∃ (cs : List Located) (e' : Located),
      tokenize (s ++ "\n" ++ " ".intercalate (ks.map Keyword.text)) = .ok (us ++ cs ++ [e']) ∧
        words cs = ks.map .keyword ∧ e'.token = .eof := by
  obtain ⟨cs, hcs, -, hscan⟩ :=
    (writes_keywords ks).scan ((Place.origin.after s.toList).step '\n') [] (clearBehind_end _)
  rw [List.append_nil, tokensFrom] at hscan
  obtain ⟨e', hread, he'⟩ : ∃ e' : Located, tokensFrom ((Place.origin.after s.toList).step '\n')
      (" ".intercalate (ks.map Keyword.text)).toList = .ok (cs ++ [e']) ∧ e'.token = .eof :=
    ⟨_, hscan, rfl⟩
  refine ⟨cs, e', ?_, hcs, he'⟩
  rw [tokenize_append_newline h, hread, List.append_assoc]
  rfl

/-- A program that is accepted leaves no block open. -/
theorem nest_of_parseSource {s : String} {f : SourceFile} (h : parseSource s = .accepted f) :
    ∃ us e, tokenize s = .ok (us ++ [e]) ∧ Nest.ofRow us = ⟨[], false⟩ := by
  cases hs : tokenize s with
  | error d =>
    rw [parseSource, ofText, hs] at h
    cases h
  | ok ts =>
    obtain ⟨us, e, rfl, he, hus⟩ := tokenize_spec hs
    rw [parseSource, ofText, hs] at h
    exact ⟨us, e, rfl, nest_of_parseFile he (fun u hu => (hus u hu).ne_eof) h⟩

/-- A program that runs out of text inside a block lacks no more than the ends of its open
blocks. The fault stands at the end of the text and names the innermost open block with the
line of its keyword; and with the words that close all of them on one more line, the
innermost first, the program is accepted. -/
theorem parseSource_unterminated {s : String} {d : Diagnostic} (h : parseSource s = .refused d)
    (hd : d.kind = .unterminated) :
    ∃ us e b bs, tokenize s = .ok (us ++ [e]) ∧ e.token = .eof ∧
      (Nest.ofRow us).blocks = b :: bs ∧ d = .unterminated e.span b.kind.text b.line ∧
        ∃ f, parseSource (s ++ "\n" ++ (Nest.ofRow us).closingText) = .accepted f := by
  cases hs : tokenize s with
  | error d' =>
    rw [parseSource, ofText, hs] at h
    cases h
    rw [kind_of_tokensFrom_error hs] at hd
    cases hd
  | ok ts =>
    obtain ⟨us, e, rfl, he, hus⟩ := tokenize_spec hs
    have hfile : parseFile (us ++ [e]) = .refused d := by
      rwa [parseSource, ofText, hs] at h
    obtain ⟨⟨b, bs, hblocks, hdiag⟩, hclosed⟩ :=
      parseFile_unterminated he (fun u hu => (hus u hu).ne_eof) hfile hd
    obtain ⟨cs, e', htext, hcs, he'⟩ := tokenize_append_words hs (Nest.ofRow us).closing
    obtain ⟨f, hf⟩ := hclosed cs e' hcs he'
    refine ⟨us, e, b, bs, rfl, he, hblocks, hdiag, f, ?_⟩
    rw [parseSource, ofText, Nest.closingText, htext]
    exact hf

set_option maxRecDepth 4000 in
/-- The row ends in `end`, and the procedure around the section has no `main` yet. -/
theorem parseSource_unterminated_preconditions :
    ∃ d f, parseSource "procedure P\npreconditions\nif ready then\nend" = .refused d ∧
      d.kind = .unterminated ∧
        parseSource ("procedure P\npreconditions\nif ready then\nend" ++ "\n" ++
          "if end preconditions main end main end procedure") = .accepted f := by
  have ha : parseSource "procedure P\npreconditions\nif ready then\nend" =
      .refused (.unterminated ⟨43, 43, 4, 4⟩ "if" 3) := by
    cbv
  have hwords : (tokenize "procedure P\npreconditions\nif ready then\nend").map
      (fun ts => (Nest.ofRow ts.dropLast).closingText) =
        .ok "if end preconditions main end main end procedure" := by
    cbv
  obtain ⟨us, e, b, bs, htokens, -, -, -, f, hf⟩ := parseSource_unterminated ha rfl
  rw [htokens, Except.map, List.dropLast_concat, Except.ok.injEq] at hwords
  rw [hwords] at hf
  exact ⟨_, f, ha, rfl, hf⟩

/-- The ends of the open blocks are not enough where the innermost is a section before `main` :
the procedure around it needs a `main` too. -/
theorem parseSource_unterminated_without_main :
    ∃ us e d, tokenize "procedure P\npreconditions" = .ok (us ++ [e]) ∧
      parseSource "procedure P\npreconditions" =
        .refused (.unterminated e.span BlockKind.preconditions.text 2) ∧
        (Nest.ofRow us).blocks.map OpenBlock.kind = [.preconditions, .procedure] ∧
          parseSource ("procedure P\npreconditions" ++ "\n" ++
            "end preconditions end procedure") = .refused d := by
  have htokens : tokenize "procedure P\npreconditions" =
      .ok ([⟨.keyword .procedure, ⟨0, 9, 1, 1⟩⟩, ⟨.name "P", ⟨10, 11, 1, 11⟩⟩,
        ⟨.keyword .preconditions, ⟨12, 25, 2, 1⟩⟩] ++ [⟨.eof, ⟨25, 25, 2, 14⟩⟩]) := by
    cbv
  refine ⟨_, _, .expecting ⟨44, 47, 3, 19⟩ ["'main'"] "keyword 'end'", htokens, ?_, ?_, ?_⟩
  · cbv
  · decide
  · cbv

end OpsLang
