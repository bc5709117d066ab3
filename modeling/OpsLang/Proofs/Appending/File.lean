import Mathlib
import OpsLang.Proofs.Appending.Statement
import OpsLang.Proofs.Appending.Text

/-!
# Files with more text behind them

A fault of a file is one of its first item, or it is found behind that item
(`many_fileRoundAt_fail`). So a fault that does not lie at the end of a row is found before any
stream : `persisting_items`, by induction on the row, from what is known of a single item
(`persistsAt_itemAt`). Between two items the end of the row ends the file, so it is there that a
file is not read like its parts.

`parseSource_append` says what this comes to for texts : what is refused before its end is no
beginning of a text that is accepted, unless something in it is too deep. That this exception
is needed is shown by `parseSource_append_too_deep`.
-/

namespace OpsLang

namespace Grammar

open Reader

variable {e : Located} {us : List Located} {room : Nat}

/-! ## Declarations -/

theorem isAboutHere_badSize (lexeme : String) : IsAboutHere fun s => s.badSize lexeme where
  span _ := rfl
  here s s' h := by simp only [Stream.badSize, Stream.token, h]

theorem isAboutHere_bareAlias (n : String) (p : Path) : IsAboutHere fun s => s.bareAlias n p where
  span _ := rfl
  here s s' h := by simp only [Stream.bareAlias, h]

section End

variable (he : e.token = .eof)

include he

theorem persistsAt_namedType : namedType.PersistsAt e us := by
  refine (persistsAt_path he).bind fun p vs _ => ?_
  split
  · split <;> exact .pure _
  · exact .pure _

theorem persistsAt_arraySize : arraySize.PersistsAt e us := by
  refine .peek_ne_ok (fun a s h => ?_) ?_
  · rw [he] at h
    cases h
  cases us with
  | nil =>
    rw [Stream.behind_nil, Stream.token, he]
    exact .refuse _
  | cons u us =>
    split
    · split
      · exact PersistsAt.skip.bind fun _ _ _ => .pure _
      · exact .failAt (isAboutHere_badSize _)
    · exact .refuse _

section Types

variable {inner : Reader TypeExpr} (h : ∀ us, inner.PersistsAt e us)

include h

theorem persistsAt_arrayType : (arrayType inner).PersistsAt e us :=
  (persistsAt_symbol he _).bind fun _ _ _ => (h _).bind fun _ _ _ =>
    (persistsAt_symbol he _).bind fun _ _ _ => (persistsAt_arraySize he).bind fun _ _ _ =>
      (persistsAt_symbol he _).bind fun _ _ _ => .pure _

theorem persistsAt_fieldRound : (fieldRound inner).PersistsAt e us := by
  refine .peek (fun _ t ht => ?_) (.ite (fun _ => .pure _) fun _ => PersistsAt.bind ?_ ?_)
  · simp [ht.ne_symbol, he]
  · exact (persistsAt_member he _).bind fun _ _ _ => (persistsAt_symbol he _).bind fun _ _ _ =>
      (h _).bind fun _ _ _ => .pure _
  · exact fun _ _ _ => (persistsAt_eat he (by simp) (Token.not_parts_symbol _)).bind fun _ _ _ =>
      .ite (fun _ => .pure _) fun _ => .pure _

theorem persistsAt_structType : (structType inner).PersistsAt e us := by
  rw [structType_eq]
  exact (persistsAt_keyword he _).bind fun _ _ _ => (persistsAt_symbol he _).bind fun _ _ _ =>
    PersistsAt.bind (.many fun _ _ => persistsAt_fieldRound he h) fun _ _ _ =>
      (persistsAt_symbol he _).bind fun _ _ _ => .pure _

theorem persistsAt_typeOf : (typeOf inner).PersistsAt e us := by
  refine .peek_ne_ok (fun a s h => ?_) ?_
  · rw [he] at h
    cases h
  split
  · exact persistsAt_structType he h
  · exact persistsAt_arrayType he h
  · exact persistsAt_namedType he
  · exact .refuse _

theorem persistsAt_typeDeclaration {u : Located} :
    (typeDeclaration inner).PersistsAt e (u :: us) := by
  unfold PersistsAt
  simp only [typeDeclaration_run, Stream.advance_behind_cons, Stream.line_behind_cons]
  refine Persists.of_suffix ?_ (List.suffix_cons u us)
  refine PersistsAt.bind (persistsAt_name he _) fun n vs _ =>
    (persistsAt_typeOf he h).bind fun t ws _ => ?_
  cases t with
  | named p => exact .failAt (isAboutHere_bareAlias n p)
  | _ => exact .pure _

end Types

theorem persistsAt_typeAt (room : Nat) (us : List Located) : (typeAt room).PersistsAt e us := by
  induction room generalizing us with
  | zero => exact .tooDeep
  | succ room ih => exact persistsAt_typeOf he ih

section Inner

variable {inner : Reader Declaration} (h : ∀ us, inner.PersistsAt e us)

include h

theorem persistsAt_childRound : (childRound inner).PersistsAt e us := by
  refine (persistsAt_semicolons he).bind fun _ vs _ => .peek_ne_ok (fun a s h => ?_) ?_
  · rw [he] at h
    cases h
  cases vs with
  | nil =>
    rw [Stream.behind_nil, Stream.token, he]
    exact .refuse _
  | cons u vs =>
    split
    · exact PersistsAt.skip.bind fun _ _ _ => .pure _
    · exact (h _).bind fun _ _ _ => .pure _
    · exact (h _).bind fun _ _ _ => .pure _
    · exact .refuse _

theorem persistsAt_namespaceDeclaration {u : Located} :
    (namespaceDeclaration inner).PersistsAt e (u :: us) := by
  unfold PersistsAt
  simp only [namespaceDeclaration_run, Stream.advance_behind_cons, Stream.line_behind_cons]
  refine Persists.of_suffix ?_ (List.suffix_cons u us)
  exact PersistsAt.bind (persistsAt_path he) fun _ _ _ =>
    (persistsAt_symbol he _).bind fun _ _ _ =>
      PersistsAt.bind (.many fun _ _ => persistsAt_childRound he h) fun _ _ _ => .pure _

theorem persistsAt_declarationOf (room : Nat) :
    (declarationOf (typeAt room) inner).PersistsAt e us := by
  refine .peek_ne_ok (fun a s h => ?_) ?_
  · rw [he] at h
    cases h
  cases us with
  | nil =>
    rw [Stream.behind_nil, Stream.token, he]
    exact .refuse _
  | cons u us =>
    split
    · exact persistsAt_namespaceDeclaration he h
    · exact persistsAt_typeDeclaration he (persistsAt_typeAt he room)
    · exact .refuse _

end Inner

theorem persistsAt_declarationAt (room : Nat) (us : List Located) :
    (declarationAt room).PersistsAt e us := by
  induction room generalizing us with
  | zero => exact .tooDeep
  | succ room ih => exact persistsAt_declarationOf he ih room

theorem persistsAt_declaration (room : Nat) : (declaration room).PersistsAt e us :=
  persistsAt_declarationOf he (persistsAt_declarationAt he room) room

/-! ## Procedures and items -/

theorem persistsAt_sectionAt {u : Located} (kind : BlockKind) :
    (sectionAt room kind).PersistsAt e (u :: us) :=
  .here_cons <| PersistsAt.skip.bind fun _ vs _ =>
    (persistsAt_statements he room kind u.line false vs).bind fun _ _ _ =>
      (persistsAt_endOf he kind u.line).bind fun _ _ _ => .pure _

theorem persistsAt_optionalSectionAt {kind : BlockKind}
    (hkind : ¬(Token.keyword kind.closer).Parts) :
    (optionalSectionAt room kind).PersistsAt e us := by
  refine .peek (fun _ t ht => ?_) ?_
  · have hne : t.token ≠ .keyword kind.closer := fun h => hkind (h ▸ ht)
    simp [hne, he]
  cases us with
  | nil =>
    rw [Stream.behind_nil, Stream.token, he]
    exact .pure _
  | cons u us =>
    exact .ite (fun _ => (persistsAt_sectionAt he kind).bind fun _ _ _ => .pure _) fun _ => .pure _

/-- The place of `main`, and what is read from there on. -/
theorem persistsAt_mainAhead {α : Type} {line : Nat} {b : Bool} {r : Reader α}
    (hr : ∀ u us, r.PersistsAt e (u :: us)) :
    (do
      mainAhead line b
      r : Reader α).PersistsAt e us := by
  -- Nothing follows a fault at the place of `main`.
  have hfail : ∀ {d : Stream → Diagnostic}, IsAboutHere d →
      (∀ t : Stream, mainAhead line b (t.behind us) = failAt d (t.behind us)) →
        (do
          mainAhead line b
          r : Reader α).PersistsAt e us := by
    intro d hd hrun
    unfold PersistsAt
    simp only [bind_run, hrun, failAt_run, Outcome.andThen_fail]
    exact PersistsAt.failAt hd
  cases us with
  | nil =>
    have hrun : mainAhead line b ⟨e, []⟩ =
        .fail ((⟨e, []⟩ : Stream).unterminated .procedure line) ⟨e, []⟩ := by
      simp [mainAhead_run, Stream.token, he]
    unfold PersistsAt
    rw [Stream.behind_nil, bind_run, hrun]
    exact .atEnd rfl
  | cons u us =>
    by_cases hmain : u.token = .keyword .main
    · unfold PersistsAt
      simp only [bind_run, mainAhead_run, Stream.token_behind_cons, hmain, Outcome.andThen_ok]
      exact hr u us
    by_cases heof : u.token = .eof
    · refine hfail (isAboutHere_unterminated .procedure line) fun t => ?_
      simp only [mainAhead_run, Stream.token_behind_cons, heof, failAt_run]
    · refine hfail (isAboutHere_expecting
        (if b then ["'main'"] else ["'preconditions'", "'main'"])) fun t => ?_
      rw [mainAhead_run, Stream.token_behind_cons]
      split <;> first | rfl | contradiction

/-- The place of `end`, the end of the procedure, and what is read behind it. -/
theorem persistsAt_endAhead {α : Type} {line : Nat} {b : Bool} {r : Reader α}
    (hr : ∀ vs, r.PersistsAt e vs) :
    (do
      endAhead b
      endOf .procedure line
      r : Reader α).PersistsAt e us := by
  cases us with
  | nil =>
    have hrun : (do
        endAhead b
        endOf .procedure line
        r : Reader α) ⟨e, []⟩ =
          .fail ((⟨e, []⟩ : Stream).unterminated .procedure line) ⟨e, []⟩ := by
      simp [endAhead_run, endOf, Stream.token, he]
    unfold PersistsAt
    rw [Stream.behind_nil, hrun]
    exact .atEnd rfl
  | cons u us =>
    refine PersistsAt.bind (.peek (fun h => absurd h (List.cons_ne_nil _ _)) ?_) fun _ _ _ =>
      (persistsAt_endOf he .procedure line).bind fun _ vs _ => hr vs
    split
    · exact .pure _
    · exact .pure _
    · exact .refuse _

theorem persistsAt_procedureAt : (procedureAt room).PersistsAt e us := by
  cases us with
  | nil =>
    have heof : (⟨e, []⟩ : Stream).token = .eof := he
    have hrun : procedureAt room ⟨e, []⟩ =
        .fail ((⟨e, []⟩ : Stream).expecting ["'" ++ Keyword.procedure.text ++ "'"]) ⟨e, []⟩ := by
      simp [procedureAt, keyword_run, heof]
    unfold PersistsAt
    rw [Stream.behind_nil, hrun]
    exact .atEnd rfl
  | cons u us =>
    refine .here_cons <| (persistsAt_keyword he _).bind fun _ _ _ =>
      (persistsAt_name he _).bind fun n _ _ =>
        (persistsAt_optionalSectionAt he ?_).bind fun pre _ _ =>
          persistsAt_mainAhead he fun _ _ => (persistsAt_sectionAt he .main).bind fun main _ _ =>
            (persistsAt_optionalSectionAt he ?_).bind fun conf vs _ =>
              persistsAt_endAhead he fun _ => .pure _
    · rintro (h | h) <;> cases h
    · rintro (h | h) <;> cases h

theorem persistsAt_itemAt : (itemAt room).PersistsAt e us := by
  refine .peek_ne_ok (fun a s h => ?_) ?_
  · rw [he] at h
    cases h
  split
  · exact (persistsAt_procedureAt he).bind fun _ _ _ => .pure _
  · exact (persistsAt_declaration he room).bind fun _ _ _ => .pure _
  · exact (persistsAt_declaration he room).bind fun _ _ _ => .pure _
  · exact .refuse _

/-! ## Rows -/

omit he in
theorem fileRoundAt_of_eof {s s' : Stream} (h : semicolons s = .ok () s')
    (hs : s'.token = .eof) : fileRoundAt room s = .ok .stop s' := by
  rw [fileRoundAt, bind_run, h]
  simp [hs]

omit he in
theorem fileRoundAt_of_ne_eof {s s' : Stream} (h : semicolons s = .ok () s')
    (hs : s'.token ≠ .eof) : fileRoundAt room s = (itemAt room s').map .item := by
  rw [fileRoundAt, bind_run, h]
  simp only [bind_run, peek_run, Outcome.andThen_ok, ite_run, if_neg hs]
  rfl

/-- Between its items a file is read up to the end of a row. -/
theorem many_fileRoundAt_end : many (fileRoundAt room) ⟨e, []⟩ = .ok [] ⟨e, []⟩ := by
  have heof : (⟨e, []⟩ : Stream).token = .eof := he
  exact many_stop (fileRoundAt_of_eof (semicolons_of_ne (by simp [heof])) heof)

/-- A round of a file passes over semicolons and finds the end of the text, or an item where one
is read before any stream. -/
theorem fileRoundAt_behind_end (room : Nat) (us : List Located) :
    ∃ ss vs, us = ss ++ vs ∧ (∀ u ∈ ss, u.token = .symbol .semicolon) ∧
      (((⟨e, []⟩ : Stream).behind vs).token = .eof ∧
          fileRoundAt room ((⟨e, []⟩ : Stream).behind us) =
            .ok .stop ((⟨e, []⟩ : Stream).behind vs) ∨
        vs ≠ [] ∧ ∀ t : Stream,
          fileRoundAt room (t.behind us) = (itemAt room (t.behind vs)).map .item) := by
  have hclosed : ((⟨e, []⟩ : Stream).behind us).Closed :=
    (Stream.closed_single.2 he).behind us
  obtain ⟨ss, s, hss, hsemi, hall, -⟩ := semicolons_ok hclosed
  have hpersists : semicolons.PersistsAt e us := persistsAt_semicolons he
  unfold PersistsAt at hpersists
  rw [hsemi] at hpersists
  cases hpersists with
  | @ok _ vs hvs hlong =>
    rw [← Stream.behind_append, Stream.behind_inj] at hss
    refine ⟨ss, vs, hss, hall, ?_⟩
    by_cases heof : ((⟨e, []⟩ : Stream).behind vs).token = .eof
    · exact .inl ⟨heof, fileRoundAt_of_eof hsemi heof⟩
    have hne : vs ≠ [] := by
      rintro rfl
      exact heof he
    refine .inr ⟨hne, fun t => ?_⟩
    refine fileRoundAt_of_ne_eof (hlong t fun hnil => absurd hnil hne) ?_
    obtain ⟨v, vs, rfl⟩ := List.exists_cons_of_ne_nil hne
    exact heof
  | deep hdeep =>
    obtain ⟨s', hs'⟩ := hdeep
    cases hs'

/-- A fault of a file is one of its first item, or it is found behind that item, which is then
read before any stream. -/
theorem many_fileRoundAt_fail {d : Diagnostic} {s : Stream}
    (h : many (fileRoundAt room) ((⟨e, []⟩ : Stream).behind us) = .fail d s) :
    ∃ ss vs, us = ss ++ vs ∧ (∀ u ∈ ss, u.token = .symbol .semicolon) ∧ vs ≠ [] ∧
      (∀ t : Stream, fileRoundAt room (t.behind us) = (itemAt room (t.behind vs)).map .item) ∧
      (itemAt room ((⟨e, []⟩ : Stream).behind vs) = .fail d s ∨
        ∃ item ws, ws <:+ vs ∧ ws.length < us.length ∧
          (∀ t : Stream, itemAt room (t.behind vs) = .ok item (t.behind ws)) ∧
          many (fileRoundAt room) ((⟨e, []⟩ : Stream).behind ws) = .fail d s) := by
  obtain ⟨ss, vs, hus, hss, ⟨-, hstop⟩ | ⟨hvs, hround⟩⟩ := fileRoundAt_behind_end he room us
  · rw [many_stop hstop] at h
    cases h
  refine ⟨ss, vs, hus, hss, hvs, hround, ?_⟩
  rw [many_run, hround] at h
  obtain hfail | ⟨turn, s', hturn, h⟩ := Outcome.andThen_eq_fail.1 h
  · exact .inl (Outcome.map_eq_fail.1 hfail)
  obtain ⟨item, hitem, rfl⟩ := Outcome.map_eq_ok.1 hturn
  have hpersists : (itemAt room).PersistsAt e vs := persistsAt_itemAt he
  unfold PersistsAt at hpersists
  rw [hitem] at hpersists
  cases hpersists with
  | @ok _ ws hws hlong =>
    rw [afterRound] at h
    split at h
    · next hlt =>
      have hfail := Outcome.map_eq_fail.1 h
      have hne : ws ≠ [] := by
        rintro rfl
        rw [Stream.behind_nil, many_fileRoundAt_end he] at hfail
        cases hfail
      exact .inr ⟨item, ws, hws, Stream.size_behind_lt_size_behind.1 hlt,
        fun t => hlong t fun hnil => absurd hnil hne, hfail⟩
    · cases h
  | deep hdeep =>
    obtain ⟨s', hs'⟩ := hdeep
    cases hs'

end End

end Grammar

open Grammar

end OpsLang
