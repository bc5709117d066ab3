import OpsLang.Proofs.Appending.Expr

/-!
# Statements on a row with more behind it

What is read as a block before the end of a row is read so before any stream
(`persistsAt_statements`). The one reader that goes back is that of the operand of `confirm`. If
the activity it looks for runs into the end, then so does the condition that is read in its
place, or that is too deep (`expression_fails_of_activityReference`).
-/

namespace OpsLang

namespace Grammar

open Reader

variable {e : Located} {us : List Located} {room : Nat}

/-! ## Confirmed activities and conditions -/

/-- Where an activity has a fault, a condition has the same, or is too deep. -/
theorem expression_fails_of_activityReference {s s' : Stream} {n : String} {d : Diagnostic}
    (hn : s.token = .name n) (h : activityReference (expression room) s = .fail d s') :
    (∃ s'', expression room s = .fail d s'') ∨ (expression room s).IsTooDeep := by
  cases room with
  | zero => exact .inr ⟨s, rfl⟩
  | succ room =>
    suffices hcall : (∃ s'', nameOrCall (binaryAt room 1) s = .fail d s'') ∨
        (nameOrCall (binaryAt room 1) s).IsTooDeep by
      rw [expression, binaryAt, climb, bind_run, operand_of_name hn]
      obtain ⟨s'', hfail⟩ | hdeep := hcall
      · exact .inl ⟨s'', by rw [hfail, Outcome.andThen_fail]⟩
      · exact .inr (hdeep.andThen _)
    rw [activityReference_run] at h
    rw [nameOrCall_run]
    cases hp : path s with
    | ok p s₁ =>
      rw [hp, Outcome.andThen_ok] at h
      rw [Outcome.andThen_ok]
      split at h
      · next hparen =>
        have hdeeper := arguments_restricts (expression_restricts (Nat.le_succ room))
        rw [if_pos hparen]
        obtain heq | hdeep := hdeeper s₁
        · refine .inl ⟨s', ?_⟩
          rw [← expression, heq, Outcome.map_eq_fail.1 h]
          rfl
        · exact .inr (hdeep.map _)
      · cases h
    | fail d₁ s₁ =>
      rw [hp] at h
      cases h
      exact .inl ⟨s', rfl⟩
    | endless =>
      rw [hp] at h
      cases h

theorem isAboutHere_unterminated (kind : BlockKind) (line : Nat) :
    IsAboutHere fun s => s.unterminated kind line where
  span _ := rfl
  here s s' h := by simp only [Stream.unterminated, h]

section End

variable (he : e.token = .eof)

include he

theorem persistsAt_activityReference :
    (activityReference (expression room)).PersistsAt e us := by
  refine (persistsAt_path he).bind fun p vs _ => .peek (fun _ t ht => ?_) (.ite ?_ fun _ => ?_)
  · simp [ht.ne_symbol, he]
  · exact fun _ => (persistsAt_arguments he (persistsAt_expression he room)).bind
      fun _ _ _ => .pure _
  · exact .pure _

theorem persistsAt_confirmCondition (line : Nat) :
    (confirmCondition (expression room) line).PersistsAt e us :=
  (persistsAt_expression he room us).bind fun _ _ _ => .pure _

section Named

variable {v : Located} {n : String} (hv : v.token = .name n) (line : Nat)

include hv

/-- An activity that was read behind `confirm` is the operand, unless an operator follows. -/
theorem persists_confirmOperand_of_ok {p : Path} {as : List Argument} {vs : List Located}
    (hvs : vs <:+ v :: us)
    (h : ∀ t : Stream, (vs = [] → t.token.Parts) →
      activityReference (expression room) (t.behind (v :: us)) = .ok (p, as) (t.behind vs))
    (ho : activityReference (expression room) ((⟨e, []⟩ : Stream).behind (v :: us)) =
      .ok (p, as) ((⟨e, []⟩ : Stream).behind vs)) :
    (confirmOperand (expression room) line).PersistsAt e (v :: us) := by
  have hns : ∀ t : Stream, (t.behind (v :: us)).token = .name n := fun _ => hv
  unfold PersistsAt
  rw [confirmOperand_of_ok (hns _) ho]
  cases vs with
  | nil =>
    have heof : ((⟨e, []⟩ : Stream).behind []).token = .eof := he
    rw [heof, if_neg (by simp [BinaryOp.ofToken?])]
    refine .ok List.nil_suffix fun t ht => ?_
    rw [confirmOperand_of_ok (hns _) (h t ht), Stream.behind_nil, (ht rfl).binaryOp_eq_none]
    rfl
  | cons w ws =>
    have hlong : ∀ t : Stream, activityReference (expression room) (t.behind (v :: us)) =
        .ok (p, as) (t.behind (w :: ws)) :=
      fun t => h t fun hnil => absurd hnil (List.cons_ne_nil _ _)
    simp only [confirmOperand_of_ok (hns _) (hlong _), Stream.token_behind_cons]
    by_cases hop : (BinaryOp.ofToken? w.token).isSome
    · simp only [hop, if_true]
      exact persistsAt_confirmCondition he line
    · simp only [hop]
      exact .ok hvs fun _ _ => rfl

omit he in
/-- An activity with a fault inside the row has one before any stream, so that a condition is
read instead. -/
theorem persists_confirmOperand_of_fail {d : Diagnostic} {s : Stream}
    (hcondition : (confirmCondition (expression room) line).PersistsAt e (v :: us))
    (h : ∀ t, Persisting (v :: us) d t
      (activityReference (expression room) (t.behind (v :: us))))
    (ho : activityReference (expression room) ((⟨e, []⟩ : Stream).behind (v :: us)) =
      .fail d s) :
    (confirmOperand (expression room) line).PersistsAt e (v :: us) := by
  have hns : ∀ t : Stream, (t.behind (v :: us)).token = .name n := fun _ => hv
  unfold PersistsAt
  rw [confirmOperand_of_fail (hns _) ho]
  refine hcondition.congr fun t _ => ?_
  obtain ⟨d', s', hfail⟩ : ∃ d' s',
      activityReference (expression room) (t.behind (v :: us)) = .fail d' s' := by
    cases h t with
    | same hs => exact ⟨_, _, hs⟩
    | moved _ _ _ hdeep =>
      obtain ⟨s', hs⟩ := hdeep
      exact ⟨_, s', hs⟩
  exact confirmOperand_of_fail (hns _) hfail

/-- The operand of `confirm` where a name stands. Where the activity runs into the end, so does
the condition that is read in its place, unless that is too deep. -/
theorem persists_confirmOperand_of_name {u : Located} (hu : u.token = .keyword .confirm) :
    Persists e (u :: v :: us)
      (fun t => confirmOperand (expression room) line (t.behind (v :: us)))
      (confirmOperand (expression room) line ((⟨e, []⟩ : Stream).behind (v :: us))) := by
  have hcondition : (confirmCondition (expression room) line).PersistsAt e (v :: us) :=
    persistsAt_confirmCondition he line
  have hactivity : (activityReference (expression room)).PersistsAt e (v :: us) :=
    persistsAt_activityReference he
  have hs : ((⟨e, []⟩ : Stream).behind (v :: us)).token = .name n := hv
  have hsuffix := List.suffix_cons u (v :: us)
  unfold PersistsAt at hactivity
  generalize ho : activityReference (expression room)
    ((⟨e, []⟩ : Stream).behind (v :: us)) = o at hactivity
  cases hactivity with
  | @ok pas vs hvs h => exact (persists_confirmOperand_of_ok he hv line hvs h ho).of_suffix hsuffix
  | @atEnd d s hd =>
    rw [confirmOperand_of_fail hs ho]
    obtain ⟨s', hfail⟩ | hdeep := expression_fails_of_activityReference hs ho
    · have hfail' : confirmCondition (expression room) line
          ((⟨e, []⟩ : Stream).behind (v :: us)) = .fail d s' :=
        Outcome.map_eq_fail.2 hfail
      rw [hfail']
      exact .atEnd hd
    · exact .deep (hdeep.map _) ⟨[], u, v :: us, room, d, s, rfl, hu, ho, hd⟩
  | before hne h =>
    exact (persists_confirmOperand_of_fail hv line hcondition h ho).of_suffix hsuffix
  | deep hdeep hopen =>
    obtain ⟨s, rfl⟩ := hdeep
    rw [confirmOperand_of_fail hs ho]
    have hcond := expression_tooDeep_of_activityReference hs ⟨s, ho⟩
    exact .deep (hcond.map _) (hopen.of_suffix hsuffix)
  | endless =>
    have hend : confirmOperand (expression room) line
        ((⟨e, []⟩ : Stream).behind (v :: us)) = .endless := by
      simp only [confirmOperand, Stream.token_behind_cons, hv, ho]
    rw [hend]
    exact .endless

end Named

/-- The operand of `confirm` on what stands behind it. -/
theorem persistsAt_confirm {u : Located} (hu : u.token = .keyword .confirm) (line : Nat) :
    (confirm (expression room) line).PersistsAt e (u :: us) := by
  have hcondition : (confirmCondition (expression room) line).PersistsAt e us :=
    persistsAt_confirmCondition he line
  have hsuffix := List.suffix_cons u us
  unfold PersistsAt
  simp only [confirm, bind_run, skip_run, Outcome.andThen_ok, Stream.advance_behind_cons]
  cases us with
  | nil =>
    have hend : confirmOperand (expression room) line ⟨e, []⟩ =
        confirmCondition (expression room) line ⟨e, []⟩ := by
      have heof : (⟨e, []⟩ : Stream).token = .eof := he
      simp [confirmOperand, heof]
    have hproceeds : (confirmCondition (expression room) line).Proceeds :=
      (proceeds_expression room).bind fun _ => halts_pure _
    rw [Stream.behind_nil, hend]
    exact (hcondition.of_ne_ok (hproceeds.ne_ok he)).of_suffix hsuffix
  | cons v us =>
    by_cases hname : ∃ n, v.token = .name n
    · obtain ⟨n, hv⟩ := hname
      exact persists_confirmOperand_of_name he hv line hu
    · have hrun : ∀ t : Stream, confirmOperand (expression room) line (t.behind (v :: us)) =
          confirmCondition (expression room) line (t.behind (v :: us)) := by
        intro t
        unfold confirmOperand
        split
        · next n hn => exact absurd ⟨n, hn⟩ hname
        · rfl
      simp only [hrun]
      exact hcondition.of_suffix hsuffix

/-! ## Other statements without blocks -/

theorem persistsAt_initiate {u : Located} (line : Nat) :
    (initiate (expression room) line).PersistsAt e (u :: us) := by
  refine PersistsAt.skip.bind fun _ _ _ =>
    (persistsAt_eat he (by simp) ?_).bind fun _ _ _ => .ite (fun _ => ?_) fun _ => ?_
  · rintro (h | h) <;> cases h
  · exact (persistsAt_keyword he _).bind fun _ _ _ =>
      (persistsAt_activityReference he).bind fun _ _ _ => .pure _
  · exact (persistsAt_activityReference he).bind fun _ _ _ => .pure _

theorem persistsAt_wait {u : Located} (line : Nat) :
    (wait (expression room) line).PersistsAt e (u :: us) :=
  PersistsAt.skip.bind fun _ _ _ => (persistsAt_keyword he _).bind fun _ _ _ =>
    (persistsAt_expression he room _).bind fun _ _ _ => .pure _

theorem persistsAt_plainStatement (line : Nat) :
    (plainStatement (expression room) line).PersistsAt e us := by
  by_cases hkeyword : ∃ k, ((⟨e, []⟩ : Stream).behind us).token = .keyword k ∧ k ≠ .not
  · obtain ⟨k, hk, hnot⟩ := hkeyword
    cases us with
    | nil => cases he.symm.trans hk
    | cons u us =>
      have hrun : ∀ t : Stream, plainStatement (expression room) line (t.behind (u :: us)) =
          refuse ["statement"] (t.behind (u :: us)) := by
        intro t
        have hu : u.token = .keyword k := hk
        rw [plainStatement_run, Stream.token_behind_cons, hu]
        cases k <;> first | rfl | exact absurd rfl hnot
      unfold PersistsAt
      simp only [hrun]
      exact PersistsAt.refuse _
  · refine persistsAt_of_assigns he (f := fun n v => .assign n v line)
      (g := fun v => .expr v line) (persistsAt_expression he room) ?_ ?_
    · rintro n t ⟨hn, ha⟩
      simp [plainStatement_run, hn, ha]
    · intro t ht h
      rw [plainStatement_run]
      split
      · next n hn ha => exact absurd ⟨hn, ha⟩ (h n)
      · rfl
      · next k hnot hk => exact absurd ⟨k, ht.symm.trans hk, hnot⟩ hkeyword
      · rfl

/-! ## Statements with blocks -/

theorem persistsAt_semicolons : semicolons.PersistsAt e us :=
  PersistsAt.bind (.many fun _ _ => (persistsAt_eat he (by simp)
    (Token.not_parts_symbol _)).bind fun _ _ _ => .ite (fun _ => .pure _) fun _ => .pure _)
    fun _ _ _ => .pure _

omit he in
/-- Where no word that ends a block stands, nor the end of the text. -/
theorem endOf_of_ne {kind : BlockKind} {line : Nat} {s : Stream}
    (hend : s.token ≠ .keyword .end_) (heof : s.token ≠ .eof) :
    endOf kind line s = .fail (s.expecting [endText kind.closer.text]) s := by
  unfold endOf
  split <;> first | rfl | contradiction

omit he in
theorem endOf_of_end {kind : BlockKind} {line : Nat} {s : Stream}
    (hend : s.token = .keyword .end_) :
    endOf kind line s =
      match s.next with
      | .keyword k =>
        if k = kind.closer then .ok () s.advance.advance
        else .fail (.expecting s.here.span [endText kind.closer.text] (endText k.text))
          s.advance.advance
      | .eof => .fail (s.advance.unterminated kind line) s.advance
      | other =>
        .fail (.expecting s.here.span [endText kind.closer.text] (endText other.lexeme))
          s.advance := by
  unfold endOf
  rw [hend]
  cases s.next <;> rfl

omit he in
theorem persistsAt_endOf_of_ne (kind : BlockKind) (line : Nat) {u : Located}
    (hend : u.token ≠ .keyword .end_) : (endOf kind line).PersistsAt e (u :: us) := by
  by_cases hu : u.token = .eof
  · refine .of_fail (d := fun t => (t.behind (u :: us)).unterminated kind line)
      (g := (·.behind (u :: us))) (List.cons_ne_nil _ _) (fun _ _ => rfl) fun t => ?_
    simp only [endOf, Stream.token_behind_cons, hu]
  · exact .of_fail (List.cons_ne_nil _ _) (fun _ _ => rfl) fun t =>
      endOf_of_ne (s := t.behind (u :: us)) hend hu

/-- The end of a block is read by its two words. With the first of them alone it runs into the
end of the row. -/
theorem persistsAt_endOf (kind : BlockKind) (line : Nat) :
    (endOf kind line).PersistsAt e us := by
  cases us with
  | nil =>
    have hrun : endOf kind line ⟨e, []⟩ =
        .fail ((⟨e, []⟩ : Stream).unterminated kind line) ⟨e, []⟩ := by
      simp [endOf, Stream.token, he]
    unfold PersistsAt
    rw [Stream.behind_nil, hrun]
    exact .atEnd rfl
  | cons u us =>
    by_cases hend : u.token = .keyword .end_
    · cases us with
      | nil =>
        have hrun : endOf kind line ((⟨e, []⟩ : Stream).behind [u]) =
            .fail ((⟨e, []⟩ : Stream).unterminated kind line) ⟨e, []⟩ := by
          have heof : (⟨e, []⟩ : Stream).token = .eof := he
          simp [endOf, hend, heof]
        unfold PersistsAt
        rw [hrun]
        exact .atEnd rfl
      | cons v us =>
        have hrun : ∀ t : Stream, endOf kind line (t.behind (u :: v :: us)) = _ :=
          fun _ => endOf_of_end hend
        simp only [Stream.next_behind_cons, Stream.token_behind_cons,
          Stream.advance_behind_cons] at hrun
        cases hv : v.token with
        | keyword k =>
          simp only [hv] at hrun
          by_cases hk : k = kind.closer
          · simp only [hk, if_true] at hrun
            unfold PersistsAt
            rw [hrun]
            exact .ok ((List.suffix_cons v us).trans (List.suffix_cons u _)) fun t _ => hrun t
          · simp only [hk, if_false] at hrun
            exact .of_fail (List.cons_ne_nil _ _) (fun _ _ => rfl) hrun
        | _ =>
          simp only [hv] at hrun
          exact .of_fail (List.cons_ne_nil _ _) (fun _ _ => rfl) hrun
    · exact persistsAt_endOf_of_ne kind line hend

section Blocks

variable {block : BlockReader}
  (hb : ∀ kind line stop us, (block kind line stop).outcome.PersistsAt e us) (line : Nat)

include hb

theorem persistsAt_branch : (branch (expression room) block line).outcome.PersistsAt e us := by
  simp only [branch, Reporter.outcome_bind, Reporter.outcome_liftM, Reporter.outcome_ite,
    Reporter.outcome_pure]
  refine (persistsAt_expression he room us).bind fun _ _ _ =>
    (persistsAt_keyword he _).bind fun _ _ _ => (hb _ _ _ _).bind fun _ _ _ =>
      (persistsAt_eat he (by simp) ?_).bind fun _ _ _ => .ite (fun _ => .pure _) fun _ => .pure _
  rintro (h | h) <;> cases h

theorem persistsAt_otherwise : (otherwise block line).outcome.PersistsAt e us := by
  simp only [otherwise, Reporter.outcome_bind, Reporter.outcome_liftM, Reporter.outcome_ite,
    Reporter.outcome_pure]
  refine (persistsAt_eat he (by simp) ?_).bind fun _ _ _ =>
    .ite (fun _ => (hb _ _ _ _).bind fun _ _ _ => .pure _) fun _ => .pure _
  rintro (h | h) <;> cases h

theorem persistsAt_conditional {u : Located} :
    (conditional (expression room) block line).outcome.PersistsAt e (u :: us) := by
  simp only [conditional, Reporter.outcome_bind, Reporter.outcome_liftM,
    Reporter.outcome_many_bind, Reporter.outcome_pure]
  exact PersistsAt.skip.bind fun _ _ _ =>
    PersistsAt.bind (.many fun _ _ => persistsAt_branch he hb line) fun _ _ _ =>
      (persistsAt_otherwise he hb line).bind fun _ _ _ =>
        (persistsAt_endOf he _ _).bind fun _ _ _ => .pure _

theorem persistsAt_whileLoop {u : Located} :
    (whileLoop (expression room) block line).outcome.PersistsAt e (u :: us) := by
  simp only [whileLoop, Reporter.outcome_bind, Reporter.outcome_liftM, Reporter.outcome_pure]
  exact PersistsAt.skip.bind fun _ _ _ => (persistsAt_expression he room _).bind fun _ _ _ =>
    (persistsAt_keyword he _).bind fun _ _ _ => (hb _ _ _ _).bind fun _ _ _ =>
      (persistsAt_endOf he _ _).bind fun _ _ _ => .pure _

theorem persistsAt_forLoop {u : Located} :
    (forLoop (expression room) block line).outcome.PersistsAt e (u :: us) := by
  simp only [forLoop, Reporter.outcome_bind, Reporter.outcome_liftM, Reporter.outcome_pure]
  exact PersistsAt.skip.bind fun _ _ _ => (persistsAt_name he _).bind fun _ _ _ =>
    (persistsAt_keyword he _).bind fun _ _ _ => (persistsAt_expression he room _).bind
      fun _ _ _ => (persistsAt_keyword he _).bind fun _ _ _ => (hb _ _ _ _).bind fun _ _ _ =>
        (persistsAt_endOf he _ _).bind fun _ _ _ => .pure _

theorem persistsAt_bareStatement :
    (bareStatement (expression room) block line).outcome.PersistsAt e us := by
  simp only [bareStatement, Reporter.outcome_bind, Reporter.outcome_liftM]
  refine .peek_ne_ok (fun a s h => ?_) ?_
  · rw [he] at h
    exact (proceeds_plainStatement (proceeds_expression room) line).ne_ok he a s h
  cases us with
  | nil =>
    rw [Stream.behind_nil, Stream.token, he]
    exact persistsAt_plainStatement he line
  | cons u us =>
    split
    · exact persistsAt_initiate he line
    · next hu => exact persistsAt_confirm he hu line
    · exact persistsAt_wait he line
    · exact persistsAt_conditional he hb line
    · exact persistsAt_whileLoop he hb line
    · exact persistsAt_forLoop he hb line
    · exact persistsAt_plainStatement he line

omit line in
theorem persistsAt_statement
    (hhalts : ∀ kind line stop, (block kind line stop).outcome.Halts) :
    (statement (expression room) block).outcome.PersistsAt e us := by
  simp only [statement, Reporter.outcome_bind, Reporter.outcome_liftM, Reporter.outcome_pure]
  refine .here he (fun u => ?_) fun u => ?_
  · exact (proceeds_bareStatement (proceeds_expression room) hhalts _).bind fun _ =>
      (halts_eat _).bind fun _ => halts_pure _
  · exact (persistsAt_bareStatement he hb _).bind fun _ _ _ =>
      (persistsAt_eat he (by simp) (Token.not_parts_symbol _)).bind fun _ _ _ => .pure _

end Blocks

theorem persistsAt_round {st : Reporter Statement} (hst : ∀ us, st.outcome.PersistsAt e us)
    (kind : BlockKind) (line : Nat) (stopAtBranch : Bool) :
    (round .strict kind line stopAtBranch st).outcome.PersistsAt e us := by
  simp only [round, Reporter.outcome_bind, Reporter.outcome_liftM, Reporter.outcome_ite,
    Reporter.outcome_pure, attempt_strict]
  refine (persistsAt_semicolons he).bind fun _ vs _ => .peek_ne_ok (fun a s h => ?_) ?_
  · rw [he] at h
    cases h
  · exact .ite (fun _ => .failAt (isAboutHere_unterminated kind line)) fun _ =>
      .ite (fun _ => .pure _) fun _ => (hst vs).bind fun _ _ _ => .pure _

/-- What is read as a block before the end of a row is read so before any stream. -/
theorem persistsAt_statements : ∀ (room : Nat) (kind : BlockKind) (line : Nat)
    (stopAtBranch : Bool) (us : List Located),
    (statements .strict room kind line stopAtBranch).outcome.PersistsAt e us
  | 0, _, _, _, _ => .tooDeep
  | room + 1, kind, line, stopAtBranch, us => by
    rw [statements, Reporter.outcome_many]
    exact .many fun _ _ => persistsAt_round he
      (fun _ => persistsAt_statement he (persistsAt_statements room)
        (halts_statements .strict room)) kind line stopAtBranch

end End

end Grammar

end OpsLang
