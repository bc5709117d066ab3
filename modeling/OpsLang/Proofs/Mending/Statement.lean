import OpsLang.Proofs.Locality

/-!
# Statements of mended rows

An expression is read in the same way before a semicolon (`local_expression`), so also if what
stands behind it is skipped. The same holds of a statement without the semicolon behind it
(`mends_bareStatement`).

A block that is read with recovery is read strictly from the mended row
(`mends_statements`). The induction is on the statements of the block : the tokens from the
start of a statement with a fault up to where reading goes on are skipped as one piece. The
semicolon in their place may be taken by the statement before them. It is passed over
otherwise, so it makes no difference to the rest of the block (`many_of_semicolon`).
-/

namespace OpsLang

namespace Grammar

open Reader

variable {s s' : Stream} {room : Nat}

/-! ## Ends of blocks -/

/-- The end of a block is read by its two words. -/
theorem mends_endOf (kind : BlockKind) (line : Nat) :
    Mends .firm .loose (endOf kind line) (endOf kind line) := by
  intro s hs _ s' hr
  obtain ⟨hend, hnext, rfl⟩ := endOf_eq_ok.1 hr
  have hadv : s.advance.token = .keyword kind.closer :=
    (Stream.token_advance_of_next (by simp [hnext])).trans hnext
  refine ⟨[.kept s.here, .kept s.advance.here],
    (hs.behind_two (by simp [hend]) (by simp [hadv])).symm, fun us t hus _ _ => ?_⟩
  obtain ⟨_, hvs, rfl⟩ := Piece.mended_kept_cons.1 hus
  obtain ⟨_, ⟨⟩, rfl⟩ := Piece.mended_kept_cons.1 hvs
  exact ⟨rfl, endOf_eq_ok.2 ⟨hend, hadv, by simp⟩⟩

/-! ## Statements with blocks -/

section Blocks

variable {block block' : BlockReader}
  (hb : ∀ kind line stop,
    Mends .loose .firm (block kind line stop).outcome (block' kind line stop).outcome)
  (line : Nat)

include hb

theorem mends_branch :
    Mends .firm .firm (branch (expression room) block line).outcome
      (branch (expression room) block' line).outcome := by
  simp only [branch, Reporter.outcome_bind, Reporter.outcome_liftM, Reporter.outcome_ite,
    Reporter.outcome_pure]
  exact (local_expression room).mends.bind fun _ => (mends_keyword _).bind fun _ =>
    (hb _ _ _).bind fun _ => .ifEat (by simp) (by simp) (mends_pure _) (mends_pure _)

theorem mends_otherwise :
    Mends .firm .firm (otherwise block line).outcome (otherwise block' line).outcome := by
  simp only [otherwise, Reporter.outcome_bind, Reporter.outcome_liftM, Reporter.outcome_ite,
    Reporter.outcome_pure]
  exact .ifEat (by simp) (by simp) ((hb _ _ _).bind fun _ => mends_pure _) (mends_pure _)

/-- A statement without the semicolon behind it is read in the same way from the mended row,
if the blocks in it are. -/
theorem mends_bareStatement :
    Mends .firm .loose (bareStatement (expression room) block line).outcome
      (bareStatement (expression room) block' line).outcome := by
  have hexpr := (local_expression room).mends
  simp only [bareStatement, Reporter.outcome_bind, Reporter.outcome_liftM]
  refine fun s hs => .peek ?_
  split
  · next ht => exact (localAt_initiate line hs.closed.hasEnd (by simp [ht])).mendsAt
  · next ht => exact (localAt_confirm line hs.closed.hasEnd (by simp [ht])).mendsAt
  · next ht => exact (localAt_wait line hs.closed.hasEnd (by simp [ht])).mendsAt
  · next ht =>
    simp only [conditional, Reporter.outcome_bind, Reporter.outcome_liftM,
      Reporter.outcome_many_bind, Reporter.outcome_pure]
    exact .skip hs (by simp [ht]) (((mends_branch hb line).many.bind fun _ =>
      (mends_otherwise hb line).bind fun _ => (mends_endOf _ _).bind fun _ =>
        mends_pure _) hs.advance)
  · next ht =>
    simp only [whileLoop, Reporter.outcome_bind, Reporter.outcome_liftM, Reporter.outcome_pure]
    exact .skip hs (by simp [ht]) ((hexpr.bind fun _ => (mends_keyword _).bind fun _ =>
      (hb _ _ _).bind fun _ => (mends_endOf _ _).bind fun _ => mends_pure _) hs.advance)
  · next ht =>
    simp only [forLoop, Reporter.outcome_bind, Reporter.outcome_liftM, Reporter.outcome_pure]
    exact .skip hs (by simp [ht]) (((mends_name _).bind fun _ => (mends_keyword _).bind fun _ =>
      hexpr.bind fun _ => (mends_keyword _).bind fun _ => (hb _ _ _).bind fun _ =>
        (mends_endOf _ _).bind fun _ => mends_pure _) hs.advance)
  · exact (local_plainStatement line).mends hs

end Blocks

/-! ## Blocks -/

section Rounds

variable {expr : Reader Expr} {block block' : BlockReader} (he : expr.Proceeds)
  (hb : ∀ kind line stop, (block kind line stop).outcome.Halts)
  (hb' : ∀ kind line stop, (block' kind line stop).outcome.Halts)
  (hbare : ∀ line, Mends .firm .loose (bareStatement expr block line).outcome
    (bareStatement expr block' line).outcome)

include hbare in
/-- A statement takes the semicolon behind it, also if that stands for a skipped piece. -/
theorem statement_mended {a : Statement} (hs : s.Ends)
    (hr : (statement expr block).outcome s = .ok a s') :
    ∃ ps, s = s'.behind (Piece.row ps) ∧
      ∀ ⦃us t⦄, Piece.Mended ps us → t.Closed → Seam.loose.Joins s' t →
        Seam.firm.Joins s (t.behind us) ∧
          ∃ t', (statement expr block').outcome (t.behind us) = .ok a t' ∧
            (t' = t ∨ t.token = .symbol .semicolon ∧ t' = t.advance) := by
  rw [statement_run, Outcome.andThen_eq_ok] at hr
  obtain ⟨st, s₁, hst, hr⟩ := hr
  obtain ⟨ps, hps, hmend⟩ := hbare s.line hs hst
  have hbehind : ∀ ⦃us t⦄, Piece.Mended ps us → t.Closed → Seam.loose.Joins s₁ t →
      Seam.firm.Joins s (t.behind us) ∧ (statement expr block').outcome (t.behind us) =
        if t.token = .symbol .semicolon then .ok st t.advance else .ok st t := by
    intro us t hus ht hk
    obtain ⟨hj, hrun⟩ := hmend hus ht hk
    have hline : (t.behind us).line = s.line := congrArg Located.line hj
    exact ⟨hj, by rw [statement_run, hline, hrun, Outcome.andThen_ok]⟩
  split at hr
  · next hsemi =>
    obtain ⟨rfl, rfl⟩ := Outcome.ok.inj hr
    have hs₁ : s₁.Ends := by
      rw [hps] at hs
      exact hs.of_behind
    refine ⟨ps ++ [Piece.kept s₁.here], ?_, fun us t hus ht hk => ?_⟩
    · have hrow : Piece.row [.kept s₁.here] = [s₁.here] := rfl
      rw [Piece.row_append, hrow, Stream.behind_append, hs₁.behind_here (by simp [hsemi]), ← hps]
    · obtain ⟨vs, ws, hvs, hws, rfl⟩ := Piece.mended_append.1 hus
      obtain ⟨_, ⟨⟩, rfl⟩ := Piece.mended_kept_cons.1 hws
      obtain ⟨hj, hrun⟩ := hbehind hvs (ht.behind [s₁.here]) (.inl rfl)
      have htoken : (t.behind [s₁.here]).token = .symbol .semicolon := hsemi
      rw [if_pos htoken, Stream.advance_behind_cons, Stream.behind_nil] at hrun
      rw [Stream.behind_append]
      exact ⟨hj, t, hrun, .inl rfl⟩
  · obtain ⟨rfl, rfl⟩ := Outcome.ok.inj hr
    refine ⟨ps, hps, fun us t hus ht hk => ?_⟩
    obtain ⟨hj, hrun⟩ := hbehind hus ht hk
    refine ⟨hj, ?_⟩
    split at hrun
    · next hsemi => exact ⟨_, hrun, .inr ⟨hsemi, rfl⟩⟩
    · exact ⟨_, hrun, .inl rfl⟩

include he hb hb' hbare in
/-- A statement that is kept in front of the rest of a block. -/
theorem round_mended {kind : BlockKind} {line : Nat} {stopAtBranch : Bool} {a : Statement}
    {as : List Statement} {s₁ : Stream} (hs : s.Ends) (hne : s.token ≠ .symbol .semicolon)
    (heof : s.token ≠ .eof) (hend : endsRun stopAtBranch s.token = false)
    (hr : (statement expr block).outcome s = .ok a s₁)
    (h : s₁.Ends → RestMended
      (round .strict kind line stopAtBranch (statement expr block')).outcome s₁ as s') :
    RestMended (round .strict kind line stopAtBranch (statement expr block')).outcome
      s (a :: as) s' := by
  have hpast := proceeds_statement he hb s hs.closed
  rw [hr] at hpast
  obtain ⟨ps, hps, hmend⟩ := statement_mended hbare hs hr
  refine (h (hpast.1.ends hs)).item (fun _ => round_run ..)
    (turns_round .strict kind line stopAtBranch (proceeds_statement he hb')) hps
    fun us t hus ht hk => ?_
  obtain ⟨hj, t', hrun, ht'⟩ := hmend hus ht hk
  refine ⟨t', ?_, ht'⟩
  have htoken := hj.token_eq
  rw [round_run, semicolons_of_ne (by rwa [htoken]), Outcome.andThen_ok, htoken, if_neg heof,
    if_neg (by simp [hend]), attempt_run, hrun]

include he hb hb' in
/-- A statement with a fault in front of the rest of a block : the tokens up to where reading
goes on are skipped as one piece. -/
theorem fault_mended {kind : BlockKind} {line : Nat} {stopAtBranch : Bool} {d : Diagnostic}
    {as : List Statement} {s₁ s₂ : Stream} (hs : s.Ends) (heof : s.token ≠ .eof)
    (hend : endsRun stopAtBranch s.token = false)
    (hr : (statement expr block).outcome s = .fail d s₁)
    (hres : resume s d.span.line stopAtBranch s₁ = .ok () s₂)
    (h : s₂.Ends → RestMended
      (round .strict kind line stopAtBranch (statement expr block')).outcome s₂ as s') :
    RestMended (round .strict kind line stopAtBranch (statement expr block')).outcome s as s' := by
  have hreach := proceeds_statement he hb s hs.closed
  rw [hr] at hreach
  have hpast := resume_past d.span.line hs.closed hreach heof hend
  rw [hres] at hpast
  obtain ⟨u, us, rfl⟩ := hpast.1.eq_behind_cons hpast.2
  exact (h hs.of_behind).behind_skipped (fun _ => round_run ..)
    (turns_round .strict kind line stopAtBranch (proceeds_statement he hb'))

include he hb hb' hbare in
/-- The statements of a block are read strictly from the mended row, in which each statement
with a fault is skipped up to where reading goes on. -/
theorem mends_rounds (kind : BlockKind) (line : Nat) (stopAtBranch : Bool) :
    Mends .loose .firm
      (many (round .recovering kind line stopAtBranch (statement expr block)).outcome)
      (many (round .strict kind line stopAtBranch (statement expr block')).outcome) := by
  have hround : ∀ t, (round .strict kind line stopAtBranch (statement expr block')).outcome t = _ :=
    fun t => round_run (s := t) ..
  have hturns := turns_round .strict kind line stopAtBranch (proceeds_statement he hb')
  intro s hs as s' hr
  suffices h : RestMended (round .strict kind line stopAtBranch (statement expr block')).outcome
      s as s' by
    obtain ⟨ps, rfl, hmend⟩ := h
    exact ⟨ps, rfl, fun us t hus ht hk => ⟨hk.loose.behind hus, hmend hus ht hk⟩⟩
  refine many_cases (motive := fun s as s' => s.Ends →
    RestMended (round .strict kind line stopAtBranch (statement expr block')).outcome s as s')
    ?stop ?pass ?item ?last hr hs
  case stop =>
    intro s s' hr hs
    obtain ⟨s₁, hsemi, ⟨-, rfl, hend⟩ | ⟨-, -, ⟨a, ht, -⟩ | ⟨-, ht, -⟩⟩⟩ := round_ok_cases hr
    · obtain ⟨ws, rfl, hws, hne⟩ := semicolons_eq_ok hs.closed hsemi
      refine RestMended.behind_semicolons hround hturns hws (.stop fun t hk => ?_)
      have heof : s'.token ≠ .eof := fun he => by simp [he, endsRun] at hend
      rw [hround, semicolons_of_ne (by rwa [hk.token_eq]), Outcome.andThen_ok, hk.token_eq,
        if_neg heof, if_pos hend]
    · cases ht
    · cases ht
  case item =>
    intro s a s₂ as s' hr _ ih hs
    obtain ⟨s₁, hsemi, ⟨ht, -⟩ | ⟨heof, hend, ⟨a, ⟨⟩, hst⟩ | ⟨-, ht, -⟩⟩⟩ := round_ok_cases hr
    · cases ht
    · obtain ⟨ws, rfl, hws, hne⟩ := semicolons_eq_ok hs.closed hsemi
      exact (round_mended he hb hb' hbare hs.of_behind hne heof hend hst ih).behind_semicolons
        hround hturns hws
    · cases ht
  case pass =>
    intro s s₂ as s' hr _ ih hs
    obtain ⟨s₁, hsemi, ⟨ht, -⟩ | ⟨heof, hend, ⟨a, ht, -⟩ | ⟨-, -, d, s₃, hst, hres⟩⟩⟩ :=
      round_ok_cases hr
    · cases ht
    · cases ht
    · obtain ⟨ws, rfl, hws, -⟩ := semicolons_eq_ok hs.closed hsemi
      exact (fault_mended he hb hb' hs.of_behind heof hend hst hres ih).behind_semicolons
        hround hturns hws
  case last =>
    intro s a s' hr
    obtain ⟨s₁, -, ⟨ht, -⟩ | ⟨-, -, ⟨b, ht, -⟩ | ⟨-, ht, -⟩⟩⟩ := round_ok_cases hr <;> cases ht

end Rounds

/-- A block that is read with recovery is read strictly from the mended row. -/
theorem mends_statements : ∀ (room : Nat) (kind : BlockKind) (line : Nat) (stopAtBranch : Bool),
    Mends .loose .firm (statements .recovering room kind line stopAtBranch).outcome
      (statements .strict room kind line stopAtBranch).outcome
  | 0, _, _, _ => mends_failAt _
  | room + 1, kind, line, stopAtBranch => by
    rw [statements, statements, Reporter.outcome_many, Reporter.outcome_many]
    exact mends_rounds (proceeds_expression room) (halts_statements .recovering room)
      (halts_statements .strict room) (mends_bareStatement (mends_statements room)) kind line
      stopAtBranch

end Grammar

end OpsLang
