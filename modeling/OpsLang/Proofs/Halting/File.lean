import OpsLang.Proofs.Halting.Expr

/-!
# Statements, declarations and procedures halt

A statement takes a token if expressions do and the last token of the stream is no name, since the
activity behind `initiate` may be a name alone (`proceedsOn_statement`). A declaration is read by
two tokens that differ, and whatever ends with the end of a block ends in two words, so these take
a token in any case, if what they repeat does (`proceedsOn_declarationOf`, `proceedsOn_procedure`).
-/

namespace OpsLang

namespace Grammar

open Reader

variable {Q : Token → Prop}

/-! ## Statements -/

theorem haltsOn_endOf (kind : BlockKind) (line : Nat) : (endOf kind line).HaltsOn Q := by
  intro s _
  have h1 := s.reaches_advance
  have h2 := h1.trans s.advance.reaches_advance
  unfold endOf
  split
  · split
    · exact h2
    · exact h2
  · exact .refl s
  · exact h1
  · exact h1
  · exact .refl s

/-- The end of a block is two words, of which only the second can be the last token. -/
theorem proceedsOn_endOf (kind : BlockKind) (line : Nat) : (endOf kind line).ProceedsOn Q := by
  refine fun s hs => (haltsOn_endOf kind line s hs).past fun _ hrun => ?_
  obtain ⟨-, hnext, hend⟩ := endOf_eq_ok.1 hrun
  have hr := s.advance.reaches_advance
  rw [hend] at hr
  have hnil := Stream.ahead_of_advance (Stream.advance_of_reaches hr)
  rw [Stream.next, hnil] at hnext
  cases hnext

section Statements

variable {expr : Reader Expr} (hn : ∀ n, ¬Q (.name n)) (he : expr.ProceedsOn Q)

include hn he

theorem proceedsOn_activityReference : (activityReference expr).ProceedsOn Q :=
  (proceedsOn_path hn).bind fun _ => haltsOn_peek.bind fun _ =>
    ((haltsOn_arguments (grounded_of_proceedsOn he)).bind fun _ => haltsOn_pure _).ite
      (haltsOn_pure _)

theorem proceedsOn_confirmOperand (line : Nat) : (confirmOperand expr line).ProceedsOn Q := by
  intro s hs
  have ha := proceedsOn_activityReference hn he s hs
  have hc : (confirmCondition expr line s).Past s := (he s hs).map _
  unfold confirmOperand
  split
  · split
    · next hr =>
      rw [hr] at ha
      split
      · exact hc
      · exact ha
    · exact hc
    · next hr =>
      rw [hr] at ha
      exact ha
  · exact hc

omit hn in
theorem proceedsOn_plainStatement (line : Nat) : (plainStatement expr line).ProceedsOn Q := by
  intro s hs
  have hexpr : ((expr s).map fun e => Statement.expr e line).Past s := (he s hs).map _
  rw [plainStatement_run]
  split
  · next n _ _ =>
    have hadvance := s.reaches_advance.trans s.advance.reaches_advance
    exact ((he _ (hadvance.lastIs hs)).map fun e => Statement.assign n e line).of_reaches hadvance
  · exact hexpr
  · exact .refl s
  · exact hexpr

variable {block : BlockReader} (hb : ∀ kind line stop, (block kind line stop).outcome.HaltsOn Q)
  (line : Nat)

include hb

omit hn in
theorem turnsOn_branch : (branch expr block line).outcome.TurnsOn Q := by
  simp only [branch, Reporter.outcome_bind, Reporter.outcome_liftM, Reporter.outcome_ite,
    Reporter.outcome_pure]
  exact (he.bind fun _ => (haltsOn_keyword _).bind fun _ => (hb _ _ _).bind fun _ =>
    (haltsOn_eat _).bind fun _ => (haltsOn_pure _).ite (haltsOn_pure _)).turnsOn

theorem proceedsOn_bareStatement : (bareStatement expr block line).outcome.ProceedsOn Q := by
  have hr := proceedsOn_activityReference hn he
  intro s hs
  rw [bareStatement_run]
  split
  · refine (haltsOn_skip.bind_proceedsOn fun _ => (haltsOn_eat _).bind_proceedsOn fun _ =>
      ProceedsOn.ite ?_ ?_) s hs
    · exact (haltsOn_keyword _).bind_proceedsOn fun _ => hr.bind fun _ => haltsOn_pure _
    · exact hr.bind fun _ => haltsOn_pure _
  · exact (haltsOn_skip.bind_proceedsOn fun _ => proceedsOn_confirmOperand hn he line) s hs
  · exact (haltsOn_skip.bind_proceedsOn fun _ => (haltsOn_keyword _).bind_proceedsOn fun _ =>
      he.bind fun _ => haltsOn_pure _) s hs
  · simp only [conditional, otherwise, Reporter.outcome_bind, Reporter.outcome_liftM,
      Reporter.outcome_many_bind, Reporter.outcome_ite, Reporter.outcome_pure]
    refine (haltsOn_skip.bind_proceedsOn fun _ =>
      (turnsOn_branch he hb line).haltsOn_many.bind_proceedsOn fun _ =>
        HaltsOn.bind_proceedsOn ((haltsOn_eat _).bind fun _ => HaltsOn.ite ?_ (haltsOn_pure _))
          fun _ => (proceedsOn_endOf _ _).bind fun _ => haltsOn_pure _) s hs
    exact (hb _ _ _).bind fun _ => haltsOn_pure _
  · simp only [whileLoop, Reporter.outcome_bind, Reporter.outcome_liftM, Reporter.outcome_pure]
    exact (haltsOn_skip.bind_proceedsOn fun _ => he.bind fun _ => (haltsOn_keyword _).bind
      fun _ => (hb _ _ _).bind fun _ => (haltsOn_endOf _ _).bind fun _ => haltsOn_pure _) s hs
  · simp only [forLoop, Reporter.outcome_bind, Reporter.outcome_liftM, Reporter.outcome_pure]
    exact (haltsOn_skip.bind_proceedsOn fun _ => (haltsOn_name _).bind_proceedsOn fun _ =>
      (haltsOn_keyword _).bind_proceedsOn fun _ => he.bind fun _ => (haltsOn_keyword _).bind
        fun _ => (hb _ _ _).bind fun _ => (haltsOn_endOf _ _).bind fun _ => haltsOn_pure _) s hs
  · exact proceedsOn_plainStatement he line s hs

omit line in
/-- A statement takes a token, if expressions do and the last token is no name. -/
theorem proceedsOn_statement : (statement expr block).outcome.ProceedsOn Q := by
  simp only [statement, Reporter.outcome_bind, Reporter.outcome_liftM, Reporter.outcome_pure]
  exact haltsOn_here.bind_proceedsOn fun _ => (proceedsOn_bareStatement hn he hb _).bind fun _ =>
    (haltsOn_eat _).bind fun _ => haltsOn_pure _

end Statements

/-! ## Blocks -/

/-- A round of a block is the last or takes a token, if the attempt at a statement does. -/
theorem turnsOn_round {mode : Mode} {kind : BlockKind} {line : Nat} {stopAtBranch : Bool}
    {st : Reporter Statement} (hsemi : ¬Q (.symbol .semicolon))
    (hst : ∀ s, s.LastIs Q → s.token ≠ .eof → endsRun stopAtBranch s.token = false →
      ((attempt mode stopAtBranch st).outcome s).Turns s) :
    (round mode kind line stopAtBranch st).outcome.TurnsOn Q := by
  simp only [round, Reporter.outcome_bind, Reporter.outcome_liftM, Reporter.outcome_ite,
    Reporter.outcome_pure]
  refine (haltsOn_semicolons hsemi).bind_turnsOn fun _ s hs => ?_
  simp only [bind_run, peek_run, Outcome.andThen_ok, ite_run]
  split
  · exact .refl s
  · next he =>
    split
    · exact .refl s
    · next hend => exact hst s hs he (by simpa using hend)

/-- Read strictly, a statement is not passed over. -/
theorem turnsOn_attempt {stopAtBranch : Bool} {st : Reporter Statement}
    (h : st.outcome.ProceedsOn Q) : (attempt .strict stopAtBranch st).outcome.TurnsOn Q := by
  intro s hs
  have hp := h s hs
  rw [attempt_run]
  cases hst : st.outcome s with
  | ok a s' =>
    rw [hst] at hp
    exact hp
  | fail d s' =>
    rw [hst] at hp
    exact hp
  | endless =>
    rw [hst] at hp
    exact hp

/-- Read strictly, a block comes to its end or to a fault, if the last token is no semicolon and
no operand. -/
theorem haltsOn_statements (hsemi : ¬Q (.symbol .semicolon))
    (hop : ∀ t : Token, t.IsOperand → ¬Q t) :
    ∀ (room : Nat) (kind : BlockKind) (line : Nat) (stopAtBranch : Bool),
      (statements .strict room kind line stopAtBranch).outcome.HaltsOn Q
  | 0, _, _, _ => (proceedsOn_failAt _).haltsOn
  | room + 1, kind, line, stopAtBranch => by
    have hst := proceedsOn_statement (fun n => hop (.name n) trivial)
      ((grounded_expression room).proceedsOn hop) (haltsOn_statements hsemi hop room)
    rw [statements, Reporter.outcome_many]
    exact (turnsOn_round hsemi fun s hs _ _ => turnsOn_attempt hst s hs).haltsOn_many

/-! ## Declarations -/

theorem haltsOn_namedType : namedType.HaltsOn Q := by
  refine haltsOn_path.bind fun p => ?_
  split
  · split <;> exact haltsOn_pure _
  · exact haltsOn_pure _

theorem haltsOn_arraySize : arraySize.HaltsOn Q := by
  intro s _
  rw [arraySize_run]
  split
  · split
    · exact s.reaches_advance
    · exact .refl s
  · exact .refl s

section Types

variable {inner : Reader TypeExpr}

theorem haltsOn_arrayType (h : inner.HaltsOn Q) : (arrayType inner).HaltsOn Q :=
  (haltsOn_symbol _).bind fun _ => h.bind fun _ => (haltsOn_symbol _).bind fun _ =>
    haltsOn_arraySize.bind fun _ => (haltsOn_symbol _).bind fun _ => haltsOn_pure _

/-- A field is read by two tokens that differ. -/
theorem proceedsOn_field (h : inner.HaltsOn Q) : (field inner).ProceedsOn Q := by
  have hfield : (field inner).HaltsOn Q := (haltsOn_member _).bind fun _ =>
    (haltsOn_symbol _).bind fun _ => h.bind fun _ => haltsOn_pure _
  refine fun s hs => (hfield s hs).past fun f hrun => ?_
  obtain ⟨n, _, hname, hrun⟩ := Outcome.andThen_eq_ok.1 hrun
  obtain ⟨hm, rfl⟩ := member_eq_ok.1 hname
  obtain ⟨_, _, hsymbol, hrun⟩ := Outcome.andThen_eq_ok.1 hrun
  obtain ⟨hcolon, rfl⟩ := symbol_eq_ok.1 hsymbol
  obtain ⟨t, hinner, -⟩ := Outcome.map_eq_ok.1 hrun
  have hbehind := s.advance.reaches_advance
  have hrest := h.reaches ((s.reaches_advance.trans hbehind).lastIs hs) hinner
  rw [Stream.advance_of_reaches (hbehind.trans hrest)] at hcolon
  rcases hm with h | ⟨h, -⟩ <;> simp [h] at hcolon

theorem haltsOn_structType (h : inner.HaltsOn Q) : (structType inner).HaltsOn Q := by
  have hround : (fieldRound inner).TurnsOn Q := haltsOn_peek.bind_turnsOn fun _ =>
    turnsOn_stop.ite ((proceedsOn_field h).bind fun _ => (haltsOn_eat _).bind fun _ =>
      (haltsOn_pure _).ite (haltsOn_pure _)).turnsOn
  rw [structType_eq]
  exact (haltsOn_keyword _).bind fun _ => (haltsOn_symbol _).bind fun _ =>
    hround.haltsOn_many.bind fun _ => (haltsOn_symbol _).bind fun _ => haltsOn_pure _

theorem haltsOn_typeOf (h : inner.HaltsOn Q) : (typeOf inner).HaltsOn Q := by
  intro s hs
  rw [typeOf_run]
  split
  · exact haltsOn_structType h s hs
  · exact haltsOn_arrayType h s hs
  · exact haltsOn_namedType s hs
  · exact .refl s

end Types

theorem haltsOn_typeAt (room : Nat) : (typeAt room).HaltsOn Q := by
  induction room with
  | zero => exact (proceedsOn_failAt _).haltsOn
  | succ room ih => exact haltsOn_typeOf ih

/-- A declaration is read by a keyword and a name, and semicolons stand only inside it. -/
theorem proceedsOn_declarationOf {type : Reader TypeExpr} {inner : Reader Declaration}
    (hsemi : ¬Q (.symbol .semicolon)) (ht : type.HaltsOn Q) (hi : inner.ProceedsOn Q) :
    (declarationOf type inner).ProceedsOn Q := by
  intro s hs
  have hadvance := s.reaches_advance.lastIs hs
  rw [declarationOf_run]
  split
  · next h =>
    rw [namespaceDeclaration_run]
    refine Outcome.Within.past_of_token ?halts fun d s' hrun => ?differ
    case halts =>
      have hround : (childRound inner).TurnsOn Q := by
        rw [childRound_eq]
        refine (haltsOn_semicolons hsemi).bind_turnsOn fun _ =>
          haltsOn_peek.bind_turnsOn fun t => ?_
        split
        · exact haltsOn_skip.bind_turnsOn fun _ => turnsOn_stop
        · exact (hi.bind fun _ => haltsOn_pure _).turnsOn
        · exact (hi.bind fun _ => haltsOn_pure _).turnsOn
        · exact (proceedsOn_failAt _).turnsOn
      exact (haltsOn_path.bind fun _ => (haltsOn_symbol _).bind fun _ =>
        hround.haltsOn_many.bind fun _ => haltsOn_pure _) _ hadvance
    case differ =>
      obtain ⟨p, _, hpath, -⟩ := Outcome.andThen_eq_ok.1 hrun
      obtain ⟨⟨n, hn⟩, -⟩ := reaches_of_path hadvance hpath
      simp [h, hn]
  · next h =>
    rw [typeDeclaration_run]
    refine Outcome.Within.past_of_token ?halts fun d s' hrun => ?differ
    case halts =>
      refine ((haltsOn_name _).bind fun _ => (haltsOn_typeOf ht).bind fun t => ?_) _ hadvance
      cases t with
      | named p => exact (proceedsOn_failAt _).haltsOn
      | _ => exact haltsOn_pure _
    case differ =>
      obtain ⟨n, _, hname, -⟩ := Outcome.andThen_eq_ok.1 hrun
      simp [h, (name_eq_ok.1 hname).1]
  · exact .refl s

theorem proceedsOn_declarationAt (hsemi : ¬Q (.symbol .semicolon)) (room : Nat) :
    (declarationAt room).ProceedsOn Q := by
  induction room with
  | zero => exact proceedsOn_failAt _
  | succ room ih => exact proceedsOn_declarationOf hsemi (haltsOn_typeAt room) ih

theorem proceedsOn_declaration (hsemi : ¬Q (.symbol .semicolon)) (room : Nat) :
    (declaration room).ProceedsOn Q :=
  proceedsOn_declarationOf hsemi (haltsOn_typeAt room) (proceedsOn_declarationAt hsemi room)

/-! ## Procedures, items and files -/

section Items

variable {mode : Mode}
  (hb : ∀ kind line, (statements mode maxNesting kind line false).outcome.HaltsOn Q)

include hb

theorem proceedsOn_section_ (kind : BlockKind) : (section_ mode kind).outcome.ProceedsOn Q := by
  simp only [section_, Reporter.outcome_bind, Reporter.outcome_liftM, Reporter.outcome_pure]
  exact haltsOn_here.bind_proceedsOn fun _ => haltsOn_skip.bind_proceedsOn fun _ =>
    (hb _ _).bind_proceedsOn fun _ => (proceedsOn_endOf _ _).bind fun _ => haltsOn_pure _

theorem haltsOn_optionalSection (kind : BlockKind) :
    (optionalSection mode kind).outcome.HaltsOn Q := by
  simp only [optionalSection, Reporter.outcome_bind, Reporter.outcome_liftM,
    Reporter.outcome_ite, Reporter.outcome_pure]
  exact haltsOn_peek.bind fun _ =>
    ((proceedsOn_section_ hb kind).haltsOn.bind fun _ => haltsOn_pure _).ite (haltsOn_pure _)

theorem proceedsOn_procedure : (procedure mode).outcome.ProceedsOn Q := by
  have hmain : ∀ line b, (mainAhead line b).HaltsOn Q := by
    intro line b s _
    rw [mainAhead_run]
    split <;> exact .refl s
  have hend : ∀ b, (endAhead b).HaltsOn Q := by
    intro b s _
    rw [endAhead_run]
    split <;> exact .refl s
  simp only [procedure, Reporter.outcome_bind, Reporter.outcome_liftM, Reporter.outcome_pure]
  exact haltsOn_here.bind_proceedsOn fun _ => (haltsOn_keyword _).bind_proceedsOn fun _ =>
    (haltsOn_name _).bind_proceedsOn fun _ =>
      (haltsOn_optionalSection hb _).bind_proceedsOn fun _ =>
        (hmain _ _).bind_proceedsOn fun _ => (proceedsOn_section_ hb _).bind fun _ =>
          (haltsOn_optionalSection hb _).bind fun _ => (hend _).bind fun _ =>
            (haltsOn_endOf _ _).bind fun _ => haltsOn_pure _

theorem proceedsOn_item (hsemi : ¬Q (.symbol .semicolon)) : (item mode).outcome.ProceedsOn Q := by
  intro s hs
  rw [item_run]
  split
  · exact (proceedsOn_procedure hb s hs).map _
  · exact (proceedsOn_declaration hsemi _ s hs).map _
  · exact (proceedsOn_declaration hsemi _ s hs).map _
  · exact .refl s

end Items

theorem turnsOn_fileRound (hsemi : ¬Q (.symbol .semicolon))
    (hb : ∀ kind line, (statements .strict maxNesting kind line false).outcome.HaltsOn Q) :
    fileRound.outcome.TurnsOn Q := by
  simp only [fileRound, Reporter.outcome_bind, Reporter.outcome_liftM, Reporter.outcome_ite,
    Reporter.outcome_pure]
  exact (haltsOn_semicolons hsemi).bind_turnsOn fun _ => haltsOn_peek.bind_turnsOn fun _ =>
    turnsOn_stop.ite ((proceedsOn_item hb hsemi).bind fun _ => haltsOn_pure _).turnsOn

end Grammar

end OpsLang
