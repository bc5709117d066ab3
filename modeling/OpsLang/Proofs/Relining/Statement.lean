import OpsLang.Proofs.Appending.Statement
import OpsLang.Proofs.Locality
import OpsLang.Proofs.Relining.Reader
import OpsLang.Proofs.Rereading.Statement

/-!
# Statements on other lines

An expression does not carry lines, and is read the same on other lines (`steady_expression`). The
one place where it asks for a line is a unit behind a number. Statements that are read from rows on
other lines are the same but for the lines they carry (`matches_statements`), which are forgotten
by `Statement.unlined`. Blocks that were opened on other lines differ no more than that, since the
line of a block is only told where its end is missing.
-/

namespace OpsLang

namespace Grammar

open Reader

/-! ## Expressions -/

section Expressions

variable {value : Reader Expr}

theorem steady_path : path.Steady := by
  have hround : memberRound.Steady :=
    (steady_eat _).bind fun _ => ((steady_member _).bind fun _ => steady_pure _).ite (steady_pure _)
  rw [path_eq]
  exact (steady_name _).bind fun _ => hround.many.bind fun _ => steady_pure _

theorem steady_argument (hv : value.Steady) : (argument value).Steady := by
  refine steady_peek.bind fun t => steady_peekNext.bind fun u => ?_
  split
  · exact steady_skip.bind fun _ => steady_skip.bind fun _ => hv.bind fun _ => steady_pure _
  · exact hv.bind fun _ => steady_pure _

theorem steady_arguments (hv : value.Steady) : (arguments value).Steady := by
  have hround : (argumentRound value).Steady :=
    steady_peek.bind fun _ => (steady_pure _).ite <| (steady_argument hv).bind fun _ =>
      (steady_eat _).bind fun _ => (steady_pure _).ite (steady_pure _)
  rw [arguments_eq]
  exact (steady_symbol _).bind fun _ => hround.many.bind fun _ => (steady_symbol _).bind fun _ =>
    steady_pure _

/-- The unit behind a number is found in both rows or in neither. -/
theorem unitOn_relined {s s' : Stream} {x : String} (h : s.Relined s')
    (hx : s.token = .number x) : unitOn s'.line s'.advance = unitOn s.line s.advance := by
  rw [unitOn, unitOn, h.advance.token_eq]
  split
  · next w hw => simp only [h.line_iff hx hw]
  · rfl

theorem matchesAt_number {s s' : Stream} {x : String} (h : s.Relined s')
    (hx : s.token = .number x) : MatchesAt Eq s s' (number x) (number x) := by
  unfold MatchesAt
  rw [number_eq, number_eq, unitOn_relined h hx]
  split
  · exact .ok rfl ((Abreast.advance h).trans (.advance h.advance))
  · exact .ok rfl (.advance h)

theorem steady_nameOrCall (hv : value.Steady) : (nameOrCall value).Steady := by
  refine steady_path.bind fun p => steady_peek.bind fun t => Steady.ite ?_ ?_
  · exact (steady_arguments hv).bind fun _ => steady_pure _
  · split <;> exact steady_pure _

theorem tellAlike_strayUnit (u : String) :
    TellAlike (fun s => s.strayUnit u) (fun s => s.strayUnit u) where
  span _ := rfl
  span' _ := rfl
  alike s s' h := ⟨rfl, rfl, by simp only [Stream.strayUnit, h]⟩

theorem steady_primary (hv : value.Steady) : (primary value).Steady := by
  refine fun s s' hs => .peek hs ?_
  split
  · next x hx => exact matchesAt_number hs hx
  · exact steady_skip.bind (fun _ => steady_pure _) hs
  · exact steady_skip.bind (fun _ => steady_pure _) hs
  · exact steady_skip.bind (fun _ => hv.bind fun _ => (steady_symbol _).bind fun _ =>
      steady_pure _) hs
  · exact steady_nameOrCall hv hs
  · exact matchesAt_failAt (tellAlike_strayUnit _) hs
  · exact steady_refuse _ hs

theorem steady_operand {behind inside : Reader Expr} (hb : behind.Steady) (hi : inside.Steady) :
    (operand behind inside).Steady := by
  refine steady_peek.bind fun t => ?_
  split
  · exact steady_skip.bind fun _ => hb.bind fun _ => steady_pure _
  · exact steady_primary hi

theorem steady_operation (floor : Nat) {right : Nat → Reader Expr} (h : ∀ n, (right n).Steady) :
    (operation floor right).Steady := by
  refine steady_peek.bind fun t => ?_
  split
  · exact (steady_pure _).ite <| steady_skip.bind fun _ => (h _).bind fun _ => steady_pure _
  · exact steady_pure _

theorem steady_climb (floor : Nat) {first : Reader Expr} {right : Nat → Reader Expr}
    (hf : first.Steady) (hr : ∀ n, (right n).Steady) : (climb floor first right).Steady :=
  hf.bind fun _ => (steady_operation floor hr).many.bind fun _ => steady_pure _

mutual

theorem steady_binaryAt : ∀ room floor : Nat, (binaryAt room floor).Steady
  | 0, _ => matches_tooDeep
  | room + 1, floor =>
    steady_climb floor (steady_operand (steady_unaryAt room) (steady_binaryAt room 1))
      (steady_binaryAt room)

theorem steady_unaryAt : ∀ room : Nat, (unaryAt room).Steady
  | 0 => matches_tooDeep
  | room + 1 => steady_operand (steady_unaryAt room) (steady_binaryAt room 1)

end

/-- An expression is read the same on other lines. -/
theorem steady_expression (room : Nat) : (expression room).Steady :=
  steady_binaryAt room 1

end Expressions

/-! ## Statements without blocks -/

/-- The statements are the same but for their lines. -/
def SameStatement (st st' : Statement) : Prop :=
  st'.unlined = st.unlined

/-- The blocks are the same but for the lines of their statements. -/
def SameBlock (body body' : Block) : Prop :=
  Block.unlined body' = Block.unlined body

theorem sameBlock_of_forall₂ {body body' : Block} (h : List.Forall₂ SameStatement body body') :
    SameBlock body body' := by
  induction h with
  | nil => rfl
  | cons h _ ih => exact congrArg₂ List.cons h ih

section Plain

variable {room line line' : Nat}

theorem steady_activityReference (room : Nat) : (activityReference (expression room)).Steady :=
  steady_path.bind fun _ => steady_peek.bind fun _ =>
    ((steady_arguments (steady_expression room)).bind fun _ => steady_pure _).ite (steady_pure _)

theorem matches_initiate :
    Matches SameStatement (initiate (expression room) line) (initiate (expression room) line') := by
  have hactivity := steady_activityReference room
  exact .after steady_skip fun _ => .after (steady_eat _) fun _ => .ite
    (.after (steady_keyword _) fun _ => .after hactivity fun _ => matches_pure rfl)
    (.after hactivity fun _ => matches_pure rfl)

theorem matches_confirmCondition : Matches SameStatement (confirmCondition (expression room) line)
    (confirmCondition (expression room) line') :=
  .after (steady_expression room) fun _ => matches_pure rfl

/-- An activity behind `confirm` is told from a condition by tokens alone. -/
theorem matches_confirmOperand : Matches SameStatement (confirmOperand (expression room) line)
    (confirmOperand (expression room) line') := by
  intro s s' hs
  have hcondition : MatchesAt SameStatement s s' (confirmCondition (expression room) line)
      (confirmCondition (expression room) line') := matches_confirmCondition hs
  unfold MatchesAt confirmOperand
  rw [hs.token_eq]
  split
  · have hreference : (activityReference (expression room) s).Matches Eq s s'
        (activityReference (expression room) s') := steady_activityReference room hs
    generalize activityReference (expression room) s = o at hreference
    generalize activityReference (expression room) s' = o' at hreference
    cases hreference with
    | ok hR hp =>
      subst hR
      dsimp only
      rw [hp.relined.token_eq]
      split
      · exact hcondition
      · exact .ok rfl hp
    | fail => exact hcondition
    | endless => exact .endless
  · exact hcondition

theorem matches_wait :
    Matches SameStatement (wait (expression room) line) (wait (expression room) line') :=
  .after steady_skip fun _ => .after (steady_keyword _) fun _ =>
    .after (steady_expression room) fun _ => matches_pure rfl

theorem matches_plainStatement : Matches SameStatement (plainStatement (expression room) line)
    (plainStatement (expression room) line') := by
  refine .after steady_peek fun t => .after steady_peekNext fun u => ?_
  split
  · exact .after steady_skip fun _ => .after steady_skip fun _ =>
      .after (steady_expression room) fun _ => matches_pure rfl
  · exact .after (steady_expression room) fun _ => matches_pure rfl
  · exact matches_failAt (tellAlike_expecting _)
  · exact .after (steady_expression room) fun _ => matches_pure rfl

end Plain

/-! ## Ends of blocks -/

theorem tellAlike_unterminated (kind : BlockKind) (line line' : Nat) :
    TellAlike (fun s => s.unterminated kind line) (fun s => s.unterminated kind line') where
  span _ := rfl
  span' _ := rfl
  alike _ _ _ := ⟨rfl, rfl, rfl⟩

/-- The end of a block is told by its two words, whatever line it was opened on. -/
theorem matches_endOf (kind : BlockKind) (line line' : Nat) :
    Matches Eq (endOf kind line) (endOf kind line') := by
  intro s s' hs
  have hadvance := Abreast.advance hs
  have hunterminated := tellAlike_unterminated kind line line'
  unfold MatchesAt endOf
  dsimp only
  rw [hs.token_eq, hs.next_eq]
  split
  · split
    · exact .ok rfl (hadvance.trans (.advance hs.advance))
    · exact .fail (.refl hs) rfl rfl ⟨rfl, rfl, rfl⟩
  · exact .fail (.refl hs) rfl rfl (hunterminated.alike _ _ hs.token_eq)
  · exact .fail hadvance rfl rfl (hunterminated.alike _ _ hs.advance.token_eq)
  · exact .fail (.refl hs) rfl rfl ⟨rfl, rfl, rfl⟩
  · exact matches_failAt (tellAlike_expecting _) hs

/-! ## Statements with blocks -/

section Blocks

variable {room line line' : Nat} {block : BlockReader}
  (hb : ∀ kind line line' stop, Matches SameBlock (block kind line stop).outcome
    (block kind line' stop).outcome)

/-- The branches have the same conditions, and the same statements but for their lines. -/
def SameBranch : Branch → Branch → Prop
  | .mk c body, .mk c' body' => c' = c ∧ SameBlock body body'

theorem allUnlined_of_forall₂ {bs bs' : List Branch} (h : List.Forall₂ SameBranch bs bs') :
    Branch.allUnlined bs' = Branch.allUnlined bs := by
  induction h with
  | nil => rfl
  | @cons b b' bs bs' h _ ih =>
    obtain ⟨c, body⟩ := b
    obtain ⟨c', body'⟩ := b'
    obtain ⟨rfl, hbody⟩ := h
    rw [Branch.allUnlined, Branch.allUnlined, ih, hbody]

/-- A part that may be missing is the same but for its lines, or missing in both. -/
def SamePart (body body' : Option Block) : Prop :=
  body'.map Block.unlined = body.map Block.unlined

theorem SamePart.isSome_eq {body body' : Option Block} (h : SamePart body body') :
    body'.isSome = body.isSome := by
  simpa using congrArg Option.isSome h

theorem unlined_conditional (branches : List Branch) (rest : Option Block) (line : Nat) :
    (Statement.conditional branches rest line).unlined =
      .conditional (Branch.allUnlined branches) (rest.map Block.unlined) 0 := by
  cases rest <;> rfl

include hb

theorem matches_branch : Matches (Turn.Matches SameBranch)
    (branch (expression room) block line).outcome
    (branch (expression room) block line').outcome := by
  simp only [branch, Reporter.outcome_bind, Reporter.outcome_liftM, Reporter.outcome_ite,
    Reporter.outcome_pure]
  exact .after (steady_expression room) fun _ => .after (steady_keyword _) fun _ =>
    (hb _ _ _ _).bind fun _ _ hbody => .after (steady_eat _) fun _ =>
      .ite (matches_pure (.item ⟨rfl, hbody⟩)) (matches_pure (.last ⟨rfl, hbody⟩))

theorem matches_otherwise : Matches SamePart (otherwise block line).outcome
    (otherwise block line').outcome := by
  simp only [otherwise, Reporter.outcome_bind, Reporter.outcome_liftM, Reporter.outcome_ite,
    Reporter.outcome_pure]
  exact .after (steady_eat _) fun _ => .ite
    ((hb _ _ _ _).bind fun _ _ hbody => matches_pure (congrArg some hbody)) (matches_pure rfl)

theorem matches_conditional : Matches SameStatement
    (conditional (expression room) block line).outcome
    (conditional (expression room) block line').outcome := by
  simp only [conditional, Reporter.outcome_bind, Reporter.outcome_liftM,
    Reporter.outcome_many_bind, Reporter.outcome_pure]
  refine .after steady_skip fun _ => (matches_branch hb).many.bind fun bs bs' hbs =>
    (matches_otherwise hb).bind fun rest rest' hrest => (matches_endOf _ _ _).bind fun _ _ _ =>
      matches_pure ?_
  rw [SameStatement, unlined_conditional, unlined_conditional, allUnlined_of_forall₂ hbs, hrest]

theorem matches_whileLoop : Matches SameStatement
    (whileLoop (expression room) block line).outcome
    (whileLoop (expression room) block line').outcome := by
  simp only [whileLoop, Reporter.outcome_bind, Reporter.outcome_liftM, Reporter.outcome_pure]
  exact .after steady_skip fun _ => .after (steady_expression room) fun c =>
    .after (steady_keyword _) fun _ => (hb _ _ _ _).bind fun _ _ hbody =>
      (matches_endOf _ _ _).bind fun _ _ _ =>
        matches_pure (congrArg (Statement.whileLoop c · 0) hbody)

theorem matches_forLoop : Matches SameStatement (forLoop (expression room) block line).outcome
    (forLoop (expression room) block line').outcome := by
  simp only [forLoop, Reporter.outcome_bind, Reporter.outcome_liftM, Reporter.outcome_pure]
  exact .after steady_skip fun _ => .after (steady_name _) fun n =>
    .after (steady_keyword _) fun _ => .after (steady_expression room) fun e =>
      .after (steady_keyword _) fun _ => (hb _ _ _ _).bind fun _ _ hbody =>
        (matches_endOf _ _ _).bind fun _ _ _ =>
          matches_pure (congrArg (Statement.forLoop n e · 0) hbody)

theorem matches_bareStatement : Matches SameStatement
    (bareStatement (expression room) block line).outcome
    (bareStatement (expression room) block line').outcome := by
  simp only [bareStatement, Reporter.outcome_bind, Reporter.outcome_liftM]
  refine .after steady_peek fun t => ?_
  split
  · exact matches_initiate
  · exact .after steady_skip fun _ => matches_confirmOperand
  · exact matches_wait
  · exact matches_conditional hb
  · exact matches_whileLoop hb
  · exact matches_forLoop hb
  · exact matches_plainStatement

theorem matches_statement : Matches SameStatement (statement (expression room) block).outcome
    (statement (expression room) block).outcome := by
  simp only [statement, Reporter.outcome_bind, Reporter.outcome_liftM, Reporter.outcome_pure]
  exact matches_here.bind fun _ _ _ => (matches_bareStatement hb).bind fun _ _ hst =>
    .after (steady_eat _) fun _ => matches_pure hst

end Blocks

/-! ## Blocks -/

theorem matches_round {st : Reporter Statement} (h : Matches SameStatement st.outcome st.outcome)
    (kind : BlockKind) (line line' : Nat) (stop : Bool) : Matches (Turn.Matches SameStatement)
      (round .strict kind line stop st).outcome (round .strict kind line' stop st).outcome := by
  simp only [round, Reporter.outcome_bind, Reporter.outcome_liftM, Reporter.outcome_ite,
    Reporter.outcome_pure, attempt_strict]
  exact .after steady_semicolons fun _ => .after steady_peek fun _ =>
    .ite (matches_failAt (tellAlike_unterminated kind line line')) <|
      .ite (matches_pure .stop) <| h.bind fun _ _ hst => matches_pure (.item hst)

/-- The statements of a block on other lines are the same but for the lines they carry. -/
theorem matches_statements : ∀ (room : Nat) (kind : BlockKind) (line line' : Nat) (stop : Bool),
    Matches SameBlock (statements .strict room kind line stop).outcome
      (statements .strict room kind line' stop).outcome
  | 0, _, _, _, _ => matches_tooDeep
  | room + 1, kind, line, line', stop => by
    have hst : Matches SameStatement
        (statement (expression room) (statements .strict room)).outcome
        (statement (expression room) (statements .strict room)).outcome :=
      matches_statement (matches_statements room)
    rw [statements, statements, Reporter.outcome_many, Reporter.outcome_many]
    exact (matches_round hst kind line line' stop).many.mono fun _ _ => sameBlock_of_forall₂

end Grammar

end OpsLang
