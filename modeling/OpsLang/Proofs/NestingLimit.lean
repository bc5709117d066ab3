import OpsLang.Proofs.Productions

/-!
# The nesting limit

A reader that has fewer levels left comes to the same outcome as one that has more, or it
fails because a construct would be open inside too many others (`Reader.Restricts`). This
passes through sequencing and repetition, so it holds of expressions (`binaryAt_restricts`),
blocks (`statements_restricts`), declarations (`declaration_restricts`) and files
(`many_fileRoundAt_restricts`), and what is read inside some levels is read in the same way
inside more (`Restricts.ok`).

The one place where the limit could turn a fault into something else is `confirm`, which goes
back behind its keyword if no activity can be read there. The arguments of an activity have
one level more than those of the same call in a condition, so the condition is then too deep
as well (`confirmOperand_restricts`).
-/

namespace OpsLang

/-- The outcome is that a construct would be open inside too many others. -/
def Outcome.IsTooDeep {α : Type} (o : Outcome α) : Prop :=
  ∃ s : Stream, o = .fail s.tooDeep s

namespace Outcome

variable {α β : Type} {o o' : Outcome α}

theorem IsTooDeep.andThen (h : o.IsTooDeep) (f : α → Stream → Outcome β) :
    (o.andThen f).IsTooDeep := by
  obtain ⟨s, rfl⟩ := h
  exact ⟨s, rfl⟩

theorem IsTooDeep.map (h : o.IsTooDeep) (f : α → β) : (o.map f).IsTooDeep :=
  h.andThen _

theorem IsTooDeep.of_map {f : α → β} (h : (o.map f).IsTooDeep) : o.IsTooDeep := by
  obtain ⟨s, h⟩ := h
  exact ⟨s, map_eq_fail.1 h⟩

end Outcome

namespace Reader

variable {α β : Type}

/-- The reader comes to the outcome of `r'`, or finds a construct open inside too many
others. -/
def Restricts (r r' : Reader α) : Prop :=
  ∀ s, r s = r' s ∨ (r s).IsTooDeep

theorem Restricts.refl (r : Reader α) : r.Restricts r :=
  fun _ => .inl rfl

theorem tooDeep_restricts (r : Reader α) : tooDeep.Restricts r :=
  fun s => .inr ⟨s, rfl⟩

theorem Restricts.ok {r r' : Reader α} (h : r.Restricts r') {s s' : Stream} {a : α}
    (hr : r s = .ok a s') : r' s = .ok a s' := by
  obtain heq | ⟨s'', hdeep⟩ := h s
  · rw [← heq, hr]
  · rw [hr] at hdeep
    cases hdeep

theorem Restricts.tooDeep {r r' : Reader α} (h : r.Restricts r') {s : Stream}
    (hr : (r' s).IsTooDeep) : (r s).IsTooDeep := by
  obtain heq | hdeep := h s
  · rwa [heq]
  · exact hdeep

theorem Restricts.bind {r r' : Reader α} {f f' : α → Reader β} (h : r.Restricts r')
    (hf : ∀ a, (f a).Restricts (f' a)) : (r >>= f).Restricts (r' >>= f') := by
  intro s
  rw [bind_run, bind_run]
  obtain heq | hdeep := h s
  · rw [heq]
    cases r' s with
    | ok a s' => exact hf a s'
    | fail d s' => exact .inl rfl
    | endless => exact .inl rfl
  · exact .inr (hdeep.andThen _)

theorem Restricts.ite {c : Prop} [Decidable c] {r₁ r₁' r₂ r₂' : Reader α}
    (h₁ : r₁.Restricts r₁') (h₂ : r₂.Restricts r₂') :
    (if c then r₁ else r₂).Restricts (if c then r₁' else r₂') := by
  split
  · exact h₁
  · exact h₂

/-- A repetition restricts another if its round does. -/
theorem Restricts.many {round round' : Reader (Turn α)} (h : round.Restricts round') :
    Restricts (many round) (many round') := by
  intro s
  induction hn : s.size using Nat.strongRecOn generalizing s with
  | _ n ih =>
    subst hn
    rw [many_run, many_run]
    obtain hround | ⟨s', hdeep⟩ := h s
    · rw [hround]
      cases round' s with
      | fail d s' => exact .inl rfl
      | endless => exact .inl rfl
      | ok turn s' =>
        rw [Outcome.andThen_ok, Outcome.andThen_ok]
        obtain ⟨as, heq⟩ | ⟨g, heq⟩ := afterRound_cases turn
        · exact .inl (by rw [heq, heq])
        · rw [heq, heq]
          split
          · next hlt =>
            obtain hrest | hrest := ih _ hlt s' rfl
            · exact .inl (by rw [hrest])
            · exact .inr (hrest.map g)
          · exact .inl rfl
    · exact .inr ⟨s', by rw [hdeep, Outcome.andThen_fail]⟩

end Reader

namespace Grammar

open Reader

/-! ## Expressions -/

section Values

variable {value value' : Reader Expr} (h : value.Restricts value')

include h

theorem argument_restricts : (argument value).Restricts (argument value') := by
  refine (Restricts.refl _).bind fun t => (Restricts.refl _).bind fun u => ?_
  split
  · exact (Restricts.refl _).bind fun _ => (Restricts.refl _).bind fun _ =>
      h.bind fun _ => .refl _
  · exact h.bind fun _ => .refl _

theorem arguments_restricts : (arguments value).Restricts (arguments value') := by
  rw [arguments_eq, arguments_eq]
  refine (Restricts.refl _).bind fun _ => Restricts.bind (Restricts.many ?_) fun _ => .refl _
  exact (Restricts.refl _).bind fun _ =>
    (Restricts.refl _).ite ((argument_restricts h).bind fun _ => .refl _)

theorem nameOrCall_restricts : (nameOrCall value).Restricts (nameOrCall value') :=
  (Restricts.refl _).bind fun _ => (Restricts.refl _).bind fun _ =>
    ((arguments_restricts h).bind fun _ => .refl _).ite (.refl _)

theorem primary_restricts : (primary value).Restricts (primary value') := by
  refine (Restricts.refl _).bind fun t => ?_
  split
  · exact .refl _
  · exact .refl _
  · exact .refl _
  · exact (Restricts.refl _).bind fun _ => h.bind fun _ => .refl _
  · exact nameOrCall_restricts h
  · exact .refl _
  · exact .refl _

end Values

theorem operand_restricts {behind behind' inside inside' : Reader Expr}
    (hb : behind.Restricts behind') (hi : inside.Restricts inside') :
    (operand behind inside).Restricts (operand behind' inside') := by
  refine (Restricts.refl _).bind fun t => ?_
  split
  · exact (Restricts.refl _).bind fun _ => hb.bind fun _ => .refl _
  · exact primary_restricts hi

theorem operation_restricts (floor : Nat) {right right' : Nat → Reader Expr}
    (h : ∀ n, (right n).Restricts (right' n)) :
    (operation floor right).Restricts (operation floor right') := by
  refine (Restricts.refl _).bind fun t => ?_
  split
  · exact (Restricts.refl _).ite ((Restricts.refl _).bind fun _ => (h _).bind fun _ => .refl _)
  · exact .refl _

theorem climb_restricts (floor : Nat) {first first' : Reader Expr}
    {right right' : Nat → Reader Expr}
    (hf : first.Restricts first') (hr : ∀ n, (right n).Restricts (right' n)) :
    (climb floor first right).Restricts (climb floor first' right') :=
  hf.bind fun _ => Restricts.bind (operation_restricts floor hr).many fun _ => .refl _

mutual

/-- An expression with fewer levels left is read as with more, or is too deep. -/
theorem binaryAt_restricts : ∀ {room room' : Nat}, room ≤ room' → ∀ floor : Nat,
    (binaryAt room floor).Restricts (binaryAt room' floor)
  | 0, _, _, _ => tooDeep_restricts _
  | room + 1, room' + 1, h, floor => by
    have hle := Nat.le_of_succ_le_succ h
    exact climb_restricts floor (operand_restricts (unaryAt_restricts hle)
      (binaryAt_restricts hle 1)) (binaryAt_restricts hle)

theorem unaryAt_restricts : ∀ {room room' : Nat}, room ≤ room' →
    (unaryAt room).Restricts (unaryAt room')
  | 0, _, _ => tooDeep_restricts _
  | room + 1, room' + 1, h => by
    have hle := Nat.le_of_succ_le_succ h
    exact operand_restricts (unaryAt_restricts hle) (binaryAt_restricts hle 1)

end

theorem expression_restricts {room room' : Nat} (h : room ≤ room') :
    (expression room).Restricts (expression room') :=
  binaryAt_restricts h 1

/-! ## Statements -/

theorem activityReference_restricts {expr expr' : Reader Expr} (h : expr.Restricts expr') :
    (activityReference expr).Restricts (activityReference expr') :=
  (Restricts.refl _).bind fun _ => (Restricts.refl _).bind fun _ =>
    ((arguments_restricts h).bind fun _ => .refl _).ite (.refl _)

theorem confirmCondition_restricts {expr expr' : Reader Expr} (h : expr.Restricts expr')
    (line : Nat) : (confirmCondition expr line).Restricts (confirmCondition expr' line) :=
  h.bind fun _ => .refl _

/-- Where an activity is too deep, the condition is too. -/
theorem expression_tooDeep_of_activityReference {room : Nat} {s : Stream} {n : String}
    (hn : s.token = .name n) (h : (activityReference (expression room) s).IsTooDeep) :
    (expression room s).IsTooDeep := by
  cases room with
  | zero => exact ⟨s, rfl⟩
  | succ room =>
    suffices hcall : (nameOrCall (binaryAt room 1) s).IsTooDeep by
      rw [expression, binaryAt, climb, bind_run, operand_of_name hn]
      exact hcall.andThen _
    rw [activityReference_run] at h
    rw [nameOrCall_run]
    cases hp : path s with
    | ok p s₁ =>
      rw [hp, Outcome.andThen_ok] at h
      rw [Outcome.andThen_ok]
      split at h
      · next hparen =>
        have hdeeper := arguments_restricts (expression_restricts (Nat.le_succ room))
        rw [if_pos hparen]
        exact (hdeeper.tooDeep h.of_map).map _
      · obtain ⟨s', h⟩ := h
        cases h
    | fail d s₁ =>
      rw [hp] at h
      obtain ⟨s', h⟩ := h
      cases h
      exact ⟨_, rfl⟩
    | endless =>
      rw [hp] at h
      obtain ⟨s', h⟩ := h
      cases h

theorem confirmOperand_restricts {room room' : Nat} (h : room ≤ room') (line : Nat) :
    (confirmOperand (expression room) line).Restricts
      (confirmOperand (expression room') line) := by
  have hexpr := expression_restricts h
  intro s
  have hcondition := confirmCondition_restricts hexpr line s
  unfold confirmOperand
  split
  · next n hn =>
    obtain heq | hdeep := activityReference_restricts hexpr s
    · rw [heq]
      split
      · split
        · exact hcondition
        · exact .inl rfl
      · exact hcondition
      · exact .inl rfl
    · have hboth : (confirmCondition (expression room) line s).IsTooDeep :=
        (expression_tooDeep_of_activityReference hn hdeep).map _
      obtain ⟨s', hdeep⟩ := hdeep
      rw [hdeep]
      exact .inr hboth
  · exact hcondition

theorem initiate_restricts {expr expr' : Reader Expr} (h : expr.Restricts expr') (line : Nat) :
    (initiate expr line).Restricts (initiate expr' line) := by
  have href := activityReference_restricts h
  refine (Restricts.refl _).bind fun _ => (Restricts.refl _).bind fun _ => Restricts.ite ?_ ?_
  · exact (Restricts.refl _).bind fun _ => href.bind fun _ => .refl _
  · exact href.bind fun _ => .refl _

theorem wait_restricts {expr expr' : Reader Expr} (h : expr.Restricts expr') (line : Nat) :
    (wait expr line).Restricts (wait expr' line) :=
  (Restricts.refl _).bind fun _ => (Restricts.refl _).bind fun _ => h.bind fun _ => .refl _

theorem plainStatement_restricts {expr expr' : Reader Expr} (h : expr.Restricts expr')
    (line : Nat) : (plainStatement expr line).Restricts (plainStatement expr' line) := by
  refine (Restricts.refl _).bind fun t => (Restricts.refl _).bind fun u => ?_
  split
  · exact (Restricts.refl _).bind fun _ => (Restricts.refl _).bind fun _ =>
      h.bind fun _ => .refl _
  · exact h.bind fun _ => .refl _
  · exact .refl _
  · exact h.bind fun _ => .refl _

section Blocks

variable {room room' : Nat} (h : room ≤ room') {block block' : BlockReader}
  (hb : ∀ kind line stop, (block kind line stop).outcome.Restricts (block' kind line stop).outcome)
  (line : Nat)

include h hb

theorem branch_restricts :
    (branch (expression room) block line).outcome.Restricts
      (branch (expression room') block' line).outcome := by
  simp only [branch, Reporter.outcome_bind, Reporter.outcome_liftM, Reporter.outcome_ite,
    Reporter.outcome_pure]
  exact (expression_restricts h).bind fun _ => (Restricts.refl _).bind fun _ =>
    (hb _ _ _).bind fun _ => .refl _

theorem bareStatement_restricts :
    (bareStatement (expression room) block line).outcome.Restricts
      (bareStatement (expression room') block' line).outcome := by
  have he := expression_restricts h
  have hconfirm : (confirm (expression room) line).Restricts (confirm (expression room') line) :=
    (Restricts.refl _).bind fun _ => confirmOperand_restricts h line
  simp only [bareStatement, Reporter.outcome_bind, Reporter.outcome_liftM]
  refine (Restricts.refl _).bind fun t => ?_
  split
  · exact initiate_restricts he line
  · exact hconfirm
  · exact wait_restricts he line
  · simp only [conditional, otherwise, Reporter.outcome_bind, Reporter.outcome_liftM,
      Reporter.outcome_many_bind, Reporter.outcome_ite, Reporter.outcome_pure]
    refine (Restricts.refl _).bind fun _ => (branch_restricts h hb line).many.bind fun _ =>
      Restricts.bind ?_ fun _ => .refl _
    exact (Restricts.refl _).bind fun _ => ((hb _ _ _).bind fun _ => .refl _).ite (.refl _)
  · simp only [whileLoop, Reporter.outcome_bind, Reporter.outcome_liftM, Reporter.outcome_pure]
    exact (Restricts.refl _).bind fun _ => he.bind fun _ => (Restricts.refl _).bind fun _ =>
      (hb _ _ _).bind fun _ => .refl _
  · simp only [forLoop, Reporter.outcome_bind, Reporter.outcome_liftM, Reporter.outcome_pure]
    exact (Restricts.refl _).bind fun _ => (Restricts.refl _).bind fun _ =>
      (Restricts.refl _).bind fun _ => he.bind fun _ => (Restricts.refl _).bind fun _ =>
        (hb _ _ _).bind fun _ => .refl _
  · exact plainStatement_restricts he line

omit line in
theorem statement_restricts :
    (statement (expression room) block).outcome.Restricts
      (statement (expression room') block').outcome := by
  simp only [statement, Reporter.outcome_bind, Reporter.outcome_liftM, Reporter.outcome_pure]
  exact (Restricts.refl _).bind fun _ => (bareStatement_restricts h hb _).bind fun _ => .refl _

end Blocks

theorem round_restricts {st st' : Reporter Statement} (h : st.outcome.Restricts st'.outcome)
    (kind : BlockKind) (line : Nat) (stopAtBranch : Bool) :
    (round .strict kind line stopAtBranch st).outcome.Restricts
      (round .strict kind line stopAtBranch st').outcome := by
  have hattempt : (attempt .strict stopAtBranch st).outcome.Restricts
      (attempt .strict stopAtBranch st').outcome := by
    intro s
    simp only [attempt_run, reduceCtorEq, false_and, if_false]
    obtain heq | ⟨s', hdeep⟩ := h s
    · exact .inl (by rw [heq])
    · exact .inr ⟨s', by rw [hdeep]⟩
  simp only [round, Reporter.outcome_bind, Reporter.outcome_liftM, Reporter.outcome_ite,
    Reporter.outcome_pure]
  exact (Restricts.refl _).bind fun _ => (Restricts.refl _).bind fun _ =>
    (Restricts.refl _).ite ((Restricts.refl _).ite hattempt)

/-- A block with fewer levels left is read as with more, or is too deep. -/
theorem statements_restricts : ∀ {room room' : Nat}, room ≤ room' →
    ∀ (kind : BlockKind) (line : Nat) (stopAtBranch : Bool),
      (statements .strict room kind line stopAtBranch).outcome.Restricts
        (statements .strict room' kind line stopAtBranch).outcome
  | 0, _, _, _, _, _ => tooDeep_restricts _
  | _ + 1, _ + 1, h, kind, line, stopAtBranch => by
    have hle := Nat.le_of_succ_le_succ h
    rw [statements, statements, Reporter.outcome_many, Reporter.outcome_many]
    exact (round_restricts (statement_restricts hle (statements_restricts hle)) kind line
      stopAtBranch).many

/-! ## Declarations -/

theorem typeOf_restricts {inner inner' : Reader TypeExpr} (h : inner.Restricts inner') :
    (typeOf inner).Restricts (typeOf inner') := by
  refine (Restricts.refl _).bind fun t => ?_
  split
  · rw [structType_eq, structType_eq]
    refine (Restricts.refl _).bind fun _ => (Restricts.refl _).bind fun _ =>
      Restricts.bind (Restricts.many ?_) fun _ => .refl _
    refine (Restricts.refl _).bind fun _ =>
      (Restricts.refl _).ite (Restricts.bind ?_ fun _ => .refl _)
    exact (Restricts.refl _).bind fun _ => (Restricts.refl _).bind fun _ => h.bind fun _ => .refl _
  · exact (Restricts.refl _).bind fun _ => h.bind fun _ => .refl _
  · exact .refl _
  · exact .refl _

theorem typeAt_restricts : ∀ {room room' : Nat}, room ≤ room' →
    (typeAt room).Restricts (typeAt room')
  | 0, _, _ => tooDeep_restricts _
  | _ + 1, _ + 1, h => typeOf_restricts (typeAt_restricts (Nat.le_of_succ_le_succ h))

theorem declarationOf_restricts {type type' : Reader TypeExpr} {inner inner' : Reader Declaration}
    (ht : type.Restricts type') (hi : inner.Restricts inner') :
    (declarationOf type inner).Restricts (declarationOf type' inner') := by
  have hround : (childRound inner).Restricts (childRound inner') := by
    refine (Restricts.refl _).bind fun _ => (Restricts.refl _).bind fun t => ?_
    split
    · exact .refl _
    · exact hi.bind fun _ => .refl _
    · exact hi.bind fun _ => .refl _
    · exact .refl _
  refine (Restricts.refl _).bind fun t => ?_
  split
  · exact (Restricts.refl _).bind fun _ => (Restricts.refl _).bind fun _ =>
      (Restricts.refl _).bind fun _ => (Restricts.refl _).bind fun _ =>
        Restricts.bind (Restricts.many hround) fun _ => .refl _
  · exact (Restricts.refl _).bind fun _ => (Restricts.refl _).bind fun _ =>
      (Restricts.refl _).bind fun _ => (typeOf_restricts ht).bind fun _ => .refl _
  · exact .refl _

theorem declarationAt_restricts : ∀ {room room' : Nat}, room ≤ room' →
    (declarationAt room).Restricts (declarationAt room')
  | 0, _, _ => tooDeep_restricts _
  | _ + 1, _ + 1, h => by
    have hle := Nat.le_of_succ_le_succ h
    exact declarationOf_restricts (typeAt_restricts hle) (declarationAt_restricts hle)

/-- A declaration with fewer levels left is read as with more, or is too deep. -/
theorem declaration_restricts {room room' : Nat} (h : room ≤ room') :
    (declaration room).Restricts (declaration room') :=
  declarationOf_restricts (typeAt_restricts h) (declarationAt_restricts h)

/-! ## Files -/

section Files

variable {room room' : Nat} (h : room ≤ room')

include h

theorem sectionAt_restricts (kind : BlockKind) :
    (sectionAt room kind).Restricts (sectionAt room' kind) :=
  (Restricts.refl _).bind fun _ => (Restricts.refl _).bind fun _ =>
    (statements_restricts h kind _ false).bind fun _ => .refl _

theorem optionalSectionAt_restricts (kind : BlockKind) :
    (optionalSectionAt room kind).Restricts (optionalSectionAt room' kind) :=
  (Restricts.refl _).bind fun _ =>
    ((sectionAt_restricts h kind).bind fun _ => .refl _).ite (.refl _)

theorem procedureAt_restricts : (procedureAt room).Restricts (procedureAt room') :=
  (Restricts.refl _).bind fun _ => (Restricts.refl _).bind fun _ => (Restricts.refl _).bind fun _ =>
    (optionalSectionAt_restricts h _).bind fun _ => (Restricts.refl _).bind fun _ =>
      (sectionAt_restricts h _).bind fun _ => (optionalSectionAt_restricts h _).bind fun _ =>
        .refl _

theorem itemAt_restricts : (itemAt room).Restricts (itemAt room') := by
  refine (Restricts.refl _).bind fun t => ?_
  split
  · exact (procedureAt_restricts h).bind fun _ => .refl _
  · exact (declaration_restricts h).bind fun _ => .refl _
  · exact (declaration_restricts h).bind fun _ => .refl _
  · exact .refl _

/-- The items of a file with fewer levels are read as with more, or one is too deep. -/
theorem many_fileRoundAt_restricts :
    Restricts (many (fileRoundAt room)) (many (fileRoundAt room')) :=
  Restricts.many <| (Restricts.refl _).bind fun _ => (Restricts.refl _).bind fun _ =>
    (Restricts.refl _).ite ((itemAt_restricts h).bind fun _ => .refl _)

end Files

end Grammar

end OpsLang
