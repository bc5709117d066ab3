import OpsLang.Layout.Statement
import OpsLang.Proofs.NestingLimit
import OpsLang.Proofs.Precedence

/-!
# Conditions behind `confirm`

The reader prefers an activity behind `confirm`, but reads its arguments at another level
than those of a condition. That a condition confirmed is none that reads as an activity
(`confirmOperand_cases`, `confirmOperand_of_expression`) therefore needs that more levels make
no difference to what was read inside fewer (`binaryAt_restricts`).

Where an expression can be read, `confirm` is read with just that expression behind it, and the
shape of the expression tells which statement the two are (`Expr.confirmed`,
`confirm_of_expression`).
-/

namespace OpsLang

/-- The statement that `confirm` and the expression are : a name, a property or a call is an
activity, and any other expression is a condition. -/
def Expr.confirmed (line : Nat) : Expr → Statement
  | .name n => .activity .confirm ⟨[n]⟩ [] line
  | .property p => .activity .confirm p [] line
  | .call p as => .activity .confirm p as line
  | e => .check e line

theorem Expr.confirmed_of_not_activity {e : Expr} (h : e.readsAsActivity = false) (line : Nat) :
    e.confirmed line = .check e line := by
  cases e <;> first | rfl | cases h

namespace Grammar

open Reader

variable {room : Nat} {s s' : Stream}

theorem applyAll_isBinary (e : Expr) (o : BinaryOp × Expr) (ops : List (BinaryOp × Expr)) :
    (applyAll e (o :: ops)).isBinary = true := by
  induction ops generalizing e o with
  | nil => rfl
  | cons o' ops ih => exact ih (.binary o.1 e o.2) o'

theorem many_operation_nil {floor : Nat} {right : Nat → Reader Expr}
    (h : many (operation floor right) s = .ok [] s') : s' = s := by
  refine many_cases (motive := fun s ops s' => ops = [] → s' = s) ?stop ?pass ?item ?last h rfl
  case stop =>
    intro s s' hr _
    obtain ⟨-, heq, -⟩ | ⟨op, r, ht, -⟩ := operation_cases hr
    · exact heq
    · cases ht
  case pass =>
    intro s s₁ ops s' hr
    obtain ⟨ht, -⟩ | ⟨op, r, ht, -⟩ := operation_cases hr <;> cases ht
  case item =>
    rintro s a s₁ ops s' - - - ⟨⟩
  case last =>
    rintro s a s' - ⟨⟩

theorem not_readsAsActivity_number {lexeme : String} {e : Expr}
    (h : number lexeme s = .ok e s') : e.readsAsActivity = false := by
  rw [number_run] at h
  split at h
  · split at h <;> cases h <;> rfl
  · cases h
    rfl

/-- A name, a property or a call is read as the reference to its activity too, whose arguments
may be one level deeper. -/
theorem activityReference_of_nameOrCall {e : Expr}
    (h : nameOrCall (expression room) s = .ok e s') :
    ∃ p as, activityReference (expression (room + 1)) s = .ok (p, as) s' ∧
      ∀ line, e.confirmed line = .activity .confirm p as line := by
  rw [nameOrCall_run, Outcome.andThen_eq_ok] at h
  obtain ⟨p, s₁, hp, h⟩ := h
  rw [activityReference_run, hp, Outcome.andThen_ok]
  split at h
  · next hparen =>
    obtain ⟨as, has, rfl⟩ := Outcome.map_eq_ok.1 h
    have hdeeper : arguments (expression (room + 1)) s₁ = .ok as s' :=
      (arguments_restricts (expression_restricts (Nat.le_succ room))).ok has
    exact ⟨p, as, by rw [if_pos hparen, hdeeper, Outcome.map_ok], fun _ => rfl⟩
  · next hparen =>
    refine ⟨p, [], ?_, fun line => ?_⟩
    · rw [if_neg hparen]
      split at h <;> cases h <;> rfl
    · obtain ⟨segments⟩ := p
      split at h
      · next hsegments =>
        cases h
        cases hsegments
        rfl
      · cases h
        rfl

/-- What is read as a name, a property or a call would be read as an activity behind
`confirm`. -/
theorem activityReference_of_expression {c : Expr} (h : expression room s = .ok c s')
    (hc : c.readsAsActivity = true) :
    (∃ n, s.token = .name n) ∧ BinaryOp.ofToken? s'.token = none ∧
      ∃ p as, activityReference (expression room) s = .ok (p, as) s' ∧
        ∀ line, c.confirmed line = .activity .confirm p as line := by
  cases room with
  | zero => cases h
  | succ room =>
    rw [expression, binaryAt, climb, bind_run, Outcome.andThen_eq_ok] at h
    obtain ⟨e, s₁, he, h⟩ := h
    obtain ⟨ops, hops, rfl⟩ := Outcome.map_eq_ok.1 h
    cases ops with
    | cons o ops =>
      have hbinary := applyAll_isBinary e o ops
      cases hall : applyAll e (o :: ops) <;> simp_all [Expr.isBinary, Expr.readsAsActivity]
    | nil =>
      obtain rfl := many_operation_nil hops
      have hnone : BinaryOp.ofToken? s'.token = none := by
        rw [Option.eq_none_iff_forall_ne_some]
        intro op hop
        have hlt := many_operation_stops hops hop
        have hle := op.one_le_precedence
        omega
      replace hc : e.readsAsActivity = true := hc
      rw [operand_run] at he
      split at he
      · obtain ⟨e', -, rfl⟩ := Outcome.map_eq_ok.1 he
        cases hc
      · rw [primary_run] at he
        split at he
        · rw [not_readsAsActivity_number he] at hc
          cases hc
        · cases he
          cases hc
        · cases he
          cases hc
        · obtain ⟨e', s₂, -, he⟩ := Outcome.andThen_eq_ok.1 he
          obtain ⟨_, -, rfl⟩ := Outcome.map_eq_ok.1 he
          cases hc
        · next n hn => exact ⟨⟨n, hn⟩, hnone, activityReference_of_nameOrCall he⟩
        · cases he
        · cases he

theorem readsAsActivity_of_nameOrCall {value : Reader Expr} {e : Expr}
    (h : nameOrCall value s = .ok e s') : e.readsAsActivity = true := by
  rw [nameOrCall_run, Outcome.andThen_eq_ok] at h
  obtain ⟨p, s₁, -, h⟩ := h
  split at h
  · obtain ⟨as, -, rfl⟩ := Outcome.map_eq_ok.1 h
    rfl
  · split at h <;> cases h <;> rfl

/-- A condition that does not read as an activity is read as a condition behind `confirm` : if
it begins with a name, an operator stands behind what would be the activity. -/
theorem confirmOperand_of_expression {line : Nat} {c : Expr} (h : expression room s = .ok c s')
    (hc : c.readsAsActivity = false) :
    confirmOperand (expression room) line s = .ok (.check c line) s' := by
  have hcondition : confirmCondition (expression room) line s = .ok (.check c line) s' := by
    simp [confirmCondition, h]
  unfold confirmOperand
  split
  · next n hn =>
    cases room with
    | zero => cases h
    | succ room =>
      rw [expression, binaryAt, climb, bind_run, operand_of_name hn, Outcome.andThen_eq_ok] at h
      obtain ⟨e, s₁, he, h⟩ := h
      obtain ⟨ops, hops, rfl⟩ := Outcome.map_eq_ok.1 h
      obtain ⟨p, as, href, -⟩ := activityReference_of_nameOrCall he
      have hop : (BinaryOp.ofToken? s₁.token).isSome = true := by
        rw [← Option.ne_none_iff_isSome]
        intro hnone
        have hstop : operation 1 (binaryAt room) s₁ = .ok .stop s₁ := by
          rw [operation_run, hnone]
        rw [many_stop hstop] at hops
        cases hops
        exact absurd (readsAsActivity_of_nameOrCall he) (by simpa [applyAll] using hc)
      rw [href]
      simp only [hop, if_true, hcondition]
  · exact hcondition

/-- An activity without an operator behind it is read as one behind `confirm`. -/
theorem confirmOperand_of_reference {line : Nat} {p : Path} {as : List Argument}
    (hop : BinaryOp.ofToken? s'.token = none)
    (h : activityReference (expression room) s = .ok (p, as) s') :
    confirmOperand (expression room) line s = .ok (.activity .confirm p as line) s' := by
  have href := h
  rw [activityReference_run, Outcome.andThen_eq_ok] at href
  obtain ⟨_, s₁, hp, -⟩ := href
  rw [path_run, Outcome.andThen_eq_ok] at hp
  obtain ⟨n, s₂, hn, -⟩ := hp
  simp [confirmOperand, (name_eq_ok.1 hn).1, h, hop]

/-- Behind `confirm` there is an activity without an operator behind it, or a condition that
does not read as an activity. -/
theorem confirmOperand_cases {line : Nat} {st : Statement}
    (h : confirmOperand (expression room) line s = .ok st s') :
    (∃ p as, st = .activity .confirm p as line ∧ BinaryOp.ofToken? s'.token = none ∧
        activityReference (expression room) s = .ok (p, as) s') ∨
      ∃ c, st = .check c line ∧ c.readsAsActivity = false ∧ expression room s = .ok c s' := by
  have hcondition : confirmCondition (expression room) line s = .ok st s' →
      (∀ p as s₁, (∃ n, s.token = .name n) →
        activityReference (expression room) s = .ok (p, as) s₁ →
          BinaryOp.ofToken? s₁.token ≠ none) →
        ∃ c, st = .check c line ∧ c.readsAsActivity = false ∧ expression room s = .ok c s' := by
    intro h hne
    obtain ⟨c, hc, rfl⟩ := Outcome.map_eq_ok.1 h
    refine ⟨c, rfl, ?_, hc⟩
    rw [← Bool.not_eq_true]
    intro hact
    obtain ⟨hname, hnone, p, as, href, -⟩ := activityReference_of_expression hc hact
    exact hne p as s' hname href hnone
  unfold confirmOperand at h
  split at h
  · split at h
    · next p as s₁ href =>
      split at h
      · next hop =>
        refine .inr (hcondition h fun p' as' s₂ _ href' hnone => ?_)
        rw [href] at href'
        cases href'
        rw [hnone] at hop
        cases hop
      · next hop =>
        cases h
        exact .inl ⟨p, as, rfl, by simpa using hop, href⟩
    · next hfail =>
      refine .inr (hcondition h fun p' as' s₂ _ href' => ?_)
      rw [hfail] at href'
      cases href'
    · cases h
  · next hname =>
    exact .inr (hcondition h fun p as s₁ hn => absurd hn fun ⟨n, hn⟩ => hname n hn)

/-- Where an expression can be read behind `confirm`, the two are read as the statement that the
shape of the expression makes them, up to the end of the expression. -/
theorem confirm_of_expression {line : Nat} {c : Expr}
    (h : expression room s.advance = .ok c s') :
    confirm (expression room) line s = .ok (c.confirmed line) s' := by
  have hrun : confirm (expression room) line s =
      confirmOperand (expression room) line s.advance := by
    rw [confirm, bind_run, skip_run, Outcome.andThen_ok]
  cases hc : c.readsAsActivity with
  | false =>
    rw [hrun, confirmOperand_of_expression h hc, Expr.confirmed_of_not_activity hc]
  | true =>
    obtain ⟨-, hnone, p, as, href, hshape⟩ := activityReference_of_expression h hc
    rw [hrun, confirmOperand_of_reference hnone href, hshape]

/-- `confirm eps.SwitchOn(Line = true);` where no level is left inside the arguments. -/
theorem confirm_of_expression_call :
    let place : Token → Located := fun t => ⟨t, ⟨0, 0, 1, 1⟩⟩
    let rest : Stream := .ofTokens ([.symbol .semicolon, .eof].map place)
    let s : Stream := .ofTokens ([.keyword .confirm, .name "eps", .symbol .dot, .name "SwitchOn",
      .symbol .leftParen, .name "Line", .symbol .assign, .truth true, .symbol .rightParen,
      .symbol .semicolon, .eof].map place)
    let as : List Argument := [.named "Line" (.truth true)]
    expression 2 s.advance = .ok (.call ⟨["eps", "SwitchOn"]⟩ as) rest ∧
      confirm (expression 2) 1 s = .ok (.activity .confirm ⟨["eps", "SwitchOn"]⟩ as 1) rest := by
  intro place rest s as
  have h : expression 2 s.advance = .ok (.call ⟨["eps", "SwitchOn"]⟩ as) rest := by cbv
  exact ⟨h, confirm_of_expression h⟩

end Grammar

end OpsLang
