import OpsLang.Proofs.Halting.Reader

/-!
# Expressions halt

An expression comes to its end or to a fault whatever the last token of the stream is. It may
leave everything, since an operand that is the last token is an expression and the reader stays at
it. What carries the proof is that there is no other way (`Grounded`) : a dot, a comma and an
operator are no operands, and what has to stand behind them cannot be read at them again, so no
repetition comes back to where it began.
-/

namespace OpsLang

/-- The token alone is an expression. -/
def Token.IsOperand : Token → Prop
  | .name _ | .number _ | .string _ | .truth _ => True
  | _ => False

theorem Token.IsOperand.ne_eof {t : Token} (h : t.IsOperand) : t ≠ .eof := by
  rintro rfl
  exact h

namespace Grammar

open Reader

variable {Q : Token → Prop}

/-! ## Expressions -/

/-- On a stream whose last token is one of `Q` the reader leaves a rest, and it leaves everything
only where an operand stands alone. -/
structure Grounded (Q : Token → Prop) (value : Reader Expr) : Prop where
  halts : value.HaltsOn Q
  stays : ∀ {s e}, s.LastIs Q → value s = .ok e s → s.token.IsOperand ∧ s.ahead = []

theorem Grounded.proceedsOn {value : Reader Expr} (h : Grounded Q value)
    (hop : ∀ t : Token, t.IsOperand → ¬Q t) : value.ProceedsOn Q := by
  refine fun s hs => (h.halts s hs).past fun e hrun => ?_
  obtain ⟨htoken, hnil⟩ := h.stays hs hrun
  obtain ⟨t, ts⟩ := s
  obtain rfl : ts = [] := hnil
  exact hop _ htoken (Stream.lastIs_single.1 hs)

theorem grounded_of_proceedsOn {value : Reader Expr} (h : value.ProceedsOn Q) :
    Grounded Q value := by
  refine ⟨h.haltsOn, fun {s e} hs hrun => ?_⟩
  have hpast := h s hs
  rw [hrun] at hpast
  exact absurd hpast.2 (Nat.lt_irrefl _)

theorem grounded_tooDeep : Grounded Q tooDeep :=
  grounded_of_proceedsOn (proceedsOn_failAt _)

theorem memberRound_run {s : Stream} :
    memberRound s = if s.token = .symbol .dot then
      (member "identifier after '.'" s.advance).map .item else .ok .stop s := by
  rw [memberRound, bind_run, eat_run]
  split <;> rfl

/-- No member is a dot, so the members of a path end even if a dot is the last token. -/
theorem turnsOn_memberRound : memberRound.TurnsOn Q := by
  intro s hs
  rw [memberRound_run]
  split
  case isFalse => exact .refl s
  case isTrue hdot =>
    have hw := haltsOn_member "identifier after '.'" _ (s.reaches_advance.lastIs hs)
    refine ((hw.past_of_token fun n s' hrun => ?_).map _).turns
    rw [hdot]
    rcases (member_eq_ok.1 hrun).1 with h | ⟨h, -⟩ <;> simp [h]

theorem haltsOn_path : path.HaltsOn Q :=
  (haltsOn_name _).bind fun _ => turnsOn_memberRound.haltsOn_many.bind fun _ => haltsOn_pure _

theorem proceedsOn_path (hn : ∀ n, ¬Q (.name n)) : path.ProceedsOn Q :=
  (proceedsOn_name hn _).bind fun _ => turnsOn_memberRound.haltsOn_many.bind fun _ =>
    haltsOn_pure _

/-- A path leaves no more than what stands behind its first name. -/
theorem reaches_of_path {s s' : Stream} {p : Path} (hs : s.LastIs Q) (h : path s = .ok p s') :
    (∃ n, s.token = .name n) ∧ s.advance.Reaches s' := by
  rw [path_run, Outcome.andThen_eq_ok] at h
  obtain ⟨n, _, hname, h⟩ := h
  obtain ⟨ns, hmany, -⟩ := Outcome.map_eq_ok.1 h
  obtain ⟨htoken, rfl⟩ := name_eq_ok.1 hname
  exact ⟨⟨n, htoken⟩,
    turnsOn_memberRound.haltsOn_many.reaches (s.reaches_advance.lastIs hs) hmany⟩

section Values

variable {value behind inside : Reader Expr}

theorem haltsOn_argument (h : Grounded Q value) : (argument value).HaltsOn Q := by
  intro s hs
  have hadvance := s.reaches_advance.trans s.advance.reaches_advance
  rw [argument_run]
  split
  · exact ((h.halts _ (hadvance.lastIs hs)).map _).of_reaches hadvance
  · exact (h.halts s hs).map _

theorem argument_stays (h : Grounded Q value) {s : Stream} {a : Argument} (hs : s.LastIs Q)
    (hrun : argument value s = .ok a s) : s.token.IsOperand := by
  rw [argument_run] at hrun
  split at hrun
  · next hn _ =>
    rw [hn]
    trivial
  · obtain ⟨e, hvalue, -⟩ := Outcome.map_eq_ok.1 hrun
    exact (h.stays hs hvalue).1

/-- No argument stays at a comma, so arguments end even if a comma is the last token. -/
theorem turnsOn_argumentRound (h : Grounded Q value) : (argumentRound value).TurnsOn Q := by
  intro s hs
  have harg := haltsOn_argument h s hs
  rw [argumentRound_run]
  split
  · exact .refl s
  cases hrun : argument value s with
  | ok a s₁ =>
    rw [hrun] at harg
    rw [Outcome.andThen_ok]
    split
    case isFalse => exact harg
    case isTrue hcomma =>
      have hr := Stream.Reaches.trans harg s₁.reaches_advance
      refine ⟨hr, Nat.lt_of_not_le fun hle => ?_⟩
      obtain rfl : s = s₁ := Stream.Reaches.antisymm harg
        (hr.eq_of_size_le hle ▸ s₁.reaches_advance)
      have hoperand := argument_stays h hs hrun
      rwa [hcomma] at hoperand
  | fail d s₁ =>
    rw [hrun] at harg
    exact harg
  | endless =>
    rw [hrun] at harg
    exact harg

theorem haltsOn_arguments (h : Grounded Q value) : (arguments value).HaltsOn Q := by
  rw [arguments_eq]
  exact (haltsOn_symbol _).bind fun _ => (turnsOn_argumentRound h).haltsOn_many.bind fun _ =>
    (haltsOn_symbol _).bind fun _ => haltsOn_pure _

theorem number_within (lexeme : String) (s : Stream) : (number lexeme s).Within s.advance := by
  rw [number_run]
  split
  · split
    · exact s.advance.reaches_advance
    · exact .refl _
  · exact .refl _

theorem haltsOn_nameOrCall (h : Grounded Q value) : (nameOrCall value).HaltsOn Q := by
  refine haltsOn_path.bind fun p => haltsOn_peek.bind fun _ => HaltsOn.ite ?_ ?_
  · exact (haltsOn_arguments h).bind fun _ => haltsOn_pure _
  · split <;> exact haltsOn_pure _

theorem reaches_of_nameOrCall (h : Grounded Q value) {s s' : Stream} {e : Expr}
    (hs : s.LastIs Q) (hrun : nameOrCall value s = .ok e s') : s.advance.Reaches s' := by
  rw [nameOrCall_run, Outcome.andThen_eq_ok] at hrun
  obtain ⟨p, s₁, hpath, hrun⟩ := hrun
  have hr := (reaches_of_path hs hpath).2
  split at hrun
  · obtain ⟨as, hargs, -⟩ := Outcome.map_eq_ok.1 hrun
    have hs₁ := (s.reaches_advance.trans hr).lastIs hs
    exact hr.trans ((haltsOn_arguments h).reaches hs₁ hargs)
  · split at hrun <;>
    · obtain ⟨-, rfl⟩ := Outcome.ok.inj hrun
      exact hr

theorem grounded_primary (h : Grounded Q inside) : Grounded Q (primary inside) := by
  refine ⟨fun s hs => ?halts, fun {s e} hs hrun => ?stays⟩
  case halts =>
    have hadvance := s.reaches_advance
    rw [primary_run]
    split
    · exact (number_within _ s).of_reaches hadvance
    · exact hadvance
    · exact hadvance
    · exact ((h.halts.bind fun e => (haltsOn_symbol .rightParen).bind fun _ =>
        haltsOn_pure (Expr.parens e)) _ (hadvance.lastIs hs)).of_reaches hadvance
    · exact haltsOn_nameOrCall h s hs
    · exact .refl s
    · exact .refl s
  case stays =>
    have hadvance := s.reaches_advance.lastIs hs
    suffices s.token.IsOperand ∧ s.advance.Reaches s from
      ⟨this.1, Stream.ahead_of_advance (Stream.advance_of_reaches this.2)⟩
    rw [primary_run] at hrun
    split at hrun
    case h_1 x htoken =>
      have hw := number_within x s
      rw [hrun] at hw
      exact ⟨htoken ▸ trivial, hw⟩
    case h_2 htoken => exact ⟨htoken ▸ trivial, ⟨[], (Outcome.ok.inj hrun).2⟩⟩
    case h_3 htoken => exact ⟨htoken ▸ trivial, ⟨[], (Outcome.ok.inj hrun).2⟩⟩
    case h_4 htoken =>
      -- Both parentheses would be the token that the reading stays at.
      obtain ⟨e', s₁, hinside, hrun⟩ := Outcome.andThen_eq_ok.1 hrun
      obtain ⟨_, hclose, -⟩ := Outcome.map_eq_ok.1 hrun
      obtain ⟨hclose, hend⟩ := symbol_eq_ok.1 hclose
      have hs₁ : s = s₁ := (s.reaches_advance.trans (h.halts.reaches hadvance hinside)).antisymm
        (hend ▸ s₁.reaches_advance)
      rw [← hs₁, htoken] at hclose
      cases hclose
    case h_5 htoken => exact ⟨htoken ▸ trivial, reaches_of_nameOrCall h hs hrun⟩
    all_goals cases hrun

theorem grounded_operand (hb : Grounded Q behind) (hi : Grounded Q inside) :
    Grounded Q (operand behind inside) := by
  have hprimary := grounded_primary hi
  refine ⟨fun s hs => ?halts, fun {s e} hs hrun => ?stays⟩
  case halts =>
    have hadvance := s.reaches_advance
    rw [operand_run]
    split
    · exact ((hb.halts _ (hadvance.lastIs hs)).map _).of_reaches hadvance
    · exact hprimary.halts s hs
  case stays =>
    rw [operand_run] at hrun
    split at hrun
    · next op hop =>
      obtain ⟨e', hbehind, -⟩ := Outcome.map_eq_ok.1 hrun
      have hstay := Stream.advance_of_reaches
        (hb.halts.reaches (s.reaches_advance.lastIs hs) hbehind)
      rw [hstay] at hbehind
      have hoperand := (hb.stays hs hbehind).1
      generalize s.token = t at hop hoperand
      cases t <;> simp_all [Token.IsOperand, UnaryOp.ofToken?]
    · exact hprimary.stays hs hrun

/-- No right operand stays at an operator, so operations end even if an operator is the last
token. -/
theorem turnsOn_operation (floor : Nat) {right : Nat → Reader Expr}
    (h : ∀ n, Grounded Q (right n)) : (operation floor right).TurnsOn Q := by
  intro s hs
  have hadvance := s.reaches_advance
  rw [operation_run]
  split
  case h_2 => exact .refl s
  case h_1 op hop =>
  split
  · exact .refl s
  have hright := h op.rightFloor
  have hw := (hright.halts _ (hadvance.lastIs hs)).of_reaches hadvance
  refine ((hw.past fun e hrun => ?_).map _).turns
  have hstay := Stream.advance_of_reaches (hright.halts.reaches (hadvance.lastIs hs) hrun)
  rw [hstay] at hrun
  have hoperand := (hright.stays hs hrun).1
  generalize s.token = t at hop hoperand
  cases t <;> simp_all [Token.IsOperand, BinaryOp.ofToken?]

theorem grounded_climb (floor : Nat) {first : Reader Expr} {right : Nat → Reader Expr}
    (hf : Grounded Q first) (hr : ∀ n, Grounded Q (right n)) :
    Grounded Q (climb floor first right) := by
  have hmany := (turnsOn_operation floor hr).haltsOn_many
  refine ⟨hf.halts.bind fun _ => hmany.bind fun _ => haltsOn_pure _, fun {s e} hs hrun => ?_⟩
  obtain ⟨e', s₁, hfirst, hrun⟩ := Outcome.andThen_eq_ok.1 hrun
  obtain ⟨os, hops, -⟩ := Outcome.map_eq_ok.1 hrun
  have hr₁ := hf.halts.reaches hs hfirst
  have hs₁ : s = s₁ := hr₁.antisymm (hmany.reaches (hr₁.lastIs hs) hops)
  subst hs₁
  exact hf.stays hs hfirst

end Values

mutual

theorem grounded_binaryAt : ∀ room floor : Nat, Grounded Q (binaryAt room floor)
  | 0, _ => grounded_tooDeep
  | room + 1, floor =>
    grounded_climb floor (grounded_operand (grounded_unaryAt room) (grounded_binaryAt room 1))
      fun n => grounded_binaryAt room n

theorem grounded_unaryAt : ∀ room : Nat, Grounded Q (unaryAt room)
  | 0 => grounded_tooDeep
  | room + 1 => grounded_operand (grounded_unaryAt room) (grounded_binaryAt room 1)

end

/-- Whatever the last token is, an expression comes to its end or to a fault. -/
theorem grounded_expression (room : Nat) : Grounded Q (expression room) :=
  grounded_binaryAt room 1

end Grammar

end OpsLang
