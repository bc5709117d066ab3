import OpsLang.Proofs.Taking
import OpsLang.Proofs.Termination

/-!
# Reading by precedence

A tree that the expression reader accepts groups its operators by precedence and spells the
tokens taken for it (`takes_binaryAt`). What carries this through the loop of `climb` is that
every operator applied so far could have the next one outside it (`applyAll_spells`) : the
tree read up to here is a left operand for whatever operator may follow.
-/

namespace OpsLang

namespace Grammar

open Reader

/-! ## What expressions take -/

/-- What a round of a dotted name takes. -/
def MemberTurn : Turn String → List Token → Prop
  | .stop, ts => ts = []
  | .item n, ts => ∃ t, t.IsMember n ∧ ts = [.symbol .dot, t]
  | _, _ => False

/-- What a round of arguments takes. -/
def ArgumentTurn (room : Nat) : Turn Argument → List Token → Prop
  | .stop, ts => ts = []
  | .item a, ts => ∃ us, (a.Spells us ∧ a.Fits room) ∧ ts = us ++ [.symbol .comma]
  | .last a, ts => a.Spells ts ∧ a.Fits room
  | .pass, _ => False

theorem takes_memberRound : memberRound.Takes MemberTurn := by
  refine (Takes.ifEat (by simp) ((takes_member _).bind fun n => takes_pure _)
    (takes_pure _)).mono ?_
  rintro t _ (⟨_, ⟨n, _, _, ⟨u, hu, rfl⟩, ⟨rfl, rfl⟩, rfl⟩, rfl⟩ | ⟨rfl, rfl⟩)
  · exact ⟨u, hu, rfl⟩
  · rfl

theorem membersSpell_of_rounds {ns : List String} {ts : List Token}
    (h : Rounds MemberTurn ns ts) : MembersSpell ns ts := by
  induction h with
  | stop h => exact h
  | pass h => exact h.elim
  | item h _ ih =>
    obtain ⟨t, ht, rfl⟩ := h
    exact ⟨t, _, ht, ih, rfl⟩
  | last h => exact h.elim

theorem takes_path : path.Takes fun p ts => p.segments ≠ [] ∧ p.Spells ts := by
  rw [path_eq]
  refine ((takes_name _).bind fun n => (takes_many takes_memberRound).bind fun ns =>
    takes_pure _).mono ?_
  rintro p _ ⟨n, _, _, rfl, ⟨ns, us, _, hns, ⟨rfl, rfl⟩, rfl⟩, rfl⟩
  exact ⟨by simp, us, membersSpell_of_rounds hns, by simp⟩

theorem number_spells {room : Nat} {lexeme : String} {s s' : Stream} {e : Expr} (hs : s.Ends)
    (ht : s.token = .number lexeme) (hr : number lexeme s = .ok e s') :
    ∃ us, s = s'.behind us ∧ e.Spells (words us) ∧ e.Fits (room + 1) ∧ e.isBinary = false := by
  have hnum : ∀ {e s'}, Outcome.ok (Expr.number (.ofLexeme lexeme)) s.advance = .ok e s' →
      ∃ us, s = s'.behind us ∧ e.Spells (words us) ∧ e.Fits (room + 1) ∧ e.isBinary = false := by
    intro e s' hr
    obtain ⟨rfl, hadv⟩ := Outcome.ok.inj hr
    refine ⟨[s.here], eq_behind_of_advance hs (by simp [ht]) hadv, ?_, by simp, rfl⟩
    show [s.token] = _
    rw [ht, Numeral.lexeme_ofLexeme]
  rw [number_run] at hr
  split at hr
  · next u hu =>
    split at hr
    · next q hq =>
      have hq' : Quantity.ofUnit? u = some q := by
        split at hq
        · exact hq
        · cases hq
      obtain ⟨rfl, hadv⟩ := Outcome.ok.inj hr
      have hs₁ := eq_behind_of_advance hs.advance (by simp [hu]) hadv
      refine ⟨_, hs.eq_behind_cons (by simp [ht]) hs₁, ?_, by simpa using hq', rfl⟩
      show [s.token, s.advance.token] = _
      rw [ht, hu, Numeral.lexeme_ofLexeme]
    · exact hnum hr
  · exact hnum hr

section Arguments

variable {room : Nat} {value : Reader Expr}
  (h : value.Takes fun e ts => e.Spells ts ∧ e.Fits room)

include h

theorem takes_argument : (argument value).Takes fun a ts => a.Spells ts ∧ a.Fits room := by
  intro s a s' hs hr
  rw [argument_run] at hr
  split at hr
  · next n hn ha =>
    obtain ⟨e, he, rfl⟩ := Outcome.map_eq_ok.1 hr
    obtain ⟨us, hus, hsp, hfit⟩ := h hs.advance.advance he
    have hadv : s.advance.token = .symbol .assign := by
      rw [Stream.token_advance_of_next (by simp [ha]), ha]
    have hs₁ := hs.advance.eq_behind_cons (by simp [hadv]) hus
    refine ⟨_, hs.eq_behind_cons (by simp [hn]) hs₁, ⟨words us, hsp, ?_⟩, by simpa using hfit⟩
    show s.token :: s.advance.token :: words us = _
    rw [hn, hadv]
  · obtain ⟨e, he, rfl⟩ := Outcome.map_eq_ok.1 hr
    obtain ⟨us, hus, hsp, hfit⟩ := h hs he
    exact ⟨us, hus, hsp, by simpa using hfit⟩

theorem takes_argumentRound : (argumentRound value).Takes (ArgumentTurn room) := by
  refine (takes_peek.bind fun t =>
    Takes.ite (P := ArgumentTurn room) (fun _ => ?_) fun _ => ?_).mono ?_
  · refine (takes_pure _).mono ?_
    rintro t _ ⟨rfl, rfl⟩
    rfl
  · refine ((takes_argument h).bind fun a => Takes.ifEat (by simp) (takes_pure (Turn.item a))
      (takes_pure (Turn.last a))).mono ?_
    rintro t _ ⟨a, us, _, ha, ⟨_, ⟨rfl, rfl⟩, rfl⟩ | ⟨rfl, rfl⟩, rfl⟩
    · exact ⟨us, ha, rfl⟩
    · rw [List.append_nil]
      exact ha
  · rintro t _ ⟨_, _, us, rfl, ht, rfl⟩
    exact ht

omit h in
theorem allSpell_of_rounds {as : List Argument} {ts : List Token}
    (h : Rounds (ArgumentTurn room) as ts) :
    Argument.AllSpell as ts ∧ ∀ a ∈ as, a.Fits room := by
  induction h with
  | stop h => exact ⟨h, by simp⟩
  | pass h => exact h.elim
  | @item a as _ vs h _ ih =>
    obtain ⟨us, ⟨ha, hfit⟩, rfl⟩ := h
    refine ⟨⟨us, .symbol .comma :: vs, ha, by simp, .inr ⟨vs, ih.1, rfl⟩⟩, ?_⟩
    exact List.forall_mem_cons.2 ⟨hfit, ih.2⟩
  | @last a ts h =>
    exact ⟨⟨ts, [], h.1, by simp, .inl ⟨rfl, rfl⟩⟩, by simpa using h.2⟩

theorem takes_arguments :
    (arguments value).Takes fun as ts => (∀ a ∈ as, a.Fits room) ∧
      ∃ us, Argument.AllSpell as us ∧
        ts = .symbol .leftParen :: (us ++ [Token.symbol .rightParen]) := by
  rw [arguments_eq]
  refine ((takes_symbol _).bind fun _ => (takes_many (takes_argumentRound h)).bind fun as =>
    (takes_symbol _).bind fun _ => takes_pure _).mono ?_
  rintro as _ ⟨_, _, _, rfl, ⟨_, us, _, has, ⟨_, _, _, rfl, ⟨rfl, rfl⟩, rfl⟩, rfl⟩, rfl⟩
  obtain ⟨hsp, hfit⟩ := allSpell_of_rounds has
  exact ⟨hfit, us, hsp, rfl⟩

theorem takes_nameOrCall :
    (nameOrCall value).Takes fun e ts =>
      e.Spells ts ∧ e.Fits (room + 1) ∧ e.isBinary = false := by
  intro s e s' hs hr
  rw [nameOrCall_run, Outcome.andThen_eq_ok] at hr
  obtain ⟨p, s₁, hp, hr⟩ := hr
  obtain ⟨us, rfl, hne, hsp⟩ := takes_path hs hp
  split at hr
  · obtain ⟨as, has, rfl⟩ := Outcome.map_eq_ok.1 hr
    obtain ⟨_, rfl, hfit, vs, hvs, htok⟩ := takes_arguments h hs.of_behind has
    refine ⟨_, Stream.behind_append.symm, ⟨words us, vs, hsp, hvs, ?_⟩, ?_, rfl⟩
    · rw [words_append]
      exact congrArg (words us ++ ·) htok
    · simpa using ⟨List.length_pos_iff.2 hne, hfit⟩
  · split at hr
    · next n hn =>
      obtain ⟨rfl, rfl⟩ := Outcome.ok.inj hr
      refine ⟨us, rfl, ?_, by simp, rfl⟩
      rw [Path.Spells, hn] at hsp
      obtain ⟨_, rfl, hus⟩ := hsp
      exact hus
    · next hn =>
      obtain ⟨rfl, rfl⟩ := Outcome.ok.inj hr
      refine ⟨us, rfl, hsp, ?_, rfl⟩
      have hlen : 2 ≤ p.segments.length := by
        rcases hseg : p.segments with _ | ⟨n, _ | ⟨n', ns⟩⟩
        · exact absurd hseg hne
        · exact absurd hseg (hn n)
        · simp
      simpa using hlen

theorem takes_primary :
    (primary value).Takes fun e ts => e.Spells ts ∧ e.Fits (room + 1) ∧ e.isBinary = false := by
  intro s e s' hs hr
  rw [primary_run] at hr
  split at hr
  · next lexeme ht => exact number_spells hs ht hr
  · next content ht =>
    obtain ⟨rfl, hadv⟩ := Outcome.ok.inj hr
    exact ⟨[s.here], eq_behind_of_advance hs (by simp [ht]) hadv,
      congrArg (fun t => [t]) ht, by simp, rfl⟩
  · next value ht =>
    obtain ⟨rfl, hadv⟩ := Outcome.ok.inj hr
    exact ⟨[s.here], eq_behind_of_advance hs (by simp [ht]) hadv,
      congrArg (fun t => [t]) ht, by simp, rfl⟩
  · next ht =>
    obtain ⟨e, s₁, he, hr⟩ := Outcome.andThen_eq_ok.1 hr
    obtain ⟨_, hclose, rfl⟩ := Outcome.map_eq_ok.1 hr
    obtain ⟨us, hus, hsp, hfit⟩ := h hs.advance he
    have hs₁ : s₁.Ends := by
      have := hs.advance
      rw [hus] at this
      exact this.of_behind
    obtain ⟨vs, rfl, hvs⟩ := takes_symbol _ hs₁ hclose
    rw [← Stream.behind_append] at hus
    refine ⟨_, hs.eq_behind_cons (by simp [ht]) hus, ⟨words us, hsp, ?_⟩, by simpa using hfit, rfl⟩
    show s.token :: words (us ++ vs) = _
    rw [ht, words_append, hvs]
  · exact takes_nameOrCall h hs hr
  · cases hr
  · cases hr

end Arguments

/-- What stands behind a unary operator, or an operand. -/
theorem takes_operand {room : Nat} {behind inside : Reader Expr}
    (hb : behind.Takes fun e ts => e.Spells ts ∧ e.Fits room ∧ e.isBinary = false)
    (hi : inside.Takes fun e ts => e.Spells ts ∧ e.Fits room) :
    (operand behind inside).Takes fun e ts =>
      e.Spells ts ∧ e.Fits (room + 1) ∧ e.isBinary = false := by
  intro s e s' hs hr
  rw [operand_run] at hr
  split at hr
  · next op hop =>
    obtain ⟨e, he, rfl⟩ := Outcome.map_eq_ok.1 hr
    obtain ⟨us, hus, hsp, hfit, hnb⟩ := hb hs.advance he
    have ht := UnaryOp.ofToken?_eq_some.1 hop
    have hne : s.token ≠ .eof := by
      rw [ht]
      cases op <;> simp [UnaryOp.token]
    refine ⟨_, hs.eq_behind_cons hne hus, ⟨words us, hsp, ?_⟩, by simpa using ⟨hnb, hfit⟩, rfl⟩
    exact congrArg (· :: words us) ht
  · exact takes_primary hi hs hr

/-! ## The loop over operators -/

/-- A round of the loop stops where it is, or takes an operator with its right operand. -/
theorem operation_cases {floor : Nat} {right : Nat → Reader Expr} {s s' : Stream}
    {t : Turn (BinaryOp × Expr)} (h : operation floor right s = .ok t s') :
    (t = .stop ∧ s' = s ∧ ∀ op, BinaryOp.ofToken? s.token = some op → op.precedence < floor) ∨
      ∃ op r, t = .item (op, r) ∧ s.token = op.token ∧ floor ≤ op.precedence ∧
        right op.rightFloor s.advance = .ok r s' := by
  rw [operation_run] at h
  split at h
  · next op hop =>
    split at h
    · next hlt =>
      obtain ⟨rfl, rfl⟩ := Outcome.ok.inj h
      exact .inl ⟨rfl, rfl, fun op' hop' => by rwa [← Option.some.inj (hop.symm.trans hop')]⟩
    · next hge =>
      obtain ⟨r, hr, rfl⟩ := Outcome.map_eq_ok.1 h
      exact .inr ⟨op, r, rfl, BinaryOp.ofToken?_eq_some.1 hop, Nat.le_of_not_lt hge, hr⟩
  · next hnone =>
    obtain ⟨rfl, rfl⟩ := Outcome.ok.inj h
    exact .inl ⟨rfl, rfl, fun op hop => by simp [hnone] at hop⟩

/-- The loop stops where no operator of precedence `floor` or more stands. -/
theorem many_operation_stops {floor : Nat} {right : Nat → Reader Expr} {s s' : Stream}
    {ops : List (BinaryOp × Expr)} (h : many (operation floor right) s = .ok ops s')
    {op : BinaryOp} (hop : BinaryOp.ofToken? s'.token = some op) : op.precedence < floor := by
  refine many_cases (motive := fun _ _ s' => ∀ op, BinaryOp.ofToken? s'.token = some op →
    op.precedence < floor) ?stop ?pass ?item ?last h op hop
  case stop =>
    intro s s' hr
    obtain ⟨-, rfl, hlt⟩ | ⟨op, r, ht, -⟩ := operation_cases hr
    · exact hlt
    · cases ht
  case pass => exact fun _ _ ih => ih
  case item => exact fun _ _ ih => ih
  case last =>
    intro s a s' hr
    obtain ⟨ht, -⟩ | ⟨op, r, ht, -⟩ := operation_cases hr <;> cases ht

theorem climb_stops {floor : Nat} {first : Reader Expr} {right : Nat → Reader Expr}
    {s s' : Stream} {e : Expr} (h : climb floor first right s = .ok e s') {op : BinaryOp}
    (hop : BinaryOp.ofToken? s'.token = some op) : op.precedence < floor := by
  rw [climb, bind_run, Outcome.andThen_eq_ok] at h
  obtain ⟨e₁, s₁, -, h⟩ := h
  obtain ⟨ops, h, -⟩ := Outcome.map_eq_ok.1 h
  exact many_operation_stops h hop

theorem binaryAt_stops {room floor : Nat} {s s' : Stream} {e : Expr}
    (h : binaryAt room floor s = .ok e s') {op : BinaryOp}
    (hop : BinaryOp.ofToken? s'.token = some op) : op.precedence < floor := by
  cases room with
  | zero => cases h
  | succ room => exact climb_stops h hop

/-- The loop extends a tree on the left to one that spells all that is taken. The operator
ahead can always take the tree read so far as its left operand. -/
theorem applyAll_spells {room floor : Nat} {right : Nat → Reader Expr}
    (hr : ∀ n, (right n).Takes fun e ts =>
      e.Spells ts ∧ e.Fits room ∧ e.bindsBelow n = false)
    (hstop : ∀ n {s e s'}, right n s = .ok e s' → ∀ {op}, BinaryOp.ofToken? s'.token = some op →
      op.precedence < n)
    {s s' : Stream} {ops : List (BinaryOp × Expr)} (hs : s.Ends)
    (h : many (operation floor right) s = .ok ops s') {l : Expr} {ts : List Token}
    (hl : l.Spells ts) (hfit : l.Fits (room + 1)) (hfloor : l.bindsBelow floor = false)
    (hnext : ∀ op, BinaryOp.ofToken? s.token = some op → l.bindsBelow op.leftFloor = false) :
    ∃ us, s = s'.behind us ∧ (applyAll l ops).Spells (ts ++ words us) ∧
      (applyAll l ops).Fits (room + 1) ∧ (applyAll l ops).bindsBelow floor = false := by
  refine many_cases (motive := fun s ops s' => s.Ends → ∀ l ts, l.Spells ts → l.Fits (room + 1) →
    l.bindsBelow floor = false →
    (∀ op, BinaryOp.ofToken? s.token = some op → l.bindsBelow op.leftFloor = false) →
    ∃ us, s = s'.behind us ∧ (applyAll l ops).Spells (ts ++ words us) ∧
      (applyAll l ops).Fits (room + 1) ∧ (applyAll l ops).bindsBelow floor = false)
    ?stop ?pass ?item ?last h hs l ts hl hfit hfloor hnext
  case stop =>
    intro s s' h _ l ts hl hfit hfloor _
    obtain ⟨-, rfl, -⟩ | ⟨op, r, ht, -⟩ := operation_cases h
    · exact ⟨[], rfl, by simpa [applyAll] using hl, hfit, hfloor⟩
    · cases ht
  case item =>
    intro s a s₁ ops s' h _ ih hs l ts hl hfit hfloor hnext
    obtain ⟨ht, -⟩ | ⟨op, r, ht, htok, hge, hrun⟩ := operation_cases h
    · cases ht
    · cases ht
      obtain ⟨us, hus, hspell, hfitr, hrfloor⟩ := hr _ hs.advance hrun
      have hne : s.token ≠ .eof := fun he => by cases op <;> simp [he, BinaryOp.token] at htok
      have hs₁ := hs.eq_behind_cons hne hus
      have hends : s₁.Ends := by
        rw [hs₁] at hs
        exact hs.of_behind
      have hop : BinaryOp.ofToken? s.token = some op := BinaryOp.ofToken?_eq_some.2 htok
      have htake : ∀ op', BinaryOp.ofToken? s₁.token = some op' →
          (Expr.binary op l r).bindsBelow op'.leftFloor = false := by
        intro op' hop'
        simpa [Expr.bindsBelow] using (BinaryOp.leftFloor_le_iff op' op).2 (hstop _ hrun hop')
      obtain ⟨vs, rfl, hrest⟩ := ih hends (.binary op l r) (ts ++ op.token :: words us)
        ⟨ts, words us, hl, hspell, rfl⟩
        (Expr.fits_binary.2 ⟨⟨hnext op hop, hrfloor⟩, hfit, hfitr⟩)
        (by simpa [Expr.bindsBelow] using hge) htake
      refine ⟨s.here :: us ++ vs, by rw [hs₁, ← Stream.behind_append]; rfl, ?_⟩
      have hhere : s.here.token = op.token := htok
      simpa [hhere, applyAll] using hrest
  case pass =>
    intro s s₁ ops s' h
    obtain ⟨ht, -⟩ | ⟨op, r, ht, -⟩ := operation_cases h <;> cases ht
  case last =>
    intro s a s' h
    obtain ⟨ht, -⟩ | ⟨op, r, ht, -⟩ := operation_cases h <;> cases ht

theorem takes_climb {room : Nat} {first : Reader Expr} {right : Nat → Reader Expr}
    (hf : first.Takes fun e ts => e.Spells ts ∧ e.Fits (room + 1) ∧ e.isBinary = false)
    (hr : ∀ n, (right n).Takes fun e ts => e.Spells ts ∧ e.Fits room ∧ e.bindsBelow n = false)
    (hstop : ∀ n {s e s'}, right n s = .ok e s' → ∀ {op}, BinaryOp.ofToken? s'.token = some op →
      op.precedence < n) (floor : Nat) :
    (climb floor first right).Takes fun e ts =>
      e.Spells ts ∧ e.Fits (room + 1) ∧ e.bindsBelow floor = false := by
  intro s e s' hs h
  rw [climb, bind_run, Outcome.andThen_eq_ok] at h
  obtain ⟨l, s₁, hl, h⟩ := h
  obtain ⟨ops, hops, rfl⟩ := Outcome.map_eq_ok.1 h
  obtain ⟨us, rfl, hspell, hfit, hnb⟩ := hf hs hl
  have hbelow := Expr.bindsBelow_of_not_isBinary hnb
  obtain ⟨vs, rfl, hspells, hres⟩ := applyAll_spells hr hstop hs.of_behind hops hspell hfit
    (hbelow floor) fun op _ => hbelow op.leftFloor
  exact ⟨us ++ vs, Stream.behind_append.symm, by simpa using hspells, hres⟩

mutual

/-- What is read as an expression is spelled by the tokens taken, and groups by
precedence. -/
theorem takes_binaryAt : ∀ room floor : Nat, (binaryAt room floor).Takes fun e ts =>
    e.Spells ts ∧ e.Fits room ∧ e.bindsBelow floor = false
  | 0, _ => takes_failAt _
  | room + 1, floor => by
    have hinside : (binaryAt room 1).Takes fun e ts => e.Spells ts ∧ e.Fits room :=
      (takes_binaryAt room 1).mono fun _ _ h => ⟨h.1, h.2.1⟩
    exact takes_climb (takes_operand (takes_unaryAt room) hinside) (takes_binaryAt room)
      (fun _ _ _ _ => binaryAt_stops) floor

theorem takes_unaryAt : ∀ room : Nat, (unaryAt room).Takes fun e ts =>
    e.Spells ts ∧ e.Fits room ∧ e.isBinary = false
  | 0 => takes_failAt _
  | room + 1 => by
    have hinside : (binaryAt room 1).Takes fun e ts => e.Spells ts ∧ e.Fits room :=
      (takes_binaryAt room 1).mono fun _ _ h => ⟨h.1, h.2.1⟩
    exact takes_operand (takes_unaryAt room) hinside

end

theorem takes_expression (room : Nat) :
    (expression room).Takes fun e ts => e.Spells ts ∧ e.Fits room :=
  (takes_binaryAt room 1).mono fun _ _ h => ⟨h.1, h.2.1⟩

end Grammar

end OpsLang
