import OpsLang.Proofs.Forking.Expr
import OpsLang.Proofs.Rereading.Statement

/-!
# Statements that fork

A block ends before the token at `x` and not before that at `y` if the one ends a run of statements
and the other does not. What follows the block then is told by the token at `x` alone, which is
passed, or is refused where another end of a block is wanted (`forked_endOf_of_end`).

The one reader that goes back is that of the operand of `confirm`. Whether an activity or a
condition is read depends on what stands behind it, so that the two rows may differ in this. But
then an operator stands at `x`, and the condition passes it, unless it is too deep
(`expression_passes_of_activityReference`).
-/

namespace OpsLang

theorem Forked.of_tooDeep {α : Type} {x y : Stream} {L : Prop} {C : α → Prop} {us : List Located}
    {o o' o'' : Outcome α} (h : Forked x y L C us o o') (hL : L) (ho : o.IsTooDeep) :
    Forked x y L C us o o'' := by
  obtain ⟨s, rfl⟩ := ho
  cases h with
  | before hd _ => exact .before hd (.inl hL)
  | here h =>
    exact .here (.of_entries [] h.span rfl (by simp) (by simp))
  | behind h => exact .behind h

namespace Grammar

open Reader

variable {x y : Stream} {L : Prop} {us : List Located} {room : Nat}

/-! ## Confirmed activities and conditions -/

/-- What is read as an activity is read as a name or a call, unless its arguments are too deep. -/
theorem nameOrCall_of_activityReference {s s' : Stream} {a : Path × List Argument}
    (h : activityReference (expression (room + 1)) s = .ok a s') :
    (∃ e, nameOrCall (expression room) s = .ok e s') ∨
      (nameOrCall (expression room) s).IsTooDeep := by
  rw [activityReference_run] at h
  obtain ⟨p, s₁, hp, hrest⟩ := Outcome.andThen_eq_ok.1 h
  rw [nameOrCall_run, hp, Outcome.andThen_ok]
  split at hrest
  · next hparen =>
    obtain ⟨as, has, -⟩ := Outcome.map_eq_ok.1 hrest
    rw [if_pos hparen]
    obtain heq | hdeep := arguments_restricts (expression_restricts (Nat.le_succ room)) s₁
    · exact .inl ⟨.call p as, by rw [heq, has]; rfl⟩
    · exact .inr (hdeep.map _)
  · next hparen =>
    cases hrest
    rw [if_neg hparen]
    split <;> exact .inl ⟨_, rfl⟩

/-- Where an operator stands behind an activity, a condition goes on with it, or is too deep. -/
theorem expression_passes_of_activityReference {s s' : Stream} {n : String}
    {a : Path × List Argument} (hn : s.token = .name n) (hs : s.Closed)
    (h : activityReference (expression room) s = .ok a s')
    (hop : (BinaryOp.ofToken? s'.token).isSome) :
    (expression room s).Passes s' ∨ (expression room s).IsTooDeep := by
  cases room with
  | zero => exact .inr ⟨s, rfl⟩
  | succ room =>
    have hreaches : s.Reaches s' := by
      have hlands := (marks_activityReference blames_of_explains
        (marks_expression (room + 1))).lands s hs
      rwa [h] at hlands
    obtain ⟨op, hop⟩ := Option.isSome_iff_exists.1 hop
    have hoperations : (operation 1 (binaryAt room)).Lands :=
      lands_operation fun n => (marks_binaryAt room n).lands
    have hround : (operation 1 (binaryAt room) s').Passes s' := by
      rw [operation_run, hop]
      simp only [Nat.not_lt.2 op.one_le_precedence, if_false]
      refine ((marks_binaryAt room _).lands.passes (hreaches.closed hs) fun he => ?_).map _
      rw [he] at hop
      cases hop
    rw [expression, binaryAt, climb, bind_run, operand_of_name hn]
    obtain ⟨e, he⟩ | hdeep := nameOrCall_of_activityReference h
    · rw [← expression, he, Outcome.andThen_ok]
      exact .inl ((hround.many (hreaches.closed hs) hoperations).map _)
    · exact .inr (hdeep.andThen _)

section Statements

variable (hx : x.Closed) (hy : y.Stops) (hL : L) (line : Nat)

include hx hy

theorem forksAt_confirmCondition :
    (confirmCondition (expression room) line).ForksAt x y L never us :=
  (forksAt_expression hx hy room).bind hx hy.closed fun _ _ _ => .pure _

/-- The operand of `confirm` at `x`. -/
theorem forked_confirmOperand_nil :
    Forked x y L never us (confirmOperand (expression room) line x)
      (confirmOperand (expression room) line y) := by
  have hbegins : (confirmCondition (expression room) line).Begins x y [.expression] :=
    (begins_expression hx hy.closed room).bind hx hy.closed fun _ => lands_pure _
  have hcondition : Forked x y L never us (confirmCondition (expression room) line x)
      (confirmOperand (expression room) line y) := by
    refine hbegins.forked_of (by simp [Wanted.stops]) ?_
    simp only [List.mem_singleton, forall_eq]
    rintro ⟨lexeme, hnumber⟩
    exact confirmOperand_of_not_name (by simp [hnumber])
  by_cases hname : ∃ n, x.token = .name n
  · obtain ⟨n, hn⟩ := hname
    cases ha : activityReference (expression room) x with
    | ok a s =>
      rw [confirmOperand_of_ok hn ha]
      split
      · exact hcondition
      · have hpasses : (activityReference (expression room) x).Passes x :=
          (passes_path hn hx).andThen hx fun _ => Marks.lands (marks_peek.bind fun _ =>
            ((marks_arguments blames_of_explains (marks_expression room)).bind fun _ =>
              marks_pure _).ite (marks_pure _))
        rw [ha] at hpasses
        exact .behind hpasses
    | fail d s =>
      rw [confirmOperand_of_fail hn ha]
      exact hcondition
    | endless =>
      rw [confirmOperand_of_endless hn ha]
      exact .behind trivial
  · rw [confirmOperand_of_not_name (not_exists.1 hname)]
    exact hcondition

include hL

omit hx hy in
/-- Where a condition is read in place of an activity with a fault, the fault is that of the
condition, or that is too deep. -/
theorem forked_confirmCondition_of_fail {s s' : Stream} {n : String} {d : Diagnostic}
    {o' o'' : Outcome Statement} (hn : s.token = .name n)
    (ha : activityReference (expression room) s = .fail d s')
    (hcondition : Forked x y L never us (confirmCondition (expression room) line s) o')
    (h : ∀ s'', confirmCondition (expression room) line s = .fail d s'' →
      Forked x y L never us (.fail d s'') o'') :
    Forked x y L never us (confirmCondition (expression room) line s) o'' := by
  obtain ⟨s'', hfail⟩ | hdeep := expression_fails_of_activityReference hn ha
  · have hrun : confirmCondition (expression room) line s = .fail d s'' :=
      Outcome.map_eq_fail.2 hfail
    rw [hrun]
    exact h s'' hrun
  · exact hcondition.of_tooDeep hL (hdeep.map _)

omit hx hy in
/-- The operand where an activity passes the token at `x`. -/
theorem forked_confirmOperand_of_passes {s : Stream} {n : String} {o' o'' : Outcome Statement}
    (hn : s.token = .name n) (hs : s.Closed)
    (ha : (activityReference (expression room) s).Passes x)
    (hcondition : Forked x y L never us (confirmCondition (expression room) line s) o') :
    Forked x y L never us (confirmOperand (expression room) line s) o'' := by
  cases hrun : activityReference (expression room) s with
  | ok a s' =>
    rw [hrun] at ha
    rw [confirmOperand_of_ok hn hrun]
    split
    · next hop =>
      obtain hp | hdeep := expression_passes_of_activityReference hn hs hrun hop
      · exact .behind ((hp.of_reaches ha.2 ha.1).map _)
      · exact hcondition.of_tooDeep hL (hdeep.map _)
    · exact .behind ha
  | fail d s' =>
    rw [hrun] at ha
    rw [confirmOperand_of_fail hn hrun]
    exact forked_confirmCondition_of_fail hL line hn hrun hcondition fun _ _ => .behind ha
  | endless =>
    rw [confirmOperand_of_endless hn hrun]
    exact .behind trivial

omit hx hy hL in
/-- What an activity and a condition both admit is admitted by the operand. -/
theorem admits_confirmOperand {w : Wanted} {s : Stream} {n : String} (hn : s.token = .name n)
    (ha : w.Admits y (activityReference (expression room) s))
    (hc : w.Admits y (confirmCondition (expression room) line s)) :
    w.Admits y (confirmOperand (expression room) line s) := by
  cases hrun : activityReference (expression room) s with
  | ok a s' =>
    rw [confirmOperand_of_ok hn hrun]
    split
    · exact hc
    · rw [hrun] at ha
      obtain hp | ⟨-, s'', h⟩ := ha
      · exact .inl hp
      · cases h
  | fail d s' =>
    rw [confirmOperand_of_fail hn hrun]
    exact hc
  | endless =>
    rw [confirmOperand_of_endless hn hrun]
    exact .inl trivial

/-- The operand of `confirm` where a name stands. -/
theorem forked_confirmOperand_cons {v : Located} {n : String} (hv : v.token = .name n) :
    Forked x y L never (v :: us)
      (confirmOperand (expression room) line (x.behind (v :: us)))
      (confirmOperand (expression room) line (y.behind (v :: us))) := by
  have hnx : (x.behind (v :: us)).token = .name n := hv
  have hny : (y.behind (v :: us)).token = .name n := hv
  have hcondition : Forked x y L never (v :: us)
      (confirmCondition (expression room) line (x.behind (v :: us)))
      (confirmCondition (expression room) line (y.behind (v :: us))) :=
    (forksAt_confirmCondition hx hy line).forked
  have hactivity : Forked x y False never (v :: us)
      (activityReference (expression room) (x.behind (v :: us)))
      (activityReference (expression room) (y.behind (v :: us))) :=
    (forksAt_activityReference hx hy fun _ => forksAt_expression hx hy room).forked
  generalize hax : activityReference (expression room) (x.behind (v :: us)) = o at hactivity
  generalize hay : activityReference (expression room) (y.behind (v :: us)) = o' at hactivity
  cases hactivity with
  | @within a w ws hvs =>
    rw [confirmOperand_of_ok hnx hax, confirmOperand_of_ok hny hay, Stream.token_behind_cons,
      Stream.token_behind_cons]
    by_cases hop : (BinaryOp.ofToken? w.token).isSome
    · rw [if_pos hop, if_pos hop]
      exact hcondition
    · rw [if_neg hop, if_neg hop]
      exact .taken hvs
  | @upTo a =>
    rw [confirmOperand_of_ok hnx hax, confirmOperand_of_ok hny hay, hy.binaryOp_eq_none]
    split
    · next hop =>
      obtain hp | hdeep := expression_passes_of_activityReference hnx (hx.behind _) hax hop
      · exact .behind (hp.map _)
      · exact hcondition.of_tooDeep hL (hdeep.map _)
    · exact .upTo
  | longer hL => exact hL.elim
  | closed hC => exact hC.elim
  | before _ h =>
    obtain ⟨s', rfl⟩ := h.resolve_left id
    rw [confirmOperand_of_fail hnx hax, confirmOperand_of_fail hny hay]
    exact hcondition
  | @here d s _ hlists =>
    rw [confirmOperand_of_fail hnx hax]
    refine forked_confirmCondition_of_fail hL line hnx hax hcondition fun s'' hrun => ?_
    rw [hrun] at hcondition
    cases hcondition with
    | before hd _ => exact .before hd (.inl hL)
    | here hlists' =>
      refine .here ⟨hlists'.span, hlists'.entries, fun hd w hw hopens => ?_⟩
      exact admits_confirmOperand line hny (by rw [hay]; exact hlists.admits hd w hw hopens)
        (hlists'.admits hd w hw hopens)
    | behind hp => exact .behind hp
  | behind hp =>
    rw [← hax] at hp
    exact forked_confirmOperand_of_passes hL line hnx (hx.behind _) hp hcondition

theorem enters_confirm : (confirm (expression room) line).Enters x y L := by
  have hlands : (confirmOperand (expression room) line).Lands :=
    (marks_confirmOperand blames_of_explains (marks_expression room) line).lands
  refine enters_skip hx hy.closed fun vs => ⟨hlands, ?_⟩
  cases vs with
  | nil => exact forked_confirmOperand_nil hx hy line
  | cons v vs =>
    by_cases hname : ∃ n, v.token = .name n
    · obtain ⟨n, hv⟩ := hname
      exact forked_confirmOperand_cons hx hy hL line hv
    · have hrun : ∀ s : Stream, confirmOperand (expression room) line (s.behind (v :: vs)) =
          confirmCondition (expression room) line (s.behind (v :: vs)) :=
        fun s => confirmOperand_of_not_name (not_exists.1 hname)
      rw [hrun, hrun]
      exact (forksAt_confirmCondition hx hy line).forked

/-! ## Other statements without blocks -/

omit hL in
theorem enters_initiate : (initiate (expression room) line).Enters x y L := by
  have hactivity : ∀ vs, (activityReference (expression room)).ForksAt x y L never vs :=
    fun _ => forksAt_activityReference hx hy fun _ => forksAt_expression hx hy room
  exact enters_skip hx hy.closed fun _ =>
    (forksAt_eat (by simp) fun _ h => absurd h (hy.ne_of_not_stops rfl)).bind hx hy.closed
      fun _ _ _ => .ite
        (fun _ => (forksAt_keyword _ rfl).bind hx hy.closed fun _ _ _ =>
          (hactivity _).bind hx hy.closed fun _ _ _ => .pure _)
        fun _ => (hactivity _).bind hx hy.closed fun _ _ _ => .pure _

omit hL in
theorem enters_wait : (wait (expression room) line).Enters x y L :=
  enters_skip hx hy.closed fun _ =>
    (forksAt_keyword _ rfl).bind hx hy.closed fun _ _ _ =>
      (forksAt_expression hx hy room).bind hx hy.closed fun _ _ _ => .pure _

omit hL in
theorem forksAt_plainStatement {u : Located} :
    (plainStatement (expression room) line).ForksAt x y L never (u :: us) := by
  have hlands : (plainStatement (expression room) line).Lands :=
    (marks_plainStatement blames_of_explains (marks_expression room) line).lands
  by_cases hkeyword : ∃ k, u.token = .keyword k ∧ k ≠ .not
  · obtain ⟨k, hk, hnot⟩ := hkeyword
    refine .congr_cons (.failAt_cons (isAboutHere_expecting ["statement"])) hlands fun s => ?_
    rw [plainStatement_run, Stream.token_behind_cons, hk]
    cases k <;> first | rfl | exact absurd rfl hnot
  · refine forksAt_of_assigns hx hy (f := fun n v => .assign n v line)
      (g := fun v => .expr v line) hlands (fun _ => forksAt_expression hx hy room) ?_ ?_
    · rintro n t ⟨hn, ha⟩
      simp [plainStatement_run, hn, ha]
    · intro t ht h
      rw [plainStatement_run]
      split
      · next n hn ha => exact absurd ⟨hn, ha⟩ (h n)
      · rfl
      · next k hnot hk => exact absurd ⟨k, ht.symm.trans hk, hnot⟩ hkeyword
      · rfl

end Statements

/-! ## Ends of blocks -/

theorem endOf_cases (kind : BlockKind) (line : Nat) (s : Stream) :
    (s.token = .keyword .end_ ∧ endOf kind line s = .ok () s.advance.advance) ∨
      (s.token = .keyword .end_ ∧
        endOf kind line s = .fail (s.advance.unterminated kind line) s.advance) ∨
      endOf kind line s = .fail (s.unterminated kind line) s ∨
      ∃ found s', endOf kind line s =
        .fail (.expecting s.here.span [endText kind.closer.text] found) s' := by
  unfold endOf
  split
  · next k hend _ =>
    by_cases hk : k = kind.closer
    · exact .inl ⟨hend, if_pos hk⟩
    · exact .inr (.inr (.inr ⟨_, _, if_neg hk⟩))
  · exact .inr (.inr (.inl rfl))
  · next hend _ => exact .inr (.inl ⟨hend, rfl⟩)
  · exact .inr (.inr (.inr ⟨_, _, rfl⟩))
  · exact .inr (.inr (.inr ⟨_, _, rfl⟩))

theorem passes_endOf {kind : BlockKind} {line : Nat} {s : Stream}
    (h : (Wanted.closer kind).Opens s) : (endOf kind line s).Passes s := by
  obtain ⟨hend, hnext⟩ := h
  have hrun : endOf kind line s = .ok () s.advance.advance := endOf_eq_ok.2 ⟨hend, hnext, rfl⟩
  rw [hrun]
  exact ⟨by simp [hend], s.advance.reaches_advance⟩

/-- The end of a block is passed, or is wanted unless the text ends. -/
theorem begins_endOf (kind : BlockKind) (line : Nat) :
    (endOf kind line).Begins x y [.closer kind] := by
  have hopens : ∀ w ∈ [Wanted.closer kind], w.Opens y → (endOf kind line y).Passes y := by
    simp only [List.mem_singleton, forall_eq]
    exact passes_endOf
  unfold Begins
  obtain ⟨hend, h⟩ | ⟨hend, h⟩ | h | ⟨found, s', h⟩ := endOf_cases kind line x
  · rw [h]
    exact .inl ⟨by simp [hend], x.advance.reaches_advance⟩
  · rw [h]
    exact .inl ⟨by simp [hend], _, .refl _, rfl⟩
  · exact .inr ⟨_, _, [.closer kind], h, rfl, fun h => absurd h Stream.not_isListing_unterminated,
      List.Subset.refl _, hopens⟩
  · exact .inr ⟨_, _, [.closer kind], h, rfl, fun _ => rfl, List.Subset.refl _, hopens⟩

/-- Where `end` stands at `x` and not at `y`, the end of the block is told by what stands at `x`. -/
theorem forked_endOf_of_end {α : Type} {kind : BlockKind} {line : Nat} {f : Unit → Reader α}
    {C : α → Prop} {o' : Outcome α} (hf : ∀ u, (f u).Lands) (hx : x.Closed) (hy : y.Closed)
    (hend : x.token = .keyword .end_) (hne : y.token ≠ x.token) :
    Forked x y L C us ((endOf kind line >>= f) x) o' := by
  refine ((begins_endOf kind line).bind hx hy hf).forked_of (by simp [Wanted.stops]) ?_
  simp only [List.mem_singleton, forall_eq]
  exact fun h => absurd (h.1.trans hend.symm) hne

/-- The end of a block, of which `x` may be the second word. -/
theorem forksAt_endOf (hL : L) (kind : BlockKind) (line : Nat) :
    (endOf kind line).ForksAt x y L never us := by
  refine ⟨(marks_endOf blames_of_explains kind line).lands, ?_⟩
  cases us with
  | nil => exact (begins_endOf kind line).forked (by simp [Wanted.stops])
  | cons u us =>
    have hbefore : ∀ {d : Diagnostic} {s : Stream}, (∃ v ∈ u :: us, d.span = v.span) →
        Forked x y L never (u :: us) (.fail d s) (endOf kind line (y.behind (u :: us))) :=
      fun hd => .before hd (.inl hL)
    obtain ⟨-, h⟩ | ⟨-, h⟩ | h | ⟨found, s', h⟩ := endOf_cases kind line (x.behind (u :: us))
    · obtain ⟨hend, hnext, -⟩ := endOf_eq_ok.1 h
      rw [h]
      cases us with
      | nil =>
        have hcloser : x.token = .keyword kind.closer := hnext
        exact .behind ⟨by simp [hcloser], Stream.Reaches.refl _⟩
      | cons v us =>
        have hrun : endOf kind line (y.behind (u :: v :: us)) = .ok () (y.behind us) := by
          rw [endOf_eq_ok, Stream.advance_behind_cons, Stream.advance_behind_cons]
          exact ⟨hend, hnext, rfl⟩
        rw [hrun, Stream.advance_behind_cons, Stream.advance_behind_cons]
        exact .taken ((List.suffix_cons v us).trans (List.suffix_cons u _))
    · rw [h]
      cases us with
      | nil => exact .here (.of_not_listing rfl Stream.not_isListing_unterminated)
      | cons v us => exact hbefore ⟨v, by simp, rfl⟩
    · rw [h]
      exact hbefore ⟨u, by simp, rfl⟩
    · rw [h]
      exact hbefore ⟨u, by simp, rfl⟩

/-! ## Statements with blocks -/

section Blocks

variable {block : BlockReader} (hx : x.Closed) (hy : y.Stops) (hL : L)
  (hb : ∀ kind line stop vs, (block kind line stop).outcome.ForksAt x y L
    (fun _ => endsRun stop x.token = true) vs) (line : Nat)

include hx hy hL hb

/-- A branch is closed by the end of the condition, or by `else`. -/
theorem forksAt_branch : (branch (expression room) block line).outcome.ForksAt x y L
    (fun t => (∃ a, t = .last a) ∧ (x.token = .keyword .end_ ∨ x.token = .keyword .else_)) us := by
  simp only [branch, Reporter.outcome_bind, Reporter.outcome_liftM, Reporter.outcome_ite,
    Reporter.outcome_pure]
  refine (forksAt_expression hx hy room).bind hx hy.closed fun condition _ _ =>
    (forksAt_keyword _ rfl).bind hx hy.closed fun _ _ _ =>
      (hb _ _ _ _).bind_closed hx hy.closed (fun body _ _ => ?_) fun body hends hne _ => ?_
  · exact (forksAt_eat (by simp) fun _ _ => hL).bind hx hy.closed fun _ _ _ =>
      .ite (fun _ => .pure _) fun _ => .pure _
  · rw [bind_run, eat_run]
    by_cases helsif : x.token = .keyword .elsif
    · rw [if_pos helsif]
      exact .behind ⟨by simp [helsif], Stream.Reaches.refl _⟩
    · rw [if_neg helsif]
      refine .closed ⟨⟨_, rfl⟩, ?_⟩ hne
      simpa [endsRun, helsif] using hends

theorem forksAt_otherwise : (otherwise block line).outcome.ForksAt x y L
    (fun _ => x.token = .keyword .end_) us := by
  simp only [otherwise, Reporter.outcome_bind, Reporter.outcome_liftM, Reporter.outcome_ite,
    Reporter.outcome_pure]
  refine (forksAt_eat (by simp) fun _ _ => hL).bind hx hy.closed fun _ _ _ =>
    .ite (fun _ => (hb _ _ _ _).bind_closed hx hy.closed (fun _ _ _ => .pure _)
      fun _ hends hne _ => .closed ?_ hne) fun _ => .pure _
  simpa [endsRun] using hends

omit hb in
/-- What is closed by `end` at `x`, and the end of the block. -/
theorem forksAt_ended {α β : Type} {r : Reader α} {f : α → β} {kind : BlockKind}
    (hr : r.ForksAt x y L (fun _ => x.token = .keyword .end_) us) :
    (do
      let a ← r
      endOf kind line
      return f a : Reader β).ForksAt x y L never us :=
  hr.bind_closed hx hy.closed
    (fun _ _ _ => (forksAt_endOf hL kind line).bind hx hy.closed fun _ _ _ => .pure _)
    fun _ hend hne _ => forked_endOf_of_end (fun _ => lands_pure _) hx hy.closed hend hne

/-- The statements of a loop or of a section, and the end. -/
theorem forksAt_body {β : Type} {f : Block → β} {kind : BlockKind} :
    (do
      let body ← (block kind line false).outcome
      endOf kind line
      return f body : Reader β).ForksAt x y L never us :=
  forksAt_ended hx hy hL line (by simpa [endsRun] using hb kind line false us)

omit hL in
/-- Where `end` or `else` stands at `x`, it tells what comes of the rest of a condition. -/
theorem forked_otherwise_of_ends {f : Option Block → Statement} {o' : Outcome Statement}
    (hends : x.token = .keyword .end_ ∨ x.token = .keyword .else_) (hne : y.token ≠ x.token) :
    Forked x y L never [] ((do
      let rest ← (otherwise block line).outcome
      endOf .conditional line
      return f rest : Reader Statement) x) o' := by
  have htail : ∀ rest, (do
      endOf .conditional line
      return f rest : Reader Statement).Lands := fun _ =>
    (marks_endOf blames_of_explains _ _).lands.bind fun _ => lands_pure _
  rw [bind_run]
  by_cases helse : x.token = .keyword .else_
  · have hotherwise : ((otherwise block line).outcome x).Passes x := by
      simp only [otherwise, Reporter.outcome_bind, Reporter.outcome_liftM, Reporter.outcome_ite,
        Reporter.outcome_pure]
      have heat : (eat (.keyword .else_) x).Passes x := by
        rw [eat_run, if_pos helse]
        exact ⟨by simp [helse], Stream.Reaches.refl _⟩
      exact heat.andThen hx fun _ =>
        ((hb _ _ _ []).lands.bind fun _ => lands_pure _).ite (lands_pure _)
    exact .behind (hotherwise.andThen hx htail)
  · have hotherwise : (otherwise block line).outcome x = .ok none x := by
      simp only [otherwise, Reporter.outcome_bind, Reporter.outcome_liftM, Reporter.outcome_ite,
        Reporter.outcome_pure]
      rw [bind_run, eat_run, if_neg helse]
      rfl
    rw [hotherwise]
    exact forked_endOf_of_end (fun _ => lands_pure _) hx hy.closed (hends.resolve_right helse) hne

theorem enters_conditional :
    (conditional (expression room) block line).outcome.Enters x y L := by
  simp only [conditional, Reporter.outcome_bind, Reporter.outcome_liftM,
    Reporter.outcome_many_bind, Reporter.outcome_pure]
  exact enters_skip hx hy.closed fun vs =>
    (ForksAt.many hx hy.closed (fun _ _ => forksAt_branch hx hy hL hb line) fun _ h =>
      ⟨.inr h.1, h.2⟩).bind_closed hx hy.closed (fun _ _ _ =>
        forksAt_ended hx hy hL line (forksAt_otherwise hx hy hL hb line)) fun _ hends hne _ =>
          forked_otherwise_of_ends hx hy hb line hends hne

theorem enters_whileLoop : (whileLoop (expression room) block line).outcome.Enters x y L := by
  simp only [whileLoop, Reporter.outcome_bind, Reporter.outcome_liftM, Reporter.outcome_pure]
  exact enters_skip hx hy.closed fun _ =>
    (forksAt_expression hx hy room).bind hx hy.closed fun _ _ _ =>
      (forksAt_keyword _ rfl).bind hx hy.closed fun _ _ _ =>
        forksAt_body hx hy hL hb line

theorem enters_forLoop : (forLoop (expression room) block line).outcome.Enters x y L := by
  simp only [forLoop, Reporter.outcome_bind, Reporter.outcome_liftM, Reporter.outcome_pure]
  exact enters_skip hx hy.closed fun _ =>
    (forksAt_name .loop).bind hx hy.closed fun _ _ _ =>
      (forksAt_keyword _ rfl).bind hx hy.closed fun _ _ _ =>
        (forksAt_expression hx hy room).bind hx hy.closed fun _ _ _ =>
          (forksAt_keyword _ rfl).bind hx hy.closed fun _ _ _ =>
            forksAt_body hx hy hL hb line

theorem forksAt_bareStatement (hr : (bareStatement (expression room) block line).outcome.Lands)
    {u : Located} :
    (bareStatement (expression room) block line).outcome.ForksAt x y L never (u :: us) := by
  simp only [bareStatement, Reporter.outcome_bind, Reporter.outcome_liftM] at hr ⊢
  refine .peek_cons hr ?_
  split
  · exact (enters_initiate hx hy line).forksAt u us
  · exact (enters_confirm hx hy hL line).forksAt u us
  · exact (enters_wait hx hy line).forksAt u us
  · exact (enters_conditional hx hy hL hb line).forksAt u us
  · exact (enters_whileLoop hx hy hL hb line).forksAt u us
  · exact (enters_forLoop hx hy hL hb line).forksAt u us
  · exact forksAt_plainStatement hx hy line

omit line in
/-- A statement is begun or wanted, or an expression is. -/
theorem begins_bareStatement :
    (do
      let h ← here
      (bareStatement (expression room) block h.line).outcome : Reader Statement).Begins x y
        [.expression, .statement] := by
  have hrun : ∀ s : Stream, (do
      let h ← here
      (bareStatement (expression room) block h.line).outcome : Reader Statement) s =
        (bareStatement (expression room) block s.line).outcome s := fun _ => rfl
  have hstatement : y.token = .keyword .initiate →
      ((bareStatement (expression room) block y.line).outcome y).Passes y := by
    intro h
    rw [bareStatement_run, h]
    exact (enters_initiate (L := L) hx hy _).passes y hy.closed (by simp [h])
  -- Where an expression stands at `x`.
  have hexpression : ∀ f : Expr → Statement, ((expression room x).map f).Passes x ∨
      ∃ d s vs, (expression room x).map f = .fail d s ∧ d.span = x.here.span ∧
        (d.IsListing → d.expected = vs.map Wanted.text) ∧
          vs ⊆ [Wanted.expression, .statement] ∧ ∀ w ∈ vs, w.Opens y →
            ((bareStatement (expression room) block y.line).outcome y).Passes y := by
    intro f
    obtain hp | ⟨d, s, vs, hfail, hspan, htext, hvs, hopens⟩ :=
      begins_expression hx hy.closed room
    · exact .inl (hp.map f)
    · refine .inr ⟨d, s, vs, by rw [hfail]; rfl, hspan, htext,
        fun w hw => List.mem_cons.2 (.inl (List.mem_singleton.1 (hvs hw))), fun w hw ho => ?_⟩
      have hp := hopens w hw ho
      obtain rfl := List.mem_singleton.1 (hvs hw)
      obtain ⟨lexeme, hnumber⟩ := ho
      rw [bareStatement_of_beginsExpr (by rw [hnumber]; rfl), plainStatement_run, hnumber]
      exact hp.map _
  simp only [Begins, hrun]
  rw [bareStatement_run]
  split
  · next h => exact .inl ((enters_initiate (L := L) hx hy _).passes x hx (by simp [h]))
  · next h => exact .inl ((enters_confirm hx hy hL _).passes x hx (by simp [h]))
  · next h => exact .inl ((enters_wait (L := L) hx hy _).passes x hx (by simp [h]))
  · next h => exact .inl ((enters_conditional hx hy hL hb _).passes x hx (by simp [h]))
  · next h => exact .inl ((enters_whileLoop hx hy hL hb _).passes x hx (by simp [h]))
  · next h => exact .inl ((enters_forLoop hx hy hL hb _).passes x hx (by simp [h]))
  · rw [plainStatement_run]
    split
    · next n hn _ =>
      have hlands : (expression room x.advance.advance).Lands x.advance :=
        ((marks_expression room).lands _ hx.advance.advance).of_reaches
          x.advance.reaches_advance
      exact .inl ((hlands.passes (by simp [hn])).map _)
    · exact hexpression _
    · refine .inr ⟨_, _, [.statement], rfl, rfl, fun _ => rfl, by simp, ?_⟩
      simp only [List.mem_singleton, forall_eq]
      exact hstatement
    · exact hexpression _

end Blocks

/-! ## Blocks -/

/-- A statement is read from the line it begins on, and a semicolon is read behind it. -/
theorem statement_outcome (expr : Reader Expr) (block : BlockReader) :
    (statement expr block).outcome =
      (do
        let h ← here
        (bareStatement expr block h.line).outcome : Reader Statement) >>= fun st => do
          let _ ← eat (.symbol .semicolon)
          return st := by
  simp only [statement, Reporter.outcome_bind, Reporter.outcome_liftM, Reporter.outcome_pure,
    bind_bind]

section Rounds

variable (hx : x.Closed) (hy : y.Stops) (hL : L)

include hx hy hL

/-- A block is closed by the word at `x` that ends it. -/
theorem forksAt_round {st : Reporter Statement}
    (hst : ∀ u vs, st.outcome.ForksAt x y L never (u :: vs))
    (hbegins : st.outcome.Begins x y [.expression, .statement]) (kind : BlockKind) (line : Nat)
    (stop : Bool) : (round .strict kind line stop st).outcome.ForksAt x y L
      (fun t => t = .stop ∧ endsRun stop x.token = true) us := by
  have hlast := isAboutHere_unterminated kind line
  have hlands : (do
      let t ← peek
      if t = .eof then failAt fun s => s.unterminated kind line
      else if endsRun stop t then return .stop
      else return .item (← st.outcome) : Reader (Turn Statement)).Lands :=
    (marks_peek (P := Stream.Blames)).lands.bind fun _ => (lands_failAt hlast).ite <|
      (lands_pure _).ite <| (hst x.here []).lands.bind fun _ => lands_pure _
  simp only [round, Reporter.outcome_bind, Reporter.outcome_liftM, Reporter.outcome_ite,
    Reporter.outcome_pure, attempt_strict]
  refine (forksAt_semicolons hx hy.closed hL).bind hx hy.closed fun _ vs _ => ?_
  cases vs with
  | cons u vs =>
    exact .peek_cons hlands <| .ite (fun _ => .failAt_cons hlast) fun _ =>
      .ite (fun _ => .pure _) fun _ =>
        ((hst u vs).bind hx hy.closed fun _ _ _ => .pure _).weaken
  | nil =>
    refine ⟨hlands, ?_⟩
    simp only [Stream.behind_nil, bind_run, peek_run, Outcome.andThen_ok, ite_run]
    by_cases heof : x.token = .eof
    · rw [if_pos heof]
      exact .here (.of_not_listing rfl Stream.not_isListing_unterminated)
    rw [if_neg heof]
    by_cases hends : endsRun stop x.token = true
    · rw [if_pos hends]
      by_cases hsame : y.token = x.token
      · rw [hsame, if_neg heof, if_pos hends]
        exact .upTo
      · exact .closed ⟨rfl, hends⟩ hsame
    · rw [if_neg hends]
      refine (hbegins.bind hx hy.closed fun a => lands_pure (Turn.item a)).forked_of
        (by simp [Wanted.stops]) ?_
      simp only [List.mem_cons, List.not_mem_nil, or_false, forall_eq_or_imp, forall_eq]
      constructor
      · rintro ⟨lexeme, hnumber⟩
        simp [hnumber, endsRun]
      · intro hinitiate
        have ht : y.token = .keyword .initiate := hinitiate
        simp [ht, endsRun]

end Rounds

/-- The statements of a block, with the room that is left, fork behind any of its tokens. -/
theorem forksAt_statements (hx : x.Closed) (hy : y.Stops) (hL : L) :
    ∀ (room : Nat) (kind : BlockKind) (line : Nat) (stop : Bool) (us : List Located),
      (statements .strict room kind line stop).outcome.ForksAt x y L
        (fun _ => endsRun stop x.token = true) us
  | 0, _, _, _, _ => forksAt_tooDeep
  | room + 1, kind, line, stop, us => by
    have hb := forksAt_statements hx hy hL room
    have hm := marks_statements .strict room
    have hst : ∀ u vs, (statement (expression room) (statements .strict room)).outcome.ForksAt
        x y L never (u :: vs) := fun u vs => by
      rw [statement_outcome]
      refine ForksAt.bind hx hy.closed ⟨?_, ?_⟩ fun st _ _ =>
        (forksAt_eat (by simp) fun _ _ => hL).bind hx hy.closed fun _ _ _ => .pure _
      · exact (marks_here (P := Stream.Blames)).lands.bind fun _ =>
          lands_of_marks (marks_bareStatement blames_of_explains (marks_expression room) hm _)
      · exact (forksAt_bareStatement hx hy hL hb u.line (lands_of_marks
          (marks_bareStatement blames_of_explains (marks_expression room) hm _))).forked
    have hbegins : (statement (expression room) (statements .strict room)).outcome.Begins x y
        [.expression, .statement] := by
      rw [statement_outcome]
      exact (begins_bareStatement hx hy hL hb).bind hx hy.closed fun _ =>
        (marks_eat (P := Stream.Blames) _).lands.bind fun _ => lands_pure _
    rw [statements, Reporter.outcome_many]
    exact .many hx hy.closed (fun _ _ => forksAt_round hx hy hL hst hbegins kind line stop)
      fun _ h => ⟨.inl h.1, h.2⟩

end Grammar

end OpsLang
