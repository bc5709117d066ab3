import OpsLang.Proofs.Appending.Statement
import OpsLang.Proofs.OpenBlocks.Blockless

/-!
# Statements that run out of text

A block runs out where the text ends among its statements, in a block among them, or at its own
end. `tracksAt_statements` goes by recursion on the number of levels, as the reader does; the
end of a block is missing altogether, or is there but for its second word
(`tracksAt_endOf`). Behind the condition of `if` the branch that runs out becomes the last one,
since the word before closing words is no `elsif` (`tracksAt_branch`).
-/

namespace OpsLang

namespace Grammar

open Reader

variable {e : Located} {us : List Located} {room : Nat} {bs : List OpenBlock}

/-! ## Ends of blocks -/

theorem closes_endOf {b : OpenBlock} (hb : b.closing = [.end_, b.kind.closer]) :
    (endOf b.kind b.line).Closes [b] bs AnyValue := by
  intro cs t hcs _
  rw [closings_cons, closings_nil, List.append_nil, hb] at hcs
  obtain ⟨c, cs, rfl, hc, hcs⟩ := words_eq_cons.1 hcs
  obtain ⟨c', cs, rfl, hc', hcs⟩ := words_eq_cons.1 hcs
  obtain rfl := words_eq_nil.1 hcs
  exact ⟨(), trivial, endOf_eq_ok.2 ⟨hc, hc', rfl⟩⟩

/-- Behind `end` stands a word that is neither the end of the text nor the one that is asked
for. -/
theorem endOf_mismatch {kind : BlockKind} {line : Nat} {s : Stream}
    (hend : s.token = .keyword .end_) (heof : s.next ≠ .eof)
    (hne : s.next ≠ .keyword kind.closer) :
    ∃ d s', endOf kind line s = .fail d s' ∧ d.kind = .grammar := by
  rw [endOf_of_end hend]
  split
  · next k hk =>
    rw [if_neg fun h => hne (by rw [hk, h])]
    exact ⟨_, _, rfl, rfl⟩
  · next h => exact absurd h heof
  · exact ⟨_, _, rfl, rfl⟩

/-- The text ends in the first word of a block's end. -/
theorem tracksAt_endOf_ending (he : e.token = .eof) {b : OpenBlock}
    (hb : b.closing = [.end_, b.kind.closer]) {u : Located} (hu : u.token = .keyword .end_) :
    (endOf b.kind b.line).TracksAt e [u] (b :: bs) bs AnyValue := by
  intro _
  have hrun : endOf b.kind b.line ((⟨e, []⟩ : Stream).behind [u]) =
      .fail (.unterminated e.span b.kind.text b.line) ⟨e, []⟩ := by
    have heof : (⟨e, []⟩ : Stream).token = .eof := he
    rw [endOf_of_end (s := (⟨e, []⟩ : Stream).behind [u]) hu]
    simp [heof, Stream.unterminated]
  have hstep : ∀ around, Nest.after ⟨b :: bs ++ around, false⟩ [u] =
      ⟨[b] ++ (bs ++ around), true⟩ := by
    intro around
    rw [Nest.after_cons, Nest.after_nil, Nest.step_end hu]
    rfl
  rw [hrun]
  refine .runsOut (n := ⟨[b], true⟩) ⟨hstep, by simp, b, bs, rfl, rfl⟩ fun cs t hcs ht => ?_
  have hwords : words (u :: cs) = (closings [b]).map .keyword := by
    rw [Nest.closing, closings_cons, hb] at hcs
    rw [words_cons, hu, hcs, closings_cons, hb]
    rfl
  rw [← Stream.behind_append]
  exact closes_endOf hb (u :: cs) t hwords ht

/-- The end of a block is missing where the text has ended, or ends in the first of its words. -/
theorem tracksAt_endOf (he : e.token = .eof) {b : OpenBlock}
    (hb : b.closing = [.end_, b.kind.closer]) :
    (endOf b.kind b.line).TracksAt e us (b :: bs) bs AnyValue := by
  intro hs
  match us with
  | [] =>
    refine TracksAt.of_end [b] ⟨⟨e, []⟩, ?_⟩ rfl (closes_endOf hb) hs
    simp [endOf, Stream.token, he, Stream.unterminated]
  | [u] =>
    by_cases hu : u.token = .keyword .end_
    · exact tracksAt_endOf_ending he hb hu hs
    · exact TracksAt.of_fault ⟨_, _, endOf_of_ne hu hs.head_ne_eof, rfl⟩ hs
  | u :: v :: vs =>
    by_cases hu : u.token = .keyword .end_
    · have hnext : ∀ t : Stream, (t.behind (u :: v :: vs)).next = v.token := by
        intro t
        rw [Stream.next_behind_cons, Stream.token_behind_cons]
      by_cases hv : v.token = .keyword b.kind.closer
      · have hrun : ∀ t : Stream, endOf b.kind b.line (t.behind (u :: v :: vs)) =
            .ok () (t.behind vs) := by
          intro t
          refine endOf_eq_ok.2 ⟨hu, (hnext t).trans hv, ?_⟩
          rw [Stream.advance_behind_cons, Stream.advance_behind_cons]
        have hus : u :: v :: vs = [u, v] ++ vs := rfl
        rw [hrun]
        refine .ok hus (fun around => ?_) fun t _ => hrun t
        rw [Nest.after_cons, Nest.step_end hu]
        rfl
      · have heof := (hs.of_suffix (List.suffix_cons u _)).head_ne_eof
        exact TracksAt.of_fault (endOf_mismatch hu (by rwa [hnext]) (by rwa [hnext])) hs
    · exact TracksAt.of_fault ⟨_, _, endOf_of_ne hu hs.head_ne_eof, rfl⟩ hs

/-! ## Statements with blocks -/

/-- Before the end of a block no other word is passed over. -/
theorem eat_of_atClosing {b : OpenBlock} {t : Stream} (ht : AtClosing (b :: bs) t)
    (hb : b.closing = [.end_, b.kind.closer]) {u : Token} (hu : u ≠ .keyword .end_) :
    eat u t = .ok false t := by
  rw [eat_run, if_neg]
  rw [ht.token_eq hb]
  exact hu.symm

/-- Before closing words there is no `else`. -/
theorem closes_otherwise {block : BlockReader} {line : Nat} {b : OpenBlock}
    (hb : b.closing = [.end_, b.kind.closer]) :
    (otherwise block line).outcome.Closes [] (b :: bs) AnyValue := by
  simp only [otherwise, Reporter.outcome_bind, Reporter.outcome_liftM, Reporter.outcome_ite,
    Reporter.outcome_pure]
  refine .of_run fun t ht => ⟨none, trivial, ?_⟩
  rw [bind_run, eat_of_atClosing ht hb (by simp)]
  rfl

section Blocks

variable {block : BlockReader} {line : Nat}
  (he : e.token = .eof)
  (hp : ∀ kind line stop us, (block kind line stop).outcome.PersistsAt e us)
  (hb : ∀ (kind : BlockKind) line stop us bs, kind ≠ .procedure →
    (block kind line stop).outcome.TracksAt e us (⟨kind, line, false⟩ :: bs)
      (⟨kind, line, false⟩ :: bs) AnyValue)

include he hb

/-- A branch that runs out is the last one before closing words. -/
theorem tracksAt_branch :
    (branch (expression room) block line).outcome.TracksAt e us
      (⟨.conditional, line, false⟩ :: bs) (⟨.conditional, line, false⟩ :: bs)
      fun turn => ∃ a, turn = .last a := by
  simp only [branch, Reporter.outcome_bind, Reporter.outcome_liftM, Reporter.outcome_ite,
    Reporter.outcome_pure]
  refine .bind_blockless (persistsAt_expression he room us) (blockless_expression room)
    fun c vs _ => .bind_blockless (persistsAt_keyword he _) (blockless_keyword rfl)
      fun _ ws _ => .bind_closed (hb _ _ _ _ _ (by simp)) (fun body xs => ?_) (fun body => ?_)
        fun body t _ ht => ?_
  · refine (persistsAt_eat he (by simp) ?_).bind fun _ _ _ =>
      .ite (fun _ => .pure _) fun _ => .pure _
    rintro (h | h) <;> cases h
  · exact (blockless_eat rfl).bind fun _ => .ite (fun _ => .pure _) fun _ => .pure _
  · refine ⟨.last (.mk c body), ⟨_, rfl⟩, ?_⟩
    rw [bind_run, eat_of_atClosing ht rfl (by simp)]
    rfl

theorem tracksAt_otherwise :
    (otherwise block line).outcome.TracksAt e us (⟨.conditional, line, false⟩ :: bs)
      (⟨.conditional, line, false⟩ :: bs) AnyValue := by
  simp only [otherwise, Reporter.outcome_bind, Reporter.outcome_liftM, Reporter.outcome_ite,
    Reporter.outcome_pure]
  refine .bind_blockless (persistsAt_eat he (by simp) ?_) (blockless_eat rfl) fun more vs _ => ?_
  · rintro (h | h) <;> cases h
  · cases more with
    | true => exact (hb _ _ _ _ _ (by simp)).map fun _ _ => trivial
    | false => exact .pure none

/-- The statements of a block, with its end behind them. -/
theorem tracksAt_block_end {α : Type} {kind : BlockKind} {stop : Bool} {a : Block → α}
    (hkind : kind ≠ .procedure) :
    (do
      let body ← (block kind line stop).outcome
      endOf kind line
      return a body : Reader α).TracksAt e us (⟨kind, line, false⟩ :: bs) bs AnyValue := by
  have hclosing : (OpenBlock.mk kind line false).closing = [.end_, kind.closer] :=
    OpenBlock.closing_of_ne hkind
  refine .bind [⟨kind, line, false⟩] (hb _ _ _ _ _ hkind) (fun body vs _ => ?_) fun body _ => ?_
  · exact (tracksAt_endOf he hclosing).map fun _ _ => trivial
  · exact (closes_endOf hclosing).bind fun _ => .pure trivial

theorem tracksAt_conditional (room : Nat) {u : Located} (hu : u.token = .keyword .if_) :
    (conditional (expression room) block u.line).outcome.TracksAt e (u :: us) bs bs AnyValue := by
  simp only [conditional, Reporter.outcome_bind, Reporter.outcome_liftM,
    Reporter.outcome_many_bind, Reporter.outcome_pure]
  have hend : ∀ us, (endOf .conditional u.line).TracksAt e us
      (⟨.conditional, u.line, false⟩ :: bs) bs AnyValue :=
    fun _ => tracksAt_endOf he (b := ⟨.conditional, u.line, false⟩) rfl
  have hclose : (endOf .conditional u.line).Closes [⟨.conditional, u.line, false⟩] bs AnyValue :=
    closes_endOf (b := ⟨.conditional, u.line, false⟩) rfl
  refine TracksAt.skip_opener .conditional ?_ hu (by simp)
  refine .bind [⟨.conditional, u.line, false⟩] (TracksAt.many (fun _ _ => tracksAt_branch he hb) ?_)
    (fun branches vs _ => ?_) fun branches _ => ?_
  · rintro turn t hlast -
    exact .inr (.inl hlast)
  · exact .bind [⟨.conditional, u.line, false⟩] (tracksAt_otherwise he hb)
      (fun rest ws _ => (hend ws).map fun _ _ => trivial)
      fun rest _ => hclose.bind fun _ => .pure trivial
  · have hnone : (otherwise block u.line).outcome.Closes []
        ([⟨.conditional, u.line, false⟩] ++ bs) AnyValue := closes_otherwise rfl
    exact hnone.bind fun rest => hclose.bind fun _ => .pure trivial

theorem tracksAt_whileLoop (room : Nat) {u : Located} (hu : u.token = .keyword .while_) :
    (whileLoop (expression room) block u.line).outcome.TracksAt e (u :: us) bs bs AnyValue := by
  simp only [whileLoop, Reporter.outcome_bind, Reporter.outcome_liftM, Reporter.outcome_pure]
  refine TracksAt.skip_opener .whileLoop ?_ hu (by simp)
  exact .bind_blockless (persistsAt_expression he room us) (blockless_expression room)
    fun _ _ _ => .bind_blockless (persistsAt_keyword he _) (blockless_keyword rfl)
      fun _ _ _ => tracksAt_block_end he hb (by simp)

theorem tracksAt_forLoop (room : Nat) {u : Located} (hu : u.token = .keyword .for_) :
    (forLoop (expression room) block u.line).outcome.TracksAt e (u :: us) bs bs AnyValue := by
  simp only [forLoop, Reporter.outcome_bind, Reporter.outcome_liftM, Reporter.outcome_pure]
  refine TracksAt.skip_opener .forLoop ?_ hu (by simp)
  exact .bind_blockless (persistsAt_name he _) (blockless_name _) fun _ _ _ =>
    .bind_blockless (persistsAt_keyword he _) (blockless_keyword rfl) fun _ vs _ =>
      .bind_blockless (persistsAt_expression he room vs) (blockless_expression room)
        fun _ _ _ => .bind_blockless (persistsAt_keyword he _) (blockless_keyword rfl)
          fun _ _ _ => tracksAt_block_end he hb (by simp)

include hp

theorem tracksAt_bareStatement {u : Located} :
    (bareStatement (expression room) block u.line).outcome.TracksAt e (u :: us) bs bs AnyValue := by
  by_cases hif : u.token = .keyword .if_
  · refine (tracksAt_conditional he hb room hif).congr fun _ => ?_
    rw [bareStatement_run, Stream.token_behind_cons, hif]
  by_cases hwhile : u.token = .keyword .while_
  · refine (tracksAt_whileLoop he hb room hwhile).congr fun _ => ?_
    rw [bareStatement_run, Stream.token_behind_cons, hwhile]
  by_cases hfor : u.token = .keyword .for_
  · refine (tracksAt_forLoop he hb room hfor).congr fun _ => ?_
    rw [bareStatement_run, Stream.token_behind_cons, hfor]
  · intro hs
    exact .of_blockless (persistsAt_bareStatement he hp u.line)
      (blockless_bareStatement (blockless_expression room) u.line hs hif hwhile hfor)

theorem tracksAt_statement {u : Located} {b : OpenBlock}
    (hclosing : b.closing = [.end_, b.kind.closer]) :
    (statement (expression room) block).outcome.TracksAt e (u :: us) (b :: bs) (b :: bs)
      AnyValue := by
  simp only [statement, Reporter.outcome_bind, Reporter.outcome_liftM, Reporter.outcome_pure]
  refine .here_cons <| .bind_closed (tracksAt_bareStatement he hp hb) (fun st vs => ?_)
    (fun st => ?_) fun st t _ ht => ⟨st, trivial, ?_⟩
  · exact (persistsAt_eat he (by simp) (Token.not_parts_symbol _)).bind fun _ _ _ => .pure _
  · exact (blockless_eat rfl).bind fun _ => .pure _
  · rw [bind_run, eat_of_atClosing ht hclosing (by simp)]
    rfl

end Blocks

/-! ## Blocks -/

/-- Before the words that close it a block is over. -/
theorem round_of_end {kind : BlockKind} {line : Nat} {stop : Bool} {st : Reporter Statement}
    {t : Stream} (ht : t.token = .keyword .end_) :
    (round .strict kind line stop st).outcome t = .ok .stop t := by
  rw [round_run, semicolons_of_ne (by simp [ht]), Outcome.andThen_ok]
  simp [ht, endsRun]

theorem tracksAt_round (he : e.token = .eof) {kind : BlockKind} {line : Nat} {stop : Bool}
    {st : Reporter Statement} (hkind : kind ≠ .procedure)
    (hst : ∀ v vs, st.outcome.TracksAt e (v :: vs) (⟨kind, line, false⟩ :: bs)
      (⟨kind, line, false⟩ :: bs) AnyValue) :
    (round .strict kind line stop st).outcome.TracksAt e us (⟨kind, line, false⟩ :: bs)
      (⟨kind, line, false⟩ :: bs) AnyValue := by
  have hclosed : ∀ t, AtClosing (⟨kind, line, false⟩ :: bs) t → t.token = .keyword .end_ :=
    fun t ht => ht.token_eq (OpenBlock.closing_of_ne hkind)
  simp only [round, Reporter.outcome_bind, Reporter.outcome_liftM, Reporter.outcome_ite,
    Reporter.outcome_pure, attempt_strict]
  refine .bind_blockless (persistsAt_semicolons he) blockless_semicolons fun _ vs _ => ?_
  cases vs with
  | nil =>
    refine .of_end [] ⟨⟨e, []⟩, ?_⟩ rfl (.of_run fun t ht => ⟨.stop, trivial, ?_⟩)
    · simp [Stream.token, he, Stream.unterminated]
    · simp [hclosed t ht, endsRun]
  | cons v vs =>
    refine .peek_cons fun hs => ?_
    rw [if_neg hs.head_ne_eof]
    by_cases hstop : endsRun stop v.token = true
    · rw [if_pos hstop]
      exact TracksAt.pure _ hs
    · rw [if_neg hstop]
      exact (hst v vs).map (fun _ _ => trivial) hs

theorem statements_of_end {kind : BlockKind} {line : Nat} {stop : Bool} {t : Stream}
    (ht : t.token = .keyword .end_) :
    (statements .strict (room + 1) kind line stop).outcome t = .ok [] t := by
  rw [statements, Reporter.outcome_many]
  exact many_stop (round_of_end ht)

/-- The statements of a block run out inside it, or inside a block among them. -/
theorem tracksAt_statements (he : e.token = .eof) : ∀ (room : Nat) (kind : BlockKind) (line : Nat)
    (stop : Bool) (us : List Located) (bs : List OpenBlock), kind ≠ .procedure →
      (statements .strict room kind line stop).outcome.TracksAt e us
        (⟨kind, line, false⟩ :: bs) (⟨kind, line, false⟩ :: bs) AnyValue
  | 0, _, _, _, _, _, _ => .of_fault ⟨_, _, rfl, rfl⟩
  | room + 1, kind, line, stop, us, bs, hkind => by
    have hclosing : (OpenBlock.mk kind line false).closing = [.end_, kind.closer] :=
      OpenBlock.closing_of_ne hkind
    rw [statements, Reporter.outcome_many]
    refine .many (fun vs _ => tracksAt_round he hkind fun v vs => tracksAt_statement he
      (persistsAt_statements he room) (tracksAt_statements he room) hclosing) fun turn t _ ht => ?_
    exact .inr (.inr ⟨[], many_stop (round_of_end (ht.token_eq hclosing))⟩)

end Grammar

end OpsLang
