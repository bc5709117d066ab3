import OpsLang.Proofs.Spelling.Statement
import OpsLang.Proofs.Tiling
import OpsLang.Proofs.Tracing.Node

/-!
# Lines of what is read

Every part of a file that is read has the line of the token it was read from, in both modes. What is
read off a stream is traced by the walk through it (`Stream.Traces`) : some tokens are taken, and
the nodes of the walk stand at tokens among them, in their order. Readings one behind another are
traced one behind another, and what is passed over in between, by recovery or otherwise, only puts
more tokens there. That no reading goes back to where another one has been is known of every reader
(`Reader.Halts`, `Reader.Turns`), so only the readers that build nodes have to be looked at. The
first token of each is still ahead where its line is taken.

A row of tokens is in the order of the text, so its lines do not decrease (`Laid.lines`), and
neither do those of the walk (`lines_traced`).
-/

namespace OpsLang

/-! ## Streams that a walk traces -/

namespace Stream

/-- Some tokens are taken, and the nodes stand at tokens among them. -/
def Traces (s : Stream) (ns : List Node) (s' : Stream) : Prop :=
  ∃ us, s = s'.behind us ∧ StandIn ns us

variable {s s₁ s' : Stream} {ns ms : List Node}

theorem Traces.reaches (h : s.Traces ns s') : s.Reaches s' :=
  h.imp fun _ => And.left

theorem Reaches.traces (h : s.Reaches s') : s.Traces [] s' :=
  h.imp fun us hus => ⟨hus, .nil us⟩

theorem Traces.append (h : s.Traces ns s₁) (h' : s₁.Traces ms s') : s.Traces (ns ++ ms) s' := by
  obtain ⟨us, rfl, hns⟩ := h
  obtain ⟨vs, rfl, hms⟩ := h'
  exact ⟨us ++ vs, behind_append.symm, hns.append hms⟩

theorem Reaches.then_traces (h : s.Reaches s₁) (h' : s₁.Traces ns s') : s.Traces ns s' :=
  h.traces.append h'

theorem Traces.then_reaches (h : s.Traces ns s₁) (h' : s₁.Reaches s') : s.Traces ns s' := by
  have happend := h.append h'.traces
  rwa [List.append_nil] at happend

/-- A node stands at the first token, and others behind it. -/
theorem Traces.cons {n : Node} (hs : s.Ends) (he : s.token ≠ .eof) (hn : n.StandsAt s.here)
    (h : s.advance.Traces ns s') : s.Traces (n :: ns) s' := by
  obtain ⟨us, hus, hns⟩ := h
  exact ⟨s.here :: us, hs.eq_behind_cons he hus, hns.cons hn⟩

/-- The nodes stand in the row of the stream. -/
theorem Traces.standIn_row (h : s.Traces ns s') (h' : StandIn ms s'.row) :
    StandIn (ns ++ ms) s.row := by
  obtain ⟨us, rfl, hns⟩ := h
  rw [row_behind]
  exact hns.append h'

/-- What leaves less has taken the first token. -/
theorem Reaches.advance_of_lt (hs : s.Ends) (h : s.Reaches s') (hlt : s'.size < s.size) :
    s.token ≠ .eof ∧ s.advance.Reaches s' := by
  obtain ⟨u, us, rfl⟩ := h.eq_behind_cons hlt
  refine ⟨fun he => ?_, us, advance_behind_cons⟩
  have hlength := congrArg List.length (hs.row_of_eof he)
  rw [row_behind, row] at hlength
  simp at hlength

end Stream

/-! ## Readers that a walk traces -/

/-- The walk through what a round keeps. -/
def Turn.walk {α : Type} (walk : α → List Node) : Turn α → List Node
  | .item a | .last a => walk a
  | .stop | .pass => []

namespace Reader

variable {α : Type} {s s' : Stream} {a : α}

/-- What is read is traced by the walk through it. -/
def Traces (r : Reader α) (walk : α → List Node) : Prop :=
  ∀ ⦃s a s'⦄, s.Ends → r s = .ok a s' → s.Traces (walk a) s'

theorem Halts.reaches {r : Reader α} (h : r.Halts) (hs : s.Ends) (hr : r s = .ok a s') :
    s.Reaches s' := by
  have hwithin := h s hs.closed
  rwa [hr] at hwithin

theorem Proceeds.reaches_advance {r : Reader α} (h : r.Proceeds) (hs : s.Ends)
    (hr : r s = .ok a s') : s.token ≠ .eof ∧ s.advance.Reaches s' := by
  have hpast := h s hs.closed
  rw [hr] at hpast
  exact hpast.1.advance_of_lt hs hpast.2

theorem Turns.reaches {r : Reader (Turn α)} (h : r.Turns) {t : Turn α} (hs : s.Ends)
    (hr : r s = .ok t s') : s.Reaches s' := by
  have hturns := h s hs.closed
  rw [hr] at hturns
  cases t with
  | stop | last => exact hturns
  | pass | item => exact hturns.1

theorem Traces.map {β : Type} {r : Reader α} {walk : α → List Node} (h : r.Traces walk)
    (hs : s.Ends) {g : α → β} {b : β} (hr : (r s).map g = .ok b s') :
    ∃ a, b = g a ∧ s.Traces (walk a) s' := by
  obtain ⟨a, ha, rfl⟩ := Outcome.map_eq_ok.1 hr
  exact ⟨a, rfl, h hs ha⟩

/-- A repetition is traced by the walks of its rounds, one behind another. -/
theorem Traces.many {round : Reader (Turn α)} {walk : α → List Node}
    (h : round.Traces (Turn.walk walk)) : Traces (many round) fun as => as.flatMap walk := by
  intro s as s' hs hr
  refine many_cases (motive := fun s as s' => s.Ends → s.Traces (as.flatMap walk) s')
    ?stop ?pass ?item ?last hr hs
  case stop => exact fun hr hs => h hs hr
  case pass =>
    intro s s₁ as s' hr _ ih hs
    have hround : s.Reaches s₁ := (h hs hr).reaches
    exact hround.then_traces (ih (hround.ends hs))
  case item =>
    intro s a s₁ as s' hr _ ih hs
    have hround : s.Traces (walk a) s₁ := h hs hr
    exact hround.append (ih (hround.reaches.ends hs))
  case last =>
    intro s a s' hr hs
    have hround : s.Traces (walk a) s' := h hs hr
    simpa using hround

end Reader

namespace Grammar

open Reader

variable {mode : Mode} {room : Nat} {s s' : Stream}

/-! ## Statements -/

/-- The walk through the statements of a block. -/
def blockWalk (b : Block) : List Node :=
  b.flatMap fun st => (Node.statement st).walk

theorem flatMap_walk_statements (b : Block) :
    (b.map Node.statement).flatMap Node.walk = blockWalk b :=
  List.flatMap_map ..

theorem initiate_cases {line : Nat} {st : Statement}
    (h : initiate (expression room) line s = .ok st s') :
    ∃ mode p as, mode ≠ .confirm ∧ st = .activity mode p as line := by
  rw [initiate, bind_run, skip_run, Outcome.andThen_ok, bind_run, eat_run] at h
  split at h
  · rw [Outcome.andThen_ok, if_pos rfl, bind_run, Outcome.andThen_eq_ok] at h
    obtain ⟨_, s₁, -, h⟩ := h
    obtain ⟨x, -, rfl⟩ := Outcome.map_eq_ok.1 h
    exact ⟨.initiateAndConfirm, x.1, x.2, by simp, rfl⟩
  · obtain ⟨x, -, rfl⟩ := Outcome.map_eq_ok.1 h
    exact ⟨.initiate, x.1, x.2, by simp, rfl⟩

theorem wait_cases {line : Nat} {st : Statement}
    (h : wait (expression room) line s = .ok st s') : ∃ c, st = .wait c line := by
  rw [wait, bind_run, skip_run, Outcome.andThen_ok, bind_run, Outcome.andThen_eq_ok] at h
  obtain ⟨_, s₁, -, h⟩ := h
  obtain ⟨c, -, rfl⟩ := Outcome.map_eq_ok.1 h
  exact ⟨c, rfl⟩

theorem beginsExpr_of_expression {e : Expr} (hs : s.Ends)
    (h : expression room s = .ok e s') : s.token.beginsExpr = true := by
  obtain ⟨us, rfl, hspells, hfits⟩ := takes_expression room hs h
  obtain ⟨t, ts, hwords, ht⟩ := hspells.begins hfits
  obtain ⟨u, us, rfl, rfl, -⟩ := words_eq_cons.1 hwords
  cases us <;> exact ht

/-- A statement without a block stands at its first token. -/
theorem plainStatement_stands {st : Statement} (hs : s.Ends)
    (h : plainStatement (expression room) s.line s = .ok st s') :
    (Node.statement st).StandsAt s.here ∧ (Node.statement st).children = [] := by
  rw [plainStatement_run] at h
  split at h
  · next n hn _ =>
    obtain ⟨e, -, rfl⟩ := Outcome.map_eq_ok.1 h
    exact ⟨⟨rfl, hn⟩, rfl⟩
  · obtain ⟨e, he, rfl⟩ := Outcome.map_eq_ok.1 h
    exact ⟨⟨rfl, beginsExpr_of_expression hs he⟩, rfl⟩
  · cases h
  · obtain ⟨e, he, rfl⟩ := Outcome.map_eq_ok.1 h
    exact ⟨⟨rfl, beginsExpr_of_expression hs he⟩, rfl⟩

section Blocks

variable {line : Nat} {st : Statement}
  (hb : ∀ kind line stop, (statements mode room kind line stop).outcome.Traces blockWalk)

include hb

theorem traces_branch : (branch (expression room) (statements mode room) line).outcome.Traces
    (Turn.walk fun b => blockWalk b.body) := by
  intro s t s' hs h
  obtain ⟨c, s₁, body, s₂, hc, -, hbody, hend⟩ := branch_eq_ok.1 h
  have hcondition := (proceeds_expression room).halts.reaches hs hc
  have hrun : s.Traces (blockWalk body) s₂ := hcondition.then_traces
    (s₁.reaches_advance.then_traces (hb _ _ _ (hcondition.ends hs).advance hbody))
  obtain ⟨-, rfl, rfl⟩ | ⟨-, rfl, rfl⟩ := hend
  · exact hrun.then_reaches s₂.reaches_advance
  · exact hrun

theorem conditional_traces (hs : s.Ends)
    (h : (conditional (expression room) (statements mode room) line).outcome s = .ok st s') :
    ∃ branches rest, st = .conditional branches rest line ∧
      s.advance.Traces ((Node.statement st).children.flatMap Node.walk) s' := by
  obtain ⟨branches, s₁, rest, s₂, hbranches, hrest, hend, rfl⟩ := conditional_eq_ok.1 h
  refine ⟨branches, rest, rfl, ?_⟩
  have hwalk : (Node.statement (.conditional branches rest line)).children.flatMap Node.walk =
      (branches.flatMap fun b => blockWalk b.body) ++ blockWalk (rest.getD []) := by
    rw [Node.children, flatMap_walk_statements, blockWalk, List.flatMap_append,
      List.flatMap_assoc]
    rfl
  have hbranches' := (traces_branch hb).many hs.advance hbranches
  have hs₁ := hbranches'.reaches.ends hs.advance
  have hrest' : s₁.Traces (blockWalk (rest.getD [])) s₂ := by
    rw [otherwise_run] at hrest
    split at hrest
    · obtain ⟨body, hbody, rfl⟩ := Outcome.map_eq_ok.1 hrest
      exact s₁.reaches_advance.then_traces (hb _ _ _ hs₁.advance hbody)
    · obtain ⟨rfl, rfl⟩ := Outcome.ok.inj hrest
      exact (Stream.Reaches.refl s₁).traces
  rw [hwalk]
  exact (hbranches'.append hrest').then_reaches
    ((halts_endOf _ _).reaches (hrest'.reaches.ends hs₁) hend)

/-- A body behind a head that takes no nodes, and the end of the block behind it. -/
theorem body_traces {s₁ s₂ : Stream} {kind kind' : BlockKind} {body : Block} {stop : Bool}
    (hs : s.Ends) (hhead : s.Reaches s₁)
    (hbody : (statements mode room kind line stop).outcome s₁ = .ok body s₂)
    (hend : endOf kind' line s₂ = .ok () s') : s.Traces (blockWalk body) s' := by
  have hrun := hhead.then_traces (hb _ _ _ (hhead.ends hs) hbody)
  exact hrun.then_reaches ((halts_endOf _ _).reaches (hrun.reaches.ends hs) hend)

theorem whileLoop_traces (hs : s.Ends)
    (h : (whileLoop (expression room) (statements mode room) line).outcome s = .ok st s') :
    ∃ c body, st = .whileLoop c body line ∧
      s.advance.Traces ((Node.statement st).children.flatMap Node.walk) s' := by
  obtain ⟨c, s₁, body, s₂, hc, -, hbody, hend, rfl⟩ := whileLoop_eq_ok.1 h
  refine ⟨c, body, rfl, ?_⟩
  rw [Node.children, flatMap_walk_statements]
  have hcondition := (proceeds_expression room).halts.reaches hs.advance hc
  exact body_traces hb hs.advance (hcondition.trans s₁.reaches_advance) hbody hend

theorem forLoop_traces (hs : s.Ends)
    (h : (forLoop (expression room) (statements mode room) line).outcome s = .ok st s') :
    ∃ n e body, st = .forLoop n e body line ∧
      s.advance.Traces ((Node.statement st).children.flatMap Node.walk) s' := by
  obtain ⟨n, e, s₁, body, s₂, -, -, he, -, hbody, hend, rfl⟩ := forLoop_eq_ok.1 h
  refine ⟨n, e, body, rfl, ?_⟩
  rw [Node.children, flatMap_walk_statements]
  have hvalues := (proceeds_expression room).halts.reaches hs.advance.advance.advance he
  have hhead : s.advance.Reaches s₁.advance :=
    (s.advance.reaches_advance.trans s.advance.advance.reaches_advance).trans
      (hvalues.trans s₁.reaches_advance)
  exact body_traces hb hs.advance hhead hbody hend

/-- A statement stands at its first token, and what is in its blocks behind it. -/
theorem bareStatement_traces (hs : s.Ends)
    (h : (bareStatement (expression room) (statements mode room) s.line).outcome s = .ok st s') :
    s.Traces (Node.statement st).walk s' := by
  have hproceeds := proceeds_bareStatement (proceeds_expression room) (halts_statements mode room)
    s.line
  obtain ⟨he, hadvance⟩ := hproceeds.reaches_advance hs h
  have hblocks : (Node.statement st).StandsAt s.here →
      s.advance.Traces ((Node.statement st).children.flatMap Node.walk) s' →
        s.Traces (Node.statement st).walk s' := by
    intro hstands htraces
    rw [Node.walk_eq]
    exact htraces.cons hs he hstands
  have hleaf : (Node.statement st).StandsAt s.here → (Node.statement st).children = [] →
      s.Traces (Node.statement st).walk s' := by
    intro hstands hchildren
    refine hblocks hstands ?_
    rw [hchildren]
    exact hadvance.traces
  rw [bareStatement_run] at h
  split at h
  · next ht =>
    obtain ⟨mode, p, as, hmode, rfl⟩ := initiate_cases h
    cases mode with
    | confirm => exact absurd rfl hmode
    | initiate | initiateAndConfirm => exact hleaf ⟨rfl, ht⟩ rfl
  · next ht =>
    have hrest : confirmOperand (expression room) s.line s.advance = .ok st s' := h
    obtain ⟨p, as, rfl, -⟩ | ⟨c, rfl, -⟩ := confirmOperand_cases hrest
    · exact hleaf ⟨rfl, ht⟩ rfl
    · exact hleaf ⟨rfl, ht⟩ rfl
  · next ht =>
    obtain ⟨c, rfl⟩ := wait_cases h
    exact hleaf ⟨rfl, ht⟩ rfl
  · next ht =>
    obtain ⟨branches, rest, rfl, htraces⟩ := conditional_traces hb hs h
    exact hblocks ⟨rfl, ht⟩ htraces
  · next ht =>
    obtain ⟨c, body, rfl, htraces⟩ := whileLoop_traces hb hs h
    exact hblocks ⟨rfl, ht⟩ htraces
  · next ht =>
    obtain ⟨n, e, body, rfl, htraces⟩ := forLoop_traces hb hs h
    exact hblocks ⟨rfl, ht⟩ htraces
  · obtain ⟨hstands, hchildren⟩ := plainStatement_stands hs h
    exact hleaf hstands hchildren

theorem traces_statement : (statement (expression room) (statements mode room)).outcome.Traces
    fun st => (Node.statement st).walk := by
  intro s st s' hs h
  rw [statement_run, Outcome.andThen_eq_ok] at h
  obtain ⟨st', s₁, hbare, h⟩ := h
  have htraces := bareStatement_traces hb hs hbare
  split at h
  · obtain ⟨rfl, rfl⟩ := Outcome.ok.inj h
    exact htraces.then_reaches s₁.reaches_advance
  · obtain ⟨rfl, rfl⟩ := Outcome.ok.inj h
    exact htraces

/-- A round of a block keeps a statement or nothing. Behind a fault it passes over some tokens. -/
theorem traces_round (kind : BlockKind) (stopAtBranch : Bool) :
    (round mode kind line stopAtBranch
      (statement (expression room) (statements mode room))).outcome.Traces
        (Turn.walk fun st => (Node.statement st).walk) := by
  intro s t s' hs h
  have hreaches := (turns_round mode kind line stopAtBranch
    (proceeds_statement (proceeds_expression room) (halts_statements mode room))).reaches hs h
  obtain ⟨s₁, hsemi, ⟨rfl, -⟩ | ⟨-, -, ⟨st, rfl, hst⟩ | ⟨-, rfl, -⟩⟩⟩ := round_ok_cases h
  · exact hreaches.traces
  · have hsemicolons := halts_semicolons.reaches hs hsemi
    exact hsemicolons.then_traces (traces_statement hb (hsemicolons.ends hs) hst)
  · exact hreaches.traces

end Blocks

/-- The statements of a block are read in their order, in both modes. -/
theorem traces_statements (mode : Mode) :
    ∀ (room : Nat) (kind : BlockKind) (line : Nat) (stopAtBranch : Bool),
      (statements mode room kind line stopAtBranch).outcome.Traces blockWalk
  | 0, _, _, _ => by
    intro s b s' _ h
    cases h
  | room + 1, kind, line, stopAtBranch => by
    rw [statements, Reporter.outcome_many]
    exact (traces_round (traces_statements mode room) kind stopAtBranch).many

/-! ## Declarations -/

theorem typeDeclaration_cases {type : Reader TypeExpr} {d : Declaration}
    (h : typeDeclaration type s = .ok d s') : ∃ n body, d = .type n body s.line := by
  rw [typeDeclaration_run, bind_run, Outcome.andThen_eq_ok] at h
  obtain ⟨n, s₁, -, h⟩ := h
  rw [bind_run, Outcome.andThen_eq_ok] at h
  obtain ⟨t, s₂, -, h⟩ := h
  split at h <;> cases h <;> exact ⟨n, _, rfl⟩

/-- A round of a namespace keeps a declaration or nothing. -/
theorem traces_childRound {inner : Reader Declaration} {walk : Declaration → List Node}
    (hi : inner.Traces walk) : (childRound inner).Traces (Turn.walk walk) := by
  intro s t s' hs h
  rw [childRound_run, Outcome.andThen_eq_ok] at h
  obtain ⟨_, s₁, hsemi, h⟩ := h
  have hsemicolons := halts_semicolons.reaches hs hsemi
  refine hsemicolons.then_traces ?_
  split at h
  · obtain ⟨rfl, rfl⟩ := Outcome.ok.inj h
    exact s₁.reaches_advance.traces
  · obtain ⟨d, rfl, hd⟩ := hi.map (hsemicolons.ends hs) h
    exact hd
  · obtain ⟨d, rfl, hd⟩ := hi.map (hsemicolons.ends hs) h
    exact hd
  · cases h

theorem traces_declarationAt (room : Nat) :
    (declarationAt room).Traces fun d => (Node.declaration d).walk := by
  induction room with
  | zero =>
    intro s d s' _ h
    cases h
  | succ room ih =>
    intro s d s' hs h
    obtain ⟨he, hadvance⟩ := (proceeds_declarationAt (room + 1)).reaches_advance hs h
    rw [declarationAt, declarationOf_run] at h
    simp only [Node.walk_eq]
    split at h
    · next ht =>
      obtain ⟨p, s₁, ds, hp, -, hds, rfl⟩ := namespaceDeclaration_eq_ok.1 h
      have hpath := proceeds_path.halts.reaches hs.advance hp
      have hchildren := (traces_childRound ih).many
        (hpath.ends hs.advance).advance hds
      refine Stream.Traces.cons hs he ⟨rfl, ht⟩ ?_
      rw [Node.children, List.flatMap_map]
      exact (hpath.trans s₁.reaches_advance).then_traces hchildren
    · next ht =>
      obtain ⟨n, body, rfl⟩ := typeDeclaration_cases h
      exact Stream.Traces.cons hs he ⟨rfl, ht⟩ hadvance.traces
    · cases h

/-! ## Procedures and files -/

theorem traces_section (mode : Mode) (kind : BlockKind) :
    (section_ mode kind).outcome.Traces blockWalk := by
  intro s b s' hs h
  simp only [section_, Reporter.outcome_bind, Reporter.outcome_liftM, Reporter.outcome_pure,
    bind_run, here_run, skip_run, Outcome.andThen_ok, Outcome.andThen_eq_ok] at h
  obtain ⟨b, s₁, hb, _, s₂, hend, h⟩ := h
  obtain ⟨rfl, rfl⟩ := Outcome.ok.inj h
  exact body_traces (traces_statements mode maxNesting) hs s.reaches_advance hb hend

theorem traces_optionalSection (mode : Mode) (kind : BlockKind) :
    (optionalSection mode kind).outcome.Traces fun b => blockWalk (b.getD []) := by
  intro s b s' hs h
  simp only [optionalSection, Reporter.outcome_bind, Reporter.outcome_liftM, Reporter.outcome_ite,
    Reporter.outcome_pure, bind_run, peek_run, Outcome.andThen_ok, ite_run] at h
  split at h
  · obtain ⟨body, rfl, hbody⟩ := (traces_section mode kind).map hs h
    exact hbody
  · obtain ⟨rfl, rfl⟩ := Outcome.ok.inj h
    exact (Stream.Reaches.refl s).traces

theorem traces_procedure (mode : Mode) :
    (procedure mode).outcome.Traces fun p => (Node.procedure p).walk := by
  intro s p s' hs h
  obtain ⟨he, -⟩ := (proceeds_procedure mode).reaches_advance hs h
  simp only [procedure, Reporter.outcome_bind, Reporter.outcome_liftM, Reporter.outcome_pure,
    bind_run, here_run, Outcome.andThen_ok, Outcome.andThen_eq_ok, keyword_eq_ok, name_eq_ok] at h
  obtain ⟨_, _, ⟨hword, rfl⟩, n, _, ⟨-, rfl⟩, pre, s₁, hpre, _, _, hahead, main, s₂, hmain, conf,
    s₃, hconf, _, _, hend, _, _, hendOf, h⟩ := h
  obtain ⟨rfl, rfl⟩ := Outcome.ok.inj h
  obtain ⟨rfl, -⟩ := mainAhead_eq_ok hahead
  obtain rfl := endAhead_eq_ok hend
  have hpre' := traces_optionalSection mode _ hs.advance.advance hpre
  have hs₁ := hpre'.reaches.ends hs.advance.advance
  have hmain' := traces_section mode _ hs₁ hmain
  have hs₂ := hmain'.reaches.ends hs₁
  have hconf' := traces_optionalSection mode _ hs₂ hconf
  have hend' := (halts_endOf _ _).reaches (hconf'.reaches.ends hs₂) hendOf
  have hsections := (hpre'.append (hmain'.append hconf')).then_reaches hend'
  simp only [Node.walk_eq]
  refine Stream.Traces.cons hs he ⟨rfl, hword⟩ (s.advance.reaches_advance.then_traces ?_)
  rw [Node.children, flatMap_walk_statements, blockWalk, List.flatMap_append, List.flatMap_append]
  exact hsections

theorem traces_item (mode : Mode) : (item mode).outcome.Traces fun i => i.node.walk := by
  intro s i s' hs h
  rw [item_run] at h
  split at h
  · obtain ⟨p, rfl, hp⟩ := (traces_procedure mode).map hs h
    exact hp
  · obtain ⟨d, rfl, hd⟩ := (traces_declarationAt (maxNesting + 1)).map hs h
    exact hd
  · obtain ⟨d, rfl, hd⟩ := (traces_declarationAt (maxNesting + 1)).map hs h
    exact hd
  · cases h

theorem traces_fileRound : fileRound.outcome.Traces (Turn.walk fun i => i.node.walk) := by
  intro s t s' hs h
  obtain ⟨rfl, hsemi, -⟩ | ⟨i, s₁, rfl, hsemi, -, hi⟩ := fileRound_cases h
  · exact (halts_semicolons.reaches hs hsemi).traces
  · have hsemicolons := halts_semicolons.reaches hs hsemi
    exact hsemicolons.then_traces (traces_item .strict (hsemicolons.ends hs) hi)

/-- A round of a recovering reading finds an item or none. -/
theorem traces_recoverRound (cap count : Nat) :
    (recoverRound cap count).Traces (Turn.walk fun f => Item.walks f.items) := by
  intro s t s' hs h
  have hreaches := (turns_recoverRound cap count).reaches hs h
  rw [recoverRound, Outcome.andThen_eq_ok] at h
  obtain ⟨_, s₁, hsemi, h⟩ := h
  have hsemicolons := halts_semicolons.reaches hs hsemi
  split at h
  · obtain ⟨rfl, rfl⟩ := Outcome.ok.inj h
    exact hreaches.traces
  split at h
  · next ds i s₂ hi =>
    obtain ⟨rfl, rfl⟩ := Outcome.ok.inj h
    have hitem : (item .recovering).outcome s₁ = .ok i s₂ := congrArg Prod.snd hi
    have htraces := hsemicolons.then_traces
      (traces_item .recovering (hsemicolons.ends hs) hitem)
    simpa [Turn.walk, Item.walks] using htraces
  · split at h
    · obtain ⟨rfl, rfl⟩ := Outcome.ok.inj h
      exact hreaches.traces
    · obtain ⟨_, -, rfl⟩ := Outcome.map_eq_ok.1 h
      exact hreaches.traces
  · cases h

/-- The nodes that a recovering reading finds stand in the row it reads. -/
theorem standIn_of_recoverFrom {cap : Nat} : ∀ {count : Nat} {s : Stream} {f : Findings},
    s.Ends → recoverFrom cap count s = some f → StandIn (Item.walks f.items) s.row := by
  intro count s
  induction hn : s.size using Nat.strongRecOn generalizing count s with
  | _ n ih =>
    subst hn
    intro f hs h
    obtain ⟨t, s₁, hround⟩ := recoverRound_ok cap count hs.closed
    have htraces := traces_recoverRound cap count hs hround
    have hs₁ := htraces.reaches.ends hs
    rw [recoverFrom_run, hround, Outcome.gather.eq_def] at h
    cases t with
    | stop =>
      cases h
      exact .nil _
    | pass =>
      dsimp only at h
      split at h
      · next hlt => exact htraces.standIn_row (ih _ hlt rfl hs₁ h)
      · cases h
    | item f₁ =>
      dsimp only at h
      split at h
      · next hlt =>
        obtain ⟨f₂, hf₂, rfl⟩ := Option.map_eq_some_iff.1 h
        have hrest := htraces.standIn_row (ih _ hlt rfl hs₁ hf₂)
        simpa [Turn.walk, Item.walks, Findings.prepend] using hrest
      · cases h
    | last f₁ =>
      cases h
      have hrest := htraces.standIn_row (.nil _)
      rwa [List.append_nil] at hrest

end Grammar

open Grammar

/-- In either mode, and for any number of errors, what is read from a text has the lines of its
tokens : every procedure, declaration and statement stands at a token that it may begin with, one
behind another in the order of the walk, so that the lines never decrease on it, and a parent has no
greater line than its children. -/
theorem lines_traced {text : String} {ts : List Located} (h : tokenize text = .ok ts) :
    (∀ f, parseFile ts = .accepted f → f.Traced ts) ∧
    ∀ maxErrors, ∃ r, recoverFile maxErrors ts = some r ∧ r.file.Traced ts := by
  have hends := endsOnce_of_tokenize h
  have hlines := (tokensFrom_laid h).lines
  have hs := Stream.ends_ofTokens hends
  have hrow := Stream.row_ofTokens hends
  constructor
  · intro f hf
    obtain ⟨s', hrun⟩ := parseFile_eq_accepted.1 hf
    rw [← fileRound_outcome] at hrun
    have hstands := (traces_fileRound.many hs hrun).standIn_row (.nil _)
    rw [List.append_nil, hrow] at hstands
    exact .of_standIn hstands hlines
  · intro maxErrors
    obtain ⟨f, hf, hr⟩ := exists_recoverFile hends.endsLast maxErrors
    have hstands := standIn_of_recoverFrom hs hf
    rw [hrow] at hstands
    exact ⟨_, hr, .of_standIn hstands hlines⟩

/-- A branch on a further line than its procedure, and a statement on the line of its branch. -/
theorem lines_traced_branch :
    let ts : List Located := [⟨.keyword .procedure, ⟨0, 9, 1, 1⟩⟩, ⟨.name "p", ⟨10, 11, 1, 11⟩⟩,
      ⟨.keyword .main, ⟨12, 16, 1, 13⟩⟩, ⟨.keyword .if_, ⟨17, 19, 2, 1⟩⟩,
      ⟨.name "b", ⟨20, 21, 2, 4⟩⟩, ⟨.keyword .then_, ⟨22, 26, 2, 6⟩⟩,
      ⟨.name "x", ⟨27, 28, 2, 11⟩⟩, ⟨.keyword .end_, ⟨29, 32, 3, 1⟩⟩,
      ⟨.keyword .if_, ⟨33, 35, 3, 5⟩⟩, ⟨.keyword .end_, ⟨36, 39, 3, 8⟩⟩,
      ⟨.keyword .main, ⟨40, 44, 3, 12⟩⟩, ⟨.keyword .end_, ⟨45, 48, 3, 17⟩⟩,
      ⟨.keyword .procedure, ⟨49, 58, 3, 21⟩⟩, ⟨.eof, ⟨58, 58, 3, 30⟩⟩]
    let f : SourceFile := ⟨[.procedure ⟨"p", none,
      [.conditional [.mk (.name "b") [.expr (.name "x") 2]] none 2], none, 1⟩]⟩
    tokenize "procedure p main\nif b then x\nend if end main end procedure" = .ok ts ∧
      parseFile ts = .accepted f ∧ f.Traced ts ∧
        ∀ maxErrors, ∃ r, recoverFile maxErrors ts = some r ∧ r.file.Traced ts := by
  intro ts f
  have hts : tokenize "procedure p main\nif b then x\nend if end main end procedure" = .ok ts := by
    cbv
  have hf : parseFile ts = .accepted f := by cbv
  obtain ⟨hstrict, hrecovering⟩ := lines_traced hts
  exact ⟨hts, hf, hstrict f hf, hrecovering⟩

end OpsLang
