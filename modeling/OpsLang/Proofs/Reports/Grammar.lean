import OpsLang.Proofs.Reports.Reader

/-!
# Where the grammar finds faults

One lemma for each production : it has its diagnostics in order (`Reader.Marks`,
`Reporter.Marks`). The mode matters in one place, where a block passes over the fault of a
statement. The reading goes on behind the place of that fault, so what is found later lies
behind it too (`marks_attempt`).
-/

namespace OpsLang

namespace Grammar

open Reader

/-! ## Without levels -/

section Explaining

variable {P : Stream → Diagnostic → Prop} (hP : ∀ {s d}, s.Explains d → P s d)

include hP

theorem marks_path : path.Marks P := by
  have hround : memberRound.Marks P :=
    (marks_eat _).bind fun _ => ((marks_member hP _).bind fun _ => marks_pure _).ite (marks_pure _)
  exact (marks_name hP _).bind fun _ => hround.many.bind fun _ => marks_pure _

omit hP in
theorem marks_number (lexeme : String) : (number lexeme).Marks P := by
  refine marks_here.bind fun _ => marks_skip.bind fun _ => marks_here.bind fun next => ?_
  split
  · split
    · exact marks_skip.bind fun _ => marks_pure _
    · exact marks_pure _
  · exact marks_pure _

theorem marks_endOf (kind : BlockKind) (line : Nat) : (endOf kind line).Marks P := by
  intro s _
  have hadvance := s.reaches_advance
  have hboth := hadvance.trans s.advance.reaches_advance
  show Marks P s ([], endOf kind line s)
  unfold endOf
  split
  · next k hend hnext =>
    split
    · exact .value hboth
    · refine .fault (hP ?_) hboth
      have hother := Stream.explains_otherEnd (e := endText kind.closer.text) hend
        (by rw [hnext]; nofun)
      rwa [hnext] at hother
  · exact .fault (hP Stream.explains_unterminated) (.refl s)
  · exact (Marks.fault (hP Stream.explains_unterminated) (.refl _)).of_reaches hadvance
  · next hend _ heof =>
    exact .fault (hP (Stream.explains_otherEnd hend heof)) hadvance
  · exact .fault (hP Stream.explains_expecting) (.refl s)

theorem marks_namedType : namedType.Marks P := by
  refine (marks_path hP).bind fun p => ?_
  split
  · split <;> exact marks_pure _
  · exact marks_pure _

theorem marks_arraySize : arraySize.Marks P := by
  refine marks_peek.bind fun t => ?_
  split
  · split
    · exact marks_skip.bind fun _ => marks_pure _
    · exact marks_failAt fun _ => hP Stream.explains_badSize
  · exact marks_refuse hP _ _

theorem marks_mainAhead (line : Nat) (hasPreconditions : Bool) :
    (mainAhead line hasPreconditions).Marks P := by
  refine marks_peek.bind fun t => ?_
  split
  · exact marks_pure _
  · exact marks_failAt fun _ => hP Stream.explains_unterminated
  · split <;> exact marks_refuse hP _ _

theorem marks_endAhead (hasConfirmation : Bool) : (endAhead hasConfirmation).Marks P := by
  refine marks_peek.bind fun t => ?_
  split
  · exact marks_pure _
  · exact marks_pure _
  · split <;> exact marks_refuse hP _ _

/-! ## With readers of what lies deeper -/

section Values

variable {value : Reader Expr} (h : value.Marks P)

include h

omit hP in
theorem marks_argument : (argument value).Marks P := by
  refine marks_peek.bind fun t => marks_peekNext.bind fun u => ?_
  split
  · exact marks_skip.bind fun _ => marks_skip.bind fun _ => h.bind fun _ => marks_pure _
  · exact h.bind fun _ => marks_pure _

theorem marks_arguments : (arguments value).Marks P := by
  have hround : (argumentRound value).Marks P :=
    marks_peek.bind fun _ => (marks_pure _).ite <| (marks_argument h).bind fun _ =>
      (marks_eat _).bind fun _ => (marks_pure _).ite (marks_pure _)
  exact (marks_symbol hP _).bind fun _ => hround.many.bind fun _ =>
    (marks_symbol hP _).bind fun _ => marks_pure _

theorem marks_nameOrCall : (nameOrCall value).Marks P := by
  refine (marks_path hP).bind fun p => marks_peek.bind fun t => Marks.ite ?_ ?_
  · exact (marks_arguments hP h).bind fun _ => marks_pure _
  · split <;> exact marks_pure _

theorem marks_primary : (primary value).Marks P := by
  refine marks_peek.bind fun t => ?_
  split
  · exact marks_number _
  · exact marks_skip.bind fun _ => marks_pure _
  · exact marks_skip.bind fun _ => marks_pure _
  · exact marks_skip.bind fun _ => h.bind fun _ => (marks_symbol hP _).bind fun _ => marks_pure _
  · exact marks_nameOrCall hP h
  · exact marks_failAt fun _ => hP Stream.explains_strayUnit
  · exact marks_refuse hP _ _

theorem marks_operand {behind : Reader Expr} (hb : behind.Marks P) :
    (operand behind value).Marks P := by
  refine marks_peek.bind fun t => ?_
  split
  · exact marks_skip.bind fun _ => hb.bind fun _ => marks_pure _
  · exact marks_primary hP h

theorem marks_activityReference : (activityReference value).Marks P :=
  (marks_path hP).bind fun _ => marks_peek.bind fun _ =>
    ((marks_arguments hP h).bind fun _ => marks_pure _).ite (marks_pure _)

theorem marks_initiate (line : Nat) : (initiate value line).Marks P := by
  have hactivity := marks_activityReference hP h
  refine marks_skip.bind fun _ => (marks_eat _).bind fun _ => Marks.ite ?_ ?_
  · exact (marks_keyword hP _).bind fun _ => hactivity.bind fun _ => marks_pure _
  · exact hactivity.bind fun _ => marks_pure _

/-- What an activity behind `confirm` fails with is not reported : the condition is read from
the same place. -/
theorem marks_confirmOperand (line : Nat) : (confirmOperand value line).Marks P := by
  have hcondition : (confirmCondition value line).Marks P := h.bind fun _ => marks_pure _
  intro s hs
  have hactivity := marks_activityReference hP h s hs
  show Marks P s ([], confirmOperand value line s)
  unfold confirmOperand
  split
  · split
    · next heq =>
      split
      · exact hcondition s hs
      · rw [Reporter.ofReader, heq] at hactivity
        cases hactivity with
        | ok h' hds => exact .ok h' hds
    · exact hcondition s hs
    · exact .endless _
  · exact hcondition s hs

theorem marks_wait (line : Nat) : (wait value line).Marks P :=
  marks_skip.bind fun _ => (marks_keyword hP _).bind fun _ => h.bind fun _ => marks_pure _

theorem marks_plainStatement (line : Nat) : (plainStatement value line).Marks P := by
  refine marks_peek.bind fun t => marks_peekNext.bind fun u => ?_
  split
  · exact marks_skip.bind fun _ => marks_skip.bind fun _ => h.bind fun _ => marks_pure _
  · exact h.bind fun _ => marks_pure _
  · exact marks_refuse hP _ _
  · exact h.bind fun _ => marks_pure _

section Blocks

variable {block : BlockReader} (hb : ∀ kind line stop, (block kind line stop).Marks P)
  (line : Nat)

include hb

theorem marks_branch : (branch value block line).Marks P :=
  h.liftM.bind fun _ => (marks_keyword hP _).liftM.bind fun _ => (hb _ _ _).bind fun _ =>
    (marks_eat _).liftM.bind fun _ => (Reporter.marks_pure _).ite (Reporter.marks_pure _)

omit hP h in
theorem marks_otherwise : (otherwise block line).Marks P :=
  (marks_eat _).liftM.bind fun _ =>
    ((hb _ _ _).bind fun _ => Reporter.marks_pure _).ite (Reporter.marks_pure _)

theorem marks_conditional : (conditional value block line).Marks P := by
  refine marks_skip.liftM.bind fun _ => (marks_branch hP h hb line).many.bind fun _ => ?_
  exact (marks_otherwise hb line).bind fun _ => (marks_endOf hP _ _).liftM.bind fun _ =>
    Reporter.marks_pure _

theorem marks_whileLoop : (whileLoop value block line).Marks P :=
  marks_skip.liftM.bind fun _ => h.liftM.bind fun _ => (marks_keyword hP _).liftM.bind fun _ =>
    (hb _ _ _).bind fun _ => (marks_endOf hP _ _).liftM.bind fun _ => Reporter.marks_pure _

theorem marks_forLoop : (forLoop value block line).Marks P :=
  marks_skip.liftM.bind fun _ => (marks_name hP _).liftM.bind fun _ =>
    (marks_keyword hP _).liftM.bind fun _ => h.liftM.bind fun _ =>
      (marks_keyword hP _).liftM.bind fun _ => (hb _ _ _).bind fun _ =>
        (marks_endOf hP _ _).liftM.bind fun _ => Reporter.marks_pure _

theorem marks_bareStatement : (bareStatement value block line).Marks P := by
  refine marks_peek.liftM.bind fun t => ?_
  split
  · exact (marks_initiate hP h line).liftM
  · exact Marks.liftM (marks_skip.bind fun _ => marks_confirmOperand hP h line)
  · exact (marks_wait hP h line).liftM
  · exact marks_conditional hP h hb line
  · exact marks_whileLoop hP h hb line
  · exact marks_forLoop hP h hb line
  · exact (marks_plainStatement hP h line).liftM

omit line in
theorem marks_statement : (statement value block).Marks P :=
  marks_here.liftM.bind fun _ => (marks_bareStatement hP h hb _).bind fun _ =>
    (marks_eat _).liftM.bind fun _ => Reporter.marks_pure _

end Blocks

end Values

omit hP in
/-- Skipping behind the fault of a statement never fails. -/
theorem resumeFrom_ne_fail (line : Nat) (stopAtBranch moved : Bool) (t : Located)
    (ts : List Located) (d : Diagnostic) (s : Stream) :
    resumeFrom line stopAtBranch moved t ts ≠ .fail d s := by
  fun_induction resumeFrom line stopAtBranch moved t ts with
  | case6 moved t _ _ _ _ t' ts ih => exact ih
  | _ => exact nofun

omit hP in
/-- Skipping behind the fault of a statement comes to a place. -/
theorem resume_ok (start : Stream) (line : Nat) (stopAtBranch : Bool) {s : Stream}
    (hs : s.Closed) : ∃ s', resume start line stopAtBranch s = .ok () s' ∧ s.Reaches s' := by
  have hwithin := resumeFrom_within line stopAtBranch (s.size < start.size) s.here s.ahead hs
  rw [resume]
  cases hres : resumeFrom line stopAtBranch (s.size < start.size) s.here s.ahead with
  | ok u s' =>
    rw [hres] at hwithin
    exact ⟨s', rfl, hwithin⟩
  | fail e s' => exact (resumeFrom_ne_fail _ _ _ _ _ _ _ hres).elim
  | endless =>
    rw [hres] at hwithin
    exact hwithin.elim

omit hP in
/-- The fault of a statement that is passed over is reported behind all that was reported in
the statement, and the reading goes on behind the place of the fault. -/
theorem marks_attempt (mode : Mode) (stopAtBranch : Bool) {st : Reporter Statement}
    (h : st.Marks P) : (attempt mode stopAtBranch st).Marks P := by
  intro s hs
  have hst := h s hs
  unfold attempt
  generalize st s = x at hst
  cases hst with
  | ok h hds => exact .ok h hds
  | @fail ds d p s' h hds hd hp =>
    simp only
    split
    · next hmode =>
      have hkind : d.kind = .grammar := by simpa [Diagnostic.isFatal] using hmode.2
      have hs' : s'.Closed := hp.closed (h.reaches.closed hs)
      have hreports : ∀ e ∈ ds ++ [d], e.kind = .grammar :=
        List.forall_mem_append.2 ⟨hds, by simpa using hkind⟩
      obtain ⟨s'', hres, hreach⟩ := resume_ok s d.span.line stopAtBranch hs'
      rw [hres]
      exact .ok (h.append (.cons (.refl p) hd (.nil (hp.trans hreach)))) hreports
    · exact .fail h hds hd hp
  | endless ds => exact .endless ds

theorem marks_round (mode : Mode) (kind : BlockKind) (line : Nat) (stopAtBranch : Bool)
    {st : Reporter Statement} (h : st.Marks P) :
    (round mode kind line stopAtBranch st).Marks P := by
  refine marks_semicolons.liftM.bind fun _ => marks_peek.liftM.bind fun t => ?_
  refine Reporter.Marks.ite ?_ ((Reporter.marks_pure _).ite (marks_attempt mode stopAtBranch h))
  exact (marks_failAt fun _ => hP Stream.explains_unterminated).liftM

section Types

variable {inner : Reader TypeExpr} (h : inner.Marks P)

include h

theorem marks_arrayType : (arrayType inner).Marks P :=
  (marks_symbol hP _).bind fun _ => h.bind fun _ => (marks_symbol hP _).bind fun _ =>
    (marks_arraySize hP).bind fun _ => (marks_symbol hP _).bind fun _ => marks_pure _

theorem marks_structType : (structType inner).Marks P := by
  have hfield : (field inner).Marks P :=
    (marks_member hP _).bind fun _ => (marks_symbol hP _).bind fun _ => h.bind fun _ =>
      marks_pure _
  have hround : (fieldRound inner).Marks P :=
    marks_peek.bind fun _ => (marks_pure _).ite <| hfield.bind fun _ =>
      (marks_eat _).bind fun _ => (marks_pure _).ite (marks_pure _)
  exact (marks_keyword hP _).bind fun _ => (marks_symbol hP _).bind fun _ =>
    hround.many.bind fun _ => (marks_symbol hP _).bind fun _ => marks_pure _

theorem marks_typeOf : (typeOf inner).Marks P := by
  refine marks_peek.bind fun t => ?_
  split
  · exact marks_structType hP h
  · exact marks_arrayType hP h
  · exact marks_namedType hP
  · exact marks_refuse hP _ _

theorem marks_typeDeclaration : (typeDeclaration inner).Marks P := by
  refine marks_here.bind fun _ => marks_skip.bind fun _ => (marks_name hP _).bind fun _ =>
    (marks_typeOf hP h).bind fun t => ?_
  cases t with
  | named p => exact marks_failAt fun _ => hP Stream.explains_bareAlias
  | _ => exact marks_pure _

end Types

theorem marks_namespaceDeclaration {inner : Reader Declaration} (h : inner.Marks P) :
    (namespaceDeclaration inner).Marks P := by
  have hround : (childRound inner).Marks P := by
    refine marks_semicolons.bind fun _ => marks_peek.bind fun t => ?_
    split
    · exact marks_skip.bind fun _ => marks_pure _
    · exact h.bind fun _ => marks_pure _
    · exact h.bind fun _ => marks_pure _
    · exact marks_refuse hP _ _
  exact marks_here.bind fun _ => marks_skip.bind fun _ => (marks_path hP).bind fun _ =>
    (marks_symbol hP _).bind fun _ => hround.many.bind fun _ => marks_pure _

theorem marks_declarationOf {type : Reader TypeExpr} {inner : Reader Declaration}
    (ht : type.Marks P) (hi : inner.Marks P) : (declarationOf type inner).Marks P := by
  refine marks_peek.bind fun t => ?_
  split
  · exact marks_namespaceDeclaration hP hi
  · exact marks_typeDeclaration hP ht
  · exact marks_refuse hP _ _

end Explaining

/-! ## At every level -/

theorem marks_tooDeep {α : Type} : (tooDeep : Reader α).Marks Stream.Blames :=
  marks_failAt fun _ => Stream.blames_tooDeep

theorem blames_of_explains {s : Stream} {d : Diagnostic} (h : s.Explains d) : s.Blames d :=
  h.toBlames

mutual

theorem marks_binaryAt : ∀ room floor : Nat, (binaryAt room floor).Marks Stream.Blames
  | 0, _ => marks_tooDeep
  | room + 1, floor => by
    rw [binaryAt]
    refine (marks_operand blames_of_explains (marks_binaryAt room 1) (marks_unaryAt room)).bind
      fun _ => Marks.bind (Marks.many ?_) fun _ => marks_pure _
    refine marks_peek.bind fun t => ?_
    split
    · exact (marks_pure _).ite (marks_skip.bind fun _ => (marks_binaryAt room _).bind fun _ =>
        marks_pure _)
    · exact marks_pure _

theorem marks_unaryAt : ∀ room : Nat, (unaryAt room).Marks Stream.Blames
  | 0 => marks_tooDeep
  | room + 1 => marks_operand blames_of_explains (marks_binaryAt room 1) (marks_unaryAt room)

end

theorem marks_expression (room : Nat) : (expression room).Marks Stream.Blames :=
  marks_binaryAt room 1

theorem marks_statements (mode : Mode) :
    ∀ (room : Nat) (kind : BlockKind) (line : Nat) (stopAtBranch : Bool),
      (statements mode room kind line stopAtBranch).Marks Stream.Blames
  | 0, _, _, _ => marks_tooDeep.liftM
  | room + 1, kind, line, stopAtBranch => by
    rw [statements]
    exact (marks_round blames_of_explains mode kind line stopAtBranch (marks_statement
      blames_of_explains (marks_expression room) (marks_statements mode room))).many

theorem marks_typeAt : ∀ room : Nat, (typeAt room).Marks Stream.Blames
  | 0 => marks_tooDeep
  | room + 1 => marks_typeOf blames_of_explains (marks_typeAt room)

theorem marks_declarationAt : ∀ room : Nat, (declarationAt room).Marks Stream.Blames
  | 0 => marks_tooDeep
  | room + 1 =>
    marks_declarationOf blames_of_explains (marks_typeAt room) (marks_declarationAt room)

theorem marks_declaration (room : Nat) : (declaration room).Marks Stream.Blames :=
  marks_declarationOf blames_of_explains (marks_typeAt room) (marks_declarationAt room)

/-! ## Procedures and items -/

theorem marks_section_ (mode : Mode) (kind : BlockKind) :
    (section_ mode kind).Marks Stream.Blames :=
  marks_here.liftM.bind fun _ => marks_skip.liftM.bind fun _ =>
    (marks_statements mode _ _ _ _).bind fun _ =>
      (marks_endOf blames_of_explains _ _).liftM.bind fun _ => Reporter.marks_pure _

theorem marks_optionalSection (mode : Mode) (kind : BlockKind) :
    (optionalSection mode kind).Marks Stream.Blames :=
  marks_peek.liftM.bind fun _ =>
    ((marks_section_ mode kind).bind fun _ => Reporter.marks_pure _).ite (Reporter.marks_pure _)

theorem marks_procedure (mode : Mode) : (procedure mode).Marks Stream.Blames :=
  marks_here.liftM.bind fun _ => (marks_keyword blames_of_explains _).liftM.bind fun _ =>
    (marks_name blames_of_explains _).liftM.bind fun _ => (marks_optionalSection mode _).bind
      fun _ => (marks_mainAhead blames_of_explains _ _).liftM.bind fun _ =>
        (marks_section_ mode _).bind fun _ => (marks_optionalSection mode _).bind fun _ =>
          (marks_endAhead blames_of_explains _).liftM.bind fun _ =>
            (marks_endOf blames_of_explains _ _).liftM.bind fun _ => Reporter.marks_pure _

theorem marks_item (mode : Mode) : (item mode).Marks Stream.Blames := by
  refine marks_peek.liftM.bind fun t => ?_
  split
  · exact (marks_procedure mode).bind fun _ => Reporter.marks_pure _
  · exact (marks_declaration _).liftM.bind fun _ => Reporter.marks_pure _
  · exact (marks_declaration _).liftM.bind fun _ => Reporter.marks_pure _
  · exact (marks_refuse blames_of_explains _ _).liftM

end Grammar

end OpsLang
