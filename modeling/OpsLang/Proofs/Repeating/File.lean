import OpsLang.Proofs.Repeating.Reader

/-!
# The grammar on rows that repeat their last token

Every strict reader of the grammar is one of those that do not tell the end of a row from more of
its last token, if that is a semicolon or an operand (`Token.Stalls`). Such a token is looked
ahead to in one way only, since it is neither `=` nor a word of the end of a block. So the readers
that look ahead do what they do without it (`repeats_argument`, `repeats_endOf`).
-/

namespace OpsLang

/-- The token may be repeated for ever where it is the last of a row : it is passed over again and
again, or read as a statement. -/
def Token.Stalls (t : Token) : Prop :=
  t = .symbol .semicolon ∨ t.IsOperand

namespace Grammar

open Reader

variable {t : Located}

/-! ## Expressions -/

theorem repeats_path : Repeats t path :=
  (repeats_name _).bind fun _ => (Repeats.many ((repeats_eat _).bind fun _ =>
    ((repeats_member _).bind fun _ => repeats_pure _).ite (repeats_pure _))).bind fun _ =>
      repeats_pure _

section Ahead

variable (ht : t.token.Stalls) {s : Stream} {k : Nat} {rest : List Located}

include ht

/-- What stands behind the last token is no `=`, whether that token is repeated or not. -/
theorem next_more_ne_assign (hs : s.EndsWith t) (hnil : s.ahead = []) (hk : rest = [] ∨ 1 ≤ k) :
    (s.more t k rest).next ≠ .symbol .assign := by
  rw [hs.eq_of_ahead hnil]
  cases k with
  | zero =>
    obtain rfl : rest = [] := hk.resolve_right (by omega)
    simp [Stream.more, Stream.next]
  | succ k =>
    show t.token ≠ _
    obtain h | h := ht
    · simp [h]
    · rintro heq
      rwa [heq] at h

/-- A reader that looks ahead for `=` behind a name does so as well with more of the last token. -/
theorem repeats_of_assign {α : Type} {r : Reader α} (named : String → Reader α)
    (hr : ∀ (z : Stream) n, z.token = .name n → z.next = .symbol .assign → r z = named n z)
    (hnamed : ∀ n, Repeats t (named n))
    (hplain : ∀ u, ∃ plain, Repeats t plain ∧ ∀ z : Stream, z.token = u →
      ((∃ n, u = .name n) → z.next ≠ .symbol .assign) → r z = plain z) : Repeats t r := by
  intro s hs
  obtain ⟨plain, hrepeats, hplain⟩ := hplain s.token
  by_cases hnil : s.ahead = []
  case pos =>
    have hne (k : Nat) (rest : List Located) (hk : rest = [] ∨ 1 ≤ k) :
        r (s.more t k rest) = plain (s.more t k rest) :=
      hplain _ rfl fun _ => next_more_ne_assign ht hs hnil hk
    refine (hrepeats s hs).congr 1 ?_ hne
    simpa [Stream.more] using hne 0 [] (.inl rfl)
  case neg =>
    have hnext (k : Nat) (rest : List Located) : (s.more t k rest).next = s.next :=
      Stream.next_more hnil
    by_cases hassign : (∃ n, s.token = .name n) ∧ s.next = .symbol .assign
    · obtain ⟨⟨n, hn⟩, ha⟩ := hassign
      exact (hnamed n s hs).congr 0 (hr s n hn ha) fun k rest _ =>
        hr _ n hn ((hnext k rest).trans ha)
    · have hne (hn : ∃ n, s.token = .name n) : s.next ≠ .symbol .assign :=
        fun ha => hassign ⟨hn, ha⟩
      refine (hrepeats s hs).congr 0 (hplain s rfl hne) fun k rest _ => hplain _ rfl ?_
      rwa [hnext]

section Values

variable {value behind inside : Reader Expr}

theorem repeats_argument (h : Repeats t value) : Repeats t (argument value) := by
  refine repeats_of_assign ht (fun n => do skip; skip; return .named n (← value))
    (fun z n hn ha => ?_)
    (fun _ => repeats_skip.bind fun _ => repeats_skip.bind fun _ => h.bind fun _ => repeats_pure _)
    fun u => ⟨do return .positional (← value), h.bind fun _ => repeats_pure _, fun z hz hne => ?_⟩
  · rw [argument_run, hn, ha]
    rfl
  · rw [argument_run]
    split
    · next n hn ha => exact absurd ha (hne ⟨n, hz.symm.trans hn⟩)
    · rfl

theorem repeats_arguments (h : Repeats t value) : Repeats t (arguments value) := by
  rw [arguments_eq]
  refine (repeats_symbol _).bind fun _ => Repeats.bind (Repeats.many ?_) fun _ =>
    (repeats_symbol _).bind fun _ => repeats_pure _
  exact repeats_peek.bind fun _ => (repeats_pure _).ite ((repeats_argument ht h).bind fun _ =>
    (repeats_eat _).bind fun _ => (repeats_pure _).ite (repeats_pure _))

omit ht in
theorem repeats_number (lexeme : String) : Repeats t (number lexeme) := by
  refine repeats_here.bind fun _ => repeats_skip.bind fun _ => repeats_here.bind fun _ => ?_
  split
  · split
    · exact repeats_skip.bind fun _ => repeats_pure _
    · exact repeats_pure _
  · exact repeats_pure _

theorem repeats_nameOrCall (h : Repeats t value) : Repeats t (nameOrCall value) := by
  refine repeats_path.bind fun p => repeats_peek.bind fun _ => Repeats.ite ?_ ?_
  · exact (repeats_arguments ht h).bind fun _ => repeats_pure _
  · split <;> exact repeats_pure _

theorem repeats_primary (h : Repeats t inside) : Repeats t (primary inside) := by
  refine repeats_peek.bind fun u => ?_
  split
  · exact repeats_number _
  · exact repeats_skip.bind fun _ => repeats_pure _
  · exact repeats_skip.bind fun _ => repeats_pure _
  · exact repeats_skip.bind fun _ => h.bind fun _ => (repeats_symbol _).bind fun _ =>
      repeats_pure _
  · exact repeats_nameOrCall ht h
  · exact repeats_failAt fun _ _ _ => rfl
  · exact repeats_refuse _

theorem repeats_operand (hb : Repeats t behind) (hi : Repeats t inside) :
    Repeats t (operand behind inside) := by
  refine repeats_peek.bind fun u => ?_
  split
  · exact repeats_skip.bind fun _ => hb.bind fun _ => repeats_pure _
  · exact repeats_primary ht hi

omit ht in
theorem repeats_climb (floor : Nat) {first : Reader Expr} {right : Nat → Reader Expr}
    (hf : Repeats t first) (hr : ∀ n, Repeats t (right n)) :
    Repeats t (climb floor first right) := by
  refine hf.bind fun e => Repeats.bind (Repeats.many ?_) fun _ => repeats_pure _
  refine repeats_peek.bind fun u => ?_
  split
  · exact (repeats_pure _).ite (repeats_skip.bind fun _ => (hr _).bind fun _ => repeats_pure _)
  · exact repeats_pure _

end Values

mutual

theorem repeats_binaryAt : ∀ room floor : Nat, Repeats t (binaryAt room floor)
  | 0, _ => repeats_tooDeep
  | room + 1, floor =>
    repeats_climb floor (repeats_operand ht (repeats_unaryAt room) (repeats_binaryAt room 1))
      fun n => repeats_binaryAt room n

theorem repeats_unaryAt : ∀ room : Nat, Repeats t (unaryAt room)
  | 0 => repeats_tooDeep
  | room + 1 => repeats_operand ht (repeats_unaryAt room) (repeats_binaryAt room 1)

end

theorem repeats_expression (room : Nat) : Repeats t (expression room) :=
  repeats_binaryAt ht room 1

/-! ## Statements -/

omit ht in
/-- The end of a block is two tokens, and only they matter to whether it is read. -/
theorem endOf_alike (kind : BlockKind) (line : Nat) {z : Stream} (hhere : z.here = s.here)
    (hnext : z.next = s.next) (hbehind : z.advance.here = s.advance.here) :
    (endOf kind line s = .ok () s.advance.advance ∧
      endOf kind line z = .ok () z.advance.advance) ∨
    ∃ d s₁ z₁, endOf kind line s = .fail d s₁ ∧ endOf kind line z = .fail d z₁ := by
  have htoken : z.token = s.token := congrArg Located.token hhere
  unfold endOf
  rw [hnext, htoken]
  split
  · split
    · exact .inl ⟨rfl, rfl⟩
    · exact .inr ⟨_, _, _, rfl, by rw [hhere]⟩
  · exact .inr ⟨_, _, _, rfl, by rw [Stream.unterminated, Stream.unterminated, hhere]⟩
  · exact .inr ⟨_, _, _, rfl, by rw [Stream.unterminated, Stream.unterminated, hbehind]⟩
  · exact .inr ⟨_, _, _, rfl, by rw [hhere]⟩
  · exact .inr ⟨_, _, _, rfl, by unfold Stream.expecting; rw [hhere, htoken]⟩

/-- The last token is no word of the end of a block, so that end is read before it or not at all. -/
theorem repeats_endOf (kind : BlockKind) (line : Nat) : Repeats t (endOf kind line) := by
  intro s hs
  by_cases hnil : s.ahead = []
  case pos =>
    have hend : t.token ≠ .keyword .end_ := by
      rintro heq
      simp [Token.Stalls, heq, Token.IsOperand] at ht
    have heof : t.token ≠ .eof := by
      rintro heq
      simp [Token.Stalls, heq, Token.IsOperand] at ht
    have hrun (z : Stream) (h : z.token = t.token) :
        endOf kind line z = refuse [endText kind.closer.text] z := by
      unfold endOf
      split <;> simp_all
    have htoken : s.token = t.token := by rw [hs.eq_of_ahead hnil]; rfl
    exact (repeats_refuse _ s hs).congr 0 (hrun s htoken) fun k rest _ => hrun _ htoken
  case neg =>
    have halike (k : Nat) (rest : List Located) :=
      endOf_alike (s := s) kind line (z := s.more t k rest) rfl (Stream.next_more hnil)
        (by rw [Stream.advance_more hnil, Stream.here_more])
    cases hrun : endOf kind line s with
    | ok x s' =>
      have hskips : Repeats t (skip >>= fun _ => skip) := repeats_skip.bind fun _ => repeats_skip
      refine (hskips s hs).congr 0 ?_ fun k rest _ => ?_
      · obtain ⟨h, -⟩ | ⟨_, _, _, h, -⟩ := halike 0 []
        · exact h
        · cases hrun.symm.trans h
      · obtain ⟨-, h⟩ | ⟨_, _, _, h, -⟩ := halike k rest
        · exact h
        · cases hrun.symm.trans h
    | fail d s' =>
      unfold RepeatsAt
      rw [hrun]
      refine ⟨0, fun k rest _ => ?_⟩
      obtain ⟨h, -⟩ | ⟨d', s₁, z₁, h, hz⟩ := halike k rest
      · cases hrun.symm.trans h
      · obtain ⟨rfl, rfl⟩ := Outcome.fail.inj (hrun.symm.trans h)
        exact ⟨z₁, hz⟩
    | endless =>
      obtain ⟨h, -⟩ | ⟨_, _, _, h, -⟩ := halike 0 [] <;> cases hrun.symm.trans h

section Statements

variable {expr : Reader Expr} (he : Repeats t expr)

include he

theorem repeats_activityReference : Repeats t (activityReference expr) :=
  repeats_path.bind fun _ => repeats_peek.bind fun _ =>
    ((repeats_arguments ht he).bind fun _ => repeats_pure _).ite (repeats_pure _)

/-- What decides behind `confirm` is what comes of reading an activity. -/
theorem repeats_confirmOperand (line : Nat) : Repeats t (confirmOperand expr line) := by
  intro s hs
  have hactivity := repeats_activityReference ht he s hs
  have hcondition : RepeatsAt t (confirmCondition expr line) s :=
    (he.bind fun _ => repeats_pure _ : Repeats t (confirmCondition expr line)) s hs
  by_cases hname : ∃ n, s.token = .name n
  case neg =>
    have hnone := not_exists.1 hname
    exact hcondition.congr 0 (confirmOperand_of_not_name hnone) fun k rest _ =>
      confirmOperand_of_not_name hnone
  case pos =>
    obtain ⟨n, hn⟩ := hname
    have hmore (k : Nat) (rest : List Located) : (s.more t k rest).token = .name n := hn
    have hread : RepeatsAt t (do
        let pas ← activityReference expr
        return .activity .confirm pas.1 pas.2 line : Reader Statement) s :=
      hactivity.bind fun _ z _ hz => repeats_pure _ z (hz.endsWith hs)
    unfold RepeatsAt at hactivity
    rcases hrun : activityReference expr s with ⟨⟨p, as⟩, s'⟩ | ⟨d, s'⟩ | _
    case ok =>
      rw [hrun] at hactivity
      obtain ⟨-, c, hactivity⟩ := hactivity
      by_cases hop : (BinaryOp.ofToken? s'.token).isSome
      case pos =>
        refine hcondition.congr c ?_ fun k rest hk => ?_
        · rw [confirmOperand_of_ok hn hrun, if_pos hop]
        · obtain ⟨k', -, -, hk'⟩ := hactivity k rest hk
          rw [confirmOperand_of_ok (hmore k rest) hk']
          exact if_pos hop
      case neg =>
        refine hread.congr c ?_ fun k rest hk => ?_
        · rw [confirmOperand_of_ok hn hrun, if_neg hop, bind_run, hrun]
          rfl
        · obtain ⟨k', -, -, hk'⟩ := hactivity k rest hk
          rw [confirmOperand_of_ok (hmore k rest) hk', bind_run, hk']
          exact if_neg hop
    case fail =>
      rw [hrun] at hactivity
      obtain ⟨c, hactivity⟩ := hactivity
      refine hcondition.congr c (confirmOperand_of_fail hn hrun) fun k rest hk => ?_
      obtain ⟨z, hz⟩ := hactivity k rest hk
      exact confirmOperand_of_fail (hmore k rest) hz
    case endless =>
      rw [hrun] at hactivity
      unfold RepeatsAt
      rw [confirmOperand_of_endless hn hrun]
      exact fun k => confirmOperand_of_endless (hmore k []) (hactivity k)

theorem repeats_plainStatement (line : Nat) : Repeats t (plainStatement expr line) := by
  refine repeats_of_assign ht (fun n => do skip; skip; return .assign n (← expr) line)
    (fun z n hn ha => ?_)
    (fun _ => repeats_skip.bind fun _ => repeats_skip.bind fun _ => he.bind fun _ => repeats_pure _)
    fun u => ?_
  · rw [plainStatement_run, hn, ha]
    rfl
  · by_cases hk : ∃ y, u = .keyword y ∧ y ≠ .not
    · obtain ⟨y, rfl, hnot⟩ := hk
      refine ⟨refuse ["statement"], repeats_refuse _, fun z hz _ => ?_⟩
      rw [plainStatement_run, hz]
      split <;> simp_all
    · refine ⟨do return .expr (← expr) line, he.bind fun _ => repeats_pure _, fun z hz hne => ?_⟩
      rw [plainStatement_run]
      split
      · next n hn ha => exact absurd ha (hne ⟨n, hz.symm.trans hn⟩)
      · rfl
      · next y hnot hy => exact absurd ⟨y, hz.symm.trans hy, hnot⟩ hk
      · rfl

variable {block : BlockReader} (hb : ∀ kind line stop, Repeats t (block kind line stop).outcome)

include hb

omit ht in
theorem repeats_branch (line : Nat) : Repeats t (branch expr block line).outcome := by
  simp only [branch, Reporter.outcome_bind, Reporter.outcome_liftM, Reporter.outcome_ite,
    Reporter.outcome_pure]
  exact he.bind fun _ => (repeats_keyword _).bind fun _ => (hb _ _ _).bind fun _ =>
    (repeats_eat _).bind fun _ => (repeats_pure _).ite (repeats_pure _)

omit hb in
theorem repeats_initiate (line : Nat) : Repeats t (initiate expr line) := by
  have hr := repeats_activityReference ht he
  refine repeats_skip.bind fun _ => (repeats_eat _).bind fun _ => Repeats.ite ?_ ?_
  · exact (repeats_keyword _).bind fun _ => hr.bind fun _ => repeats_pure _
  · exact hr.bind fun _ => repeats_pure _

omit ht hb in
theorem repeats_wait (line : Nat) : Repeats t (wait expr line) :=
  repeats_skip.bind fun _ => (repeats_keyword _).bind fun _ => he.bind fun _ => repeats_pure _

theorem repeats_conditional (line : Nat) : Repeats t (conditional expr block line).outcome := by
  simp only [conditional, otherwise, Reporter.outcome_bind, Reporter.outcome_liftM,
    Reporter.outcome_many_bind, Reporter.outcome_ite, Reporter.outcome_pure]
  refine repeats_skip.bind fun _ => (Repeats.many (repeats_branch he hb line)).bind fun _ =>
    Repeats.bind ((repeats_eat _).bind fun _ => Repeats.ite ?_ (repeats_pure _)) fun _ =>
      (repeats_endOf ht _ _).bind fun _ => repeats_pure _
  exact (hb _ _ _).bind fun _ => repeats_pure _

theorem repeats_whileLoop (line : Nat) : Repeats t (whileLoop expr block line).outcome := by
  simp only [whileLoop, Reporter.outcome_bind, Reporter.outcome_liftM, Reporter.outcome_pure]
  exact repeats_skip.bind fun _ => he.bind fun _ => (repeats_keyword _).bind fun _ =>
    (hb _ _ _).bind fun _ => (repeats_endOf ht _ _).bind fun _ => repeats_pure _

theorem repeats_forLoop (line : Nat) : Repeats t (forLoop expr block line).outcome := by
  simp only [forLoop, Reporter.outcome_bind, Reporter.outcome_liftM, Reporter.outcome_pure]
  exact repeats_skip.bind fun _ => (repeats_name _).bind fun _ => (repeats_keyword _).bind
    fun _ => he.bind fun _ => (repeats_keyword _).bind fun _ => (hb _ _ _).bind fun _ =>
      (repeats_endOf ht _ _).bind fun _ => repeats_pure _

theorem repeats_bareStatement (line : Nat) : Repeats t (bareStatement expr block line).outcome := by
  simp only [bareStatement, Reporter.outcome_bind, Reporter.outcome_liftM]
  refine repeats_peek.bind fun u => ?_
  split
  · exact repeats_initiate ht he line
  · exact repeats_skip.bind fun _ => repeats_confirmOperand ht he line
  · exact repeats_wait he line
  · exact repeats_conditional ht he hb line
  · exact repeats_whileLoop ht he hb line
  · exact repeats_forLoop ht he hb line
  · exact repeats_plainStatement ht he line

theorem repeats_statement : Repeats t (statement expr block).outcome := by
  simp only [statement, Reporter.outcome_bind, Reporter.outcome_liftM, Reporter.outcome_pure]
  exact repeats_here.bind fun _ => (repeats_bareStatement ht he hb _).bind fun _ =>
    (repeats_eat _).bind fun _ => repeats_pure _

end Statements

/-! ## Blocks -/

omit ht in
theorem repeats_semicolons : Repeats t semicolons :=
  (Repeats.many ((repeats_eat _).bind fun _ => (repeats_pure _).ite (repeats_pure _))).bind fun _ =>
    repeats_pure _

theorem repeats_statements : ∀ (room : Nat) (kind : BlockKind) (line : Nat) (stopAtBranch : Bool),
    Repeats t (statements .strict room kind line stopAtBranch).outcome
  | 0, _, _, _ => repeats_tooDeep
  | room + 1, kind, line, stopAtBranch => by
    have hst := repeats_statement ht (repeats_expression ht room) (repeats_statements room)
    rw [statements, Reporter.outcome_many]
    simp only [round, Reporter.outcome_bind, Reporter.outcome_liftM, Reporter.outcome_ite,
      Reporter.outcome_pure, attempt_strict]
    exact Repeats.many (repeats_semicolons.bind fun _ => repeats_peek.bind fun _ =>
      (repeats_failAt fun _ _ _ => rfl).ite ((repeats_pure _).ite
        (hst.bind fun _ => repeats_pure _)))

end Ahead

/-! ## Declarations -/

theorem repeats_namedType : Repeats t namedType := by
  refine repeats_path.bind fun p => ?_
  split
  · split <;> exact repeats_pure _
  · exact repeats_pure _

theorem repeats_arraySize : Repeats t arraySize := by
  refine repeats_peek.bind fun u => ?_
  split
  · split
    · exact repeats_skip.bind fun _ => repeats_pure _
    · exact repeats_failAt fun _ _ _ => rfl
  · exact repeats_refuse _

theorem repeats_typeOf {inner : Reader TypeExpr} (h : Repeats t inner) :
    Repeats t (typeOf inner) := by
  have hfield : Repeats t (field inner) := (repeats_member _).bind fun _ =>
    (repeats_symbol _).bind fun _ => h.bind fun _ => repeats_pure _
  refine repeats_peek.bind fun u => ?_
  split
  · rw [structType_eq]
    exact (repeats_keyword _).bind fun _ => (repeats_symbol _).bind fun _ =>
      (Repeats.many (repeats_peek.bind fun _ => (repeats_pure _).ite (hfield.bind fun _ =>
        (repeats_eat _).bind fun _ => (repeats_pure _).ite (repeats_pure _)))).bind fun _ =>
          (repeats_symbol _).bind fun _ => repeats_pure _
  · exact (repeats_symbol _).bind fun _ => h.bind fun _ => (repeats_symbol _).bind fun _ =>
      repeats_arraySize.bind fun _ => (repeats_symbol _).bind fun _ => repeats_pure _
  · exact repeats_namedType
  · exact repeats_refuse _

theorem repeats_typeAt : ∀ room : Nat, Repeats t (typeAt room)
  | 0 => repeats_tooDeep
  | room + 1 => repeats_typeOf (repeats_typeAt room)

theorem repeats_declarationOf {type : Reader TypeExpr} {inner : Reader Declaration}
    (htype : Repeats t type) (hi : Repeats t inner) : Repeats t (declarationOf type inner) := by
  refine repeats_peek.bind fun u => ?_
  split
  · refine repeats_here.bind fun _ => repeats_skip.bind fun _ => repeats_path.bind fun _ =>
      (repeats_symbol _).bind fun _ => Repeats.bind (Repeats.many ?_) fun _ => repeats_pure _
    refine repeats_semicolons.bind fun _ => repeats_peek.bind fun u => ?_
    split
    · exact repeats_skip.bind fun _ => repeats_pure _
    · exact hi.bind fun _ => repeats_pure _
    · exact hi.bind fun _ => repeats_pure _
    · exact repeats_refuse _
  · refine repeats_here.bind fun _ => repeats_skip.bind fun _ => (repeats_name _).bind fun _ =>
      (repeats_typeOf htype).bind fun type => ?_
    cases type with
    | named p => exact repeats_failAt fun _ _ _ => rfl
    | _ => exact repeats_pure _
  · exact repeats_refuse _

theorem repeats_declarationAt : ∀ room : Nat, Repeats t (declarationAt room)
  | 0 => repeats_tooDeep
  | room + 1 => repeats_declarationOf (repeats_typeAt room) (repeats_declarationAt room)

theorem repeats_declaration (room : Nat) : Repeats t (declaration room) :=
  repeats_declarationOf (repeats_typeAt room) (repeats_declarationAt room)

/-! ## Procedures, items and files -/

section Items

variable (ht : t.token.Stalls) (room : Nat)

include ht

theorem repeats_sectionAt (kind : BlockKind) : Repeats t (sectionAt room kind) :=
  repeats_here.bind fun _ => repeats_skip.bind fun _ =>
    (repeats_statements ht room _ _ _).bind fun _ => (repeats_endOf ht _ _).bind fun _ =>
      repeats_pure _

theorem repeats_optionalSectionAt (kind : BlockKind) : Repeats t (optionalSectionAt room kind) :=
  repeats_peek.bind fun _ => ((repeats_sectionAt ht room kind).bind fun _ => repeats_pure _).ite
    (repeats_pure _)

theorem repeats_procedureAt : Repeats t (procedureAt room) := by
  have hmain (line : Nat) (b : Bool) : Repeats t (mainAhead line b) := by
    refine repeats_peek.bind fun u => ?_
    split
    · exact repeats_pure _
    · exact repeats_failAt fun _ _ _ => rfl
    · exact repeats_refuse _
  have hend (b : Bool) : Repeats t (endAhead b) := by
    refine repeats_peek.bind fun u => ?_
    split
    · exact repeats_pure _
    · exact repeats_pure _
    · exact repeats_refuse _
  exact repeats_here.bind fun _ => (repeats_keyword _).bind fun _ => (repeats_name _).bind fun _ =>
    (repeats_optionalSectionAt ht room _).bind fun _ => (hmain _ _).bind fun _ =>
      (repeats_sectionAt ht room _).bind fun _ => (repeats_optionalSectionAt ht room _).bind
        fun _ => (hend _).bind fun _ => (repeats_endOf ht _ _).bind fun _ => repeats_pure _

theorem repeats_fileRoundAt : Repeats t (fileRoundAt room) := by
  have hitem : Repeats t (itemAt room) := by
    refine repeats_peek.bind fun u => ?_
    split
    · exact (repeats_procedureAt ht room).bind fun _ => repeats_pure _
    · exact (repeats_declaration room).bind fun _ => repeats_pure _
    · exact (repeats_declaration room).bind fun _ => repeats_pure _
    · exact repeats_refuse _
  exact repeats_semicolons.bind fun _ => repeats_peek.bind fun _ => (repeats_pure _).ite
    (hitem.bind fun _ => repeats_pure _)

end Items

end Grammar

end OpsLang
