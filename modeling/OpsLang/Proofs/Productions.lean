import OpsLang.Proofs.Reading

/-!
# What each production does

One equation for each production of the grammar that looks at a token before it reads on :
the outcome at a stream, by the token that stands there. Reporters are given by their
outcomes (`Reporter.outcome`), so the equations hold in both modes.
-/

namespace OpsLang

/-- What a recovering reading of a file comes to whose round from `s` has the outcome `o` :
what the round found, before what `next` finds from another place if the reading goes on. -/
def Outcome.gather (o : Outcome (Turn Grammar.Findings)) (s : Stream)
    (next : Grammar.Findings → Stream → Option Grammar.Findings) : Option Grammar.Findings :=
  match o with
  | ok .stop _ => some ⟨[], []⟩
  | ok .pass s' => if s'.size < s.size then next ⟨[], []⟩ s' else none
  | ok (.item f) s' =>
    if s'.size < s.size then (next f s').map (.prepend f.items f.reports) else none
  | ok (.last f) _ => some f
  | fail _ _ => none
  | endless => none

namespace Grammar

open Reader

variable {s : Stream}

/-! ## Rounds -/

/-- Pass over a semicolon, if one is there. -/
def semicolonRound : Reader (Turn Unit) := do
  if ← eat (.symbol .semicolon) then return .pass else return .stop

/-- A member behind a dot, if a dot is there. -/
def memberRound : Reader (Turn String) := do
  if ← eat (.symbol .dot) then return .item (← member "identifier after '.'") else return .stop

/-- An argument, unless the parenthesis closes. -/
def argumentRound (value : Reader Expr) : Reader (Turn Argument) := do
  if (← peek) = .symbol .rightParen then return .stop
  let a ← argument value
  if ← eat (.symbol .comma) then return .item a else return .last a

/-- A field, unless the brace closes. -/
def fieldRound (inner : Reader TypeExpr) : Reader (Turn Field) := do
  if (← peek) = .symbol .rightBrace then return .stop
  let f ← field inner
  if ← eat (.symbol .comma) then return .item f else return .last f

/-- A declaration inside a namespace, or the brace that closes it. -/
def childHere (inner : Reader Declaration) : Reader (Turn Declaration) := do
  match ← peek with
  | .symbol .rightBrace =>
    skip
    return .stop
  | .keyword .namespace_ | .keyword .type => return .item (← inner)
  | _ => refuse ["'namespace'", "'type'", "'\x7d'"]

/-- A declaration inside a namespace, unless the brace closes. -/
def childRound (inner : Reader Declaration) : Reader (Turn Declaration) := do
  semicolons
  match ← peek with
  | .symbol .rightBrace =>
    skip
    return .stop
  | .keyword .namespace_ | .keyword .type => return .item (← inner)
  | _ => refuse ["'namespace'", "'type'", "'\x7d'"]

theorem semicolons_run : semicolons s = (many semicolonRound s).map fun _ => () := rfl

theorem semicolonRound_run :
    semicolonRound s =
      if s.token = .symbol .semicolon then .ok .pass s.advance else .ok .stop s := by
  rw [semicolonRound, bind_run, eat_run]
  split <;> rfl

theorem semicolons_of_ne (h : s.token ≠ .symbol .semicolon) : semicolons s = .ok () s := by
  have hround : semicolonRound s = .ok .stop s := by
    rw [semicolonRound_run, if_neg h]
  rw [semicolons_run, many_stop hround, Outcome.map_ok]

theorem semicolons_of_eq (h : s.token = .symbol .semicolon) (hlt : s.advance.size < s.size) :
    semicolons s = semicolons s.advance := by
  have hround : semicolonRound s = .ok .pass s.advance := by
    rw [semicolonRound_run, if_pos h]
  rw [semicolons_run, many_pass hround hlt, semicolons_run]

theorem path_eq :
    path = do
      let first ← name "identifier"
      let rest ← many memberRound
      return ⟨first :: rest⟩ := rfl

theorem arguments_eq (value : Reader Expr) :
    arguments value = do
      symbol .leftParen
      let as ← many (argumentRound value)
      symbol .rightParen
      return as := rfl

theorem path_run :
    path s = (name "identifier" s).andThen fun n s =>
      (many memberRound s).map fun ns => ⟨n :: ns⟩ := rfl

theorem arguments_run (value : Reader Expr) :
    arguments value s = (symbol .leftParen s).andThen fun _ s =>
      (many (argumentRound value) s).andThen fun as s =>
        (symbol .rightParen s).map fun _ => as := rfl

theorem structType_eq (inner : Reader TypeExpr) :
    structType inner = do
      keyword .struct
      symbol .leftBrace
      let fields ← many (fieldRound inner)
      symbol .rightBrace
      return .struct fields := rfl

theorem namespaceDeclaration_run (inner : Reader Declaration) :
    namespaceDeclaration inner s =
      (do
        let p ← path
        symbol .leftBrace
        let children ← many (childRound inner)
        return .space p children s.line : Reader Declaration) s.advance := rfl

theorem typeDeclaration_run (inner : Reader TypeExpr) :
    typeDeclaration inner s =
      (do
        let n ← name "type name"
        match ← typeOf inner with
        | .struct fields => return .type n (.struct fields) s.line
        | .primitive p => return .type n (.primitive p) s.line
        | .array element size => return .type n (.array element size) s.line
        | .named p => failAt fun s => s.bareAlias n p : Reader Declaration) s.advance := rfl

/-! ## Expressions -/

theorem argument_run (value : Reader Expr) :
    argument value s =
      match s.token, s.next with
      | .name n, .symbol .assign => (value s.advance.advance).map (.named n)
      | _, _ => (value s).map .positional := by
  simp only [argument, bind_run, peek_run, peekNext_run, Outcome.andThen_ok]
  split
  · simp [*]
    rfl
  · simp [*]
    rfl

theorem argumentRound_run (value : Reader Expr) :
    argumentRound value s =
      if s.token = .symbol .rightParen then .ok .stop s
      else (argument value s).andThen fun a s' =>
        if s'.token = .symbol .comma then .ok (.item a) s'.advance else .ok (.last a) s' := by
  rw [argumentRound, bind_run, peek_run, Outcome.andThen_ok, ite_run]
  split
  · rfl
  · rw [bind_run]
    congr
    funext a s'
    rw [bind_run, eat_run]
    split <;> rfl

theorem number_run (lexeme : String) :
    number lexeme s =
      match s.advance.token with
      | .unit u =>
        match if s.advance.line = s.line then Quantity.ofUnit? u else none with
        | some q => .ok (.measure (.ofLexeme lexeme) ⟨u, q⟩) s.advance.advance
        | none => .ok (.number (.ofLexeme lexeme)) s.advance
      | _ => .ok (.number (.ofLexeme lexeme)) s.advance := by
  simp only [number, bind_run, here_run, skip_run, Outcome.andThen_ok]
  unfold Stream.token Stream.line
  cases hu : s.advance.here.token with
  | unit u =>
    simp only []
    cases if s.advance.here.line = s.here.line then Quantity.ofUnit? u else none <;> simp
  | _ => simp

theorem nameOrCall_run (value : Reader Expr) :
    nameOrCall value s =
      (path s).andThen fun p s' =>
        if s'.token = .symbol .leftParen then (arguments value s').map (.call p)
        else
          match p.segments with
          | [n] => .ok (.name n) s'
          | _ => .ok (.property p) s' := by
  simp only [nameOrCall, bind_run, peek_run, Outcome.andThen_ok, ite_run]
  congr
  funext p s'
  split
  · rfl
  · split <;> simp [*]

theorem primary_run (inside : Reader Expr) :
    primary inside s =
      match s.token with
      | .number lexeme => number lexeme s
      | .string content => .ok (.string content) s.advance
      | .truth value => .ok (.truth value) s.advance
      | .symbol .leftParen =>
        (inside s.advance).andThen fun e s' => (symbol .rightParen s').map fun _ => .parens e
      | .name _ => nameOrCall inside s
      | .unit u => .fail (s.strayUnit u) s
      | _ => .fail (s.expecting ["expression"]) s := by
  simp only [primary, bind_run, peek_run, Outcome.andThen_ok]
  split <;> simp [*]
  rfl

theorem operand_run (behind inside : Reader Expr) :
    operand behind inside s =
      match UnaryOp.ofToken? s.token with
      | some op => (behind s.advance).map (.unary op)
      | none => primary inside s := by
  simp only [operand, bind_run, peek_run, Outcome.andThen_ok]
  split <;> simp [*]
  rfl

theorem operand_of_name {behind inside : Reader Expr} {n : String} (h : s.token = .name n) :
    operand behind inside s = nameOrCall inside s := by
  simp [operand_run, primary_run, h, UnaryOp.ofToken?]

theorem operation_run (floor : Nat) (right : Nat → Reader Expr) :
    operation floor right s =
      match BinaryOp.ofToken? s.token with
      | some op =>
        if op.precedence < floor then .ok .stop s
        else (right op.rightFloor s.advance).map fun e => .item (op, e)
      | none => .ok .stop s := by
  simp only [operation, bind_run, peek_run, Outcome.andThen_ok]
  split
  · simp only [*, ite_run]
    rfl
  · simp [*]

/-! ## Statements -/

theorem activityReference_run (expr : Reader Expr) :
    activityReference expr s =
      (path s).andThen fun p s' =>
        if s'.token = .symbol .leftParen then (arguments expr s').map fun as => (p, as)
        else .ok (p, []) s' := by
  simp only [activityReference, bind_run, peek_run, Outcome.andThen_ok, ite_run]
  rfl

section Operand

variable {expr : Reader Expr} {line : Nat} {s' : Stream} {n : String} (hn : s.token = .name n)

theorem confirmOperand_of_not_name (h : ∀ n, s.token ≠ .name n) :
    confirmOperand expr line s = confirmCondition expr line s := by
  unfold confirmOperand
  split
  · next n hn => exact absurd hn (h n)
  · rfl

include hn

theorem confirmOperand_of_ok {p : Path} {as : List Argument}
    (h : activityReference expr s = .ok (p, as) s') :
    confirmOperand expr line s =
      if (BinaryOp.ofToken? s'.token).isSome then confirmCondition expr line s
      else .ok (.activity .confirm p as line) s' := by
  simp only [confirmOperand, hn, h]

theorem confirmOperand_of_fail {d : Diagnostic} (h : activityReference expr s = .fail d s') :
    confirmOperand expr line s = confirmCondition expr line s := by
  simp only [confirmOperand, hn, h]

theorem confirmOperand_of_endless (h : activityReference expr s = .endless) :
    confirmOperand expr line s = .endless := by
  simp only [confirmOperand, hn, h]

end Operand

theorem plainStatement_run (expr : Reader Expr) (line : Nat) :
    plainStatement expr line s =
      match s.token, s.next with
      | .name n, .symbol .assign => (expr s.advance.advance).map fun e => .assign n e line
      | .keyword .not, _ => (expr s).map fun e => .expr e line
      | .keyword _, _ => .fail (s.expecting ["statement"]) s
      | _, _ => (expr s).map fun e => .expr e line := by
  simp only [plainStatement, bind_run, peek_run, peekNext_run, Outcome.andThen_ok]
  split <;> simp [*] <;> rfl

/-- The end of a block is read by its two words. -/
theorem endOf_eq_ok {kind : BlockKind} {line : Nat} {x : Unit} {s' : Stream} :
    endOf kind line s = .ok x s' ↔
      s.token = .keyword .end_ ∧ s.next = .keyword kind.closer ∧ s.advance.advance = s' := by
  constructor
  · intro h
    unfold endOf at h
    split at h
    · next k hend hnext =>
      split at h
      · next hk =>
        cases h
        exact ⟨hend, hk ▸ hnext, rfl⟩
      · cases h
    all_goals cases h
  · rintro ⟨hend, hnext, rfl⟩
    simp [endOf, hend, hnext]

theorem endOf_behind {kind : BlockKind} {line : Nat} {c c' : Located} {ts : List Located}
    (hc : c.token = .keyword .end_) (hc' : c'.token = .keyword kind.closer) :
    endOf kind line (s.behind (c :: c' :: ts)) = .ok () (s.behind ts) := by
  rw [endOf_eq_ok, Stream.next_behind_cons, Stream.advance_behind_cons, Stream.advance_behind_cons]
  exact ⟨hc, hc', rfl⟩

section Blocks

variable {expr : Reader Expr} {block : BlockReader} {line : Nat} {st : Statement}

theorem whileLoop_eq_ok :
    (whileLoop expr block line).outcome s = .ok st s' ↔
      ∃ c s₁ body s₂, expr s.advance = .ok c s₁ ∧ s₁.token = .keyword .do_ ∧
        (block .whileLoop line false).outcome s₁.advance = .ok body s₂ ∧
          endOf .whileLoop line s₂ = .ok () s' ∧ st = .whileLoop c body line := by
  simp only [whileLoop, Reporter.outcome_bind, Reporter.outcome_liftM, Reporter.outcome_pure,
    bind_run, skip_run, Outcome.andThen_ok, Outcome.andThen_eq_ok, keyword_eq_ok]
  constructor
  · rintro ⟨c, s₁, hc, _, _, ⟨hdo, rfl⟩, body, s₂, hbody, _, s₃, hend, h⟩
    obtain ⟨rfl, rfl⟩ := Outcome.ok.inj h
    exact ⟨c, s₁, body, s₂, hc, hdo, hbody, hend, rfl⟩
  · rintro ⟨c, s₁, body, s₂, hc, hdo, hbody, hend, rfl⟩
    exact ⟨c, s₁, hc, (), _, ⟨hdo, rfl⟩, body, s₂, hbody, (), s', hend, rfl⟩

theorem forLoop_eq_ok :
    (forLoop expr block line).outcome s = .ok st s' ↔
      ∃ n e s₁ body s₂, s.advance.token = .name n ∧ s.advance.advance.token = .keyword .in_ ∧
        expr s.advance.advance.advance = .ok e s₁ ∧ s₁.token = .keyword .do_ ∧
          (block .forLoop line false).outcome s₁.advance = .ok body s₂ ∧
            endOf .forLoop line s₂ = .ok () s' ∧ st = .forLoop n e body line := by
  simp only [forLoop, Reporter.outcome_bind, Reporter.outcome_liftM, Reporter.outcome_pure,
    bind_run, skip_run, Outcome.andThen_ok, Outcome.andThen_eq_ok, keyword_eq_ok, name_eq_ok]
  constructor
  · rintro ⟨n, _, ⟨hn, rfl⟩, _, _, ⟨hin, rfl⟩, e, s₁, he, _, _, ⟨hdo, rfl⟩, body, s₂, hbody, _,
      s₃, hend, h⟩
    obtain ⟨rfl, rfl⟩ := Outcome.ok.inj h
    exact ⟨n, e, s₁, body, s₂, hn, hin, he, hdo, hbody, hend, rfl⟩
  · rintro ⟨n, e, s₁, body, s₂, hn, hin, he, hdo, hbody, hend, rfl⟩
    exact ⟨n, _, ⟨hn, rfl⟩, (), _, ⟨hin, rfl⟩, e, s₁, he, (), _, ⟨hdo, rfl⟩, body, s₂, hbody, (),
      s', hend, rfl⟩

theorem branch_eq_ok {t : Turn Branch} :
    (branch expr block line).outcome s = .ok t s' ↔
      ∃ c s₁ body s₂, expr s = .ok c s₁ ∧ s₁.token = .keyword .then_ ∧
        (block .conditional line true).outcome s₁.advance = .ok body s₂ ∧
          (s₂.token = .keyword .elsif ∧ t = .item (.mk c body) ∧ s' = s₂.advance ∨
            s₂.token ≠ .keyword .elsif ∧ t = .last (.mk c body) ∧ s' = s₂) := by
  simp only [branch, Reporter.outcome_bind, Reporter.outcome_liftM, Reporter.outcome_ite,
    Reporter.outcome_pure, bind_run, eat_run, Outcome.andThen_eq_ok, keyword_eq_ok]
  constructor
  · rintro ⟨c, s₁, hc, _, _, ⟨hthen, rfl⟩, body, s₂, hbody, b, s₃, heat, h⟩
    refine ⟨c, s₁, body, s₂, hc, hthen, hbody, ?_⟩
    split at heat
    · next helsif =>
      obtain ⟨rfl, rfl⟩ := Outcome.ok.inj heat
      obtain ⟨rfl, rfl⟩ := Outcome.ok.inj h
      exact .inl ⟨helsif, rfl, rfl⟩
    · next helsif =>
      obtain ⟨rfl, rfl⟩ := Outcome.ok.inj heat
      obtain ⟨rfl, rfl⟩ := Outcome.ok.inj h
      exact .inr ⟨helsif, rfl, rfl⟩
  · rintro ⟨c, s₁, body, s₂, hc, hthen, hbody, ⟨helsif, rfl, rfl⟩ | ⟨helsif, rfl, rfl⟩⟩
    · exact ⟨c, s₁, hc, (), _, ⟨hthen, rfl⟩, body, s₂, hbody, true, _, if_pos helsif, rfl⟩
    · exact ⟨c, s₁, hc, (), _, ⟨hthen, rfl⟩, body, _, hbody, false, _, if_neg helsif, rfl⟩

theorem conditional_run :
    (conditional expr block line).outcome s =
      (many (branch expr block line).outcome s.advance).andThen fun branches s₁ =>
        ((otherwise block line).outcome s₁).andThen fun rest s₂ =>
          (endOf .conditional line s₂).map fun _ => .conditional branches rest line := by
  simp only [conditional, Reporter.outcome_bind, Reporter.outcome_liftM, Reporter.outcome_pure,
    Reporter.outcome_many_bind]
  rfl

theorem conditional_eq_ok :
    (conditional expr block line).outcome s = .ok st s' ↔
      ∃ branches s₁ rest s₂, many (branch expr block line).outcome s.advance = .ok branches s₁ ∧
        (otherwise block line).outcome s₁ = .ok rest s₂ ∧
          endOf .conditional line s₂ = .ok () s' ∧ st = .conditional branches rest line := by
  simp only [conditional_run, Outcome.andThen_eq_ok, Outcome.map_eq_ok]
  constructor
  · rintro ⟨branches, s₁, hbranches, rest, s₂, hrest, _, hend, rfl⟩
    exact ⟨branches, s₁, rest, s₂, hbranches, hrest, hend, rfl⟩
  · rintro ⟨branches, s₁, rest, s₂, hbranches, hrest, hend, rfl⟩
    exact ⟨branches, s₁, hbranches, rest, s₂, hrest, (), hend, rfl⟩

theorem otherwise_run :
    (otherwise block line).outcome s =
      if s.token = .keyword .else_ then
        ((block .conditional line false).outcome s.advance).map some
      else .ok none s := by
  simp only [otherwise, Reporter.outcome_bind, Reporter.outcome_liftM, Reporter.outcome_ite,
    Reporter.outcome_pure, bind_run, eat_run]
  split <;> rfl

end Blocks

theorem bareStatement_run (expr : Reader Expr) (block : BlockReader) (line : Nat) :
    (bareStatement expr block line).outcome s =
      match s.token with
      | .keyword .initiate => initiate expr line s
      | .keyword .confirm => confirm expr line s
      | .keyword .wait => wait expr line s
      | .keyword .if_ => (conditional expr block line).outcome s
      | .keyword .while_ => (whileLoop expr block line).outcome s
      | .keyword .for_ => (forLoop expr block line).outcome s
      | _ => plainStatement expr line s := by
  simp only [bareStatement, Reporter.outcome_bind, Reporter.outcome_liftM, bind_run, peek_run,
    Outcome.andThen_ok]
  split <;> simp [*]

theorem attempt_run (mode : Mode) (stopAtBranch : Bool) (st : Reporter Statement) :
    (attempt mode stopAtBranch st).outcome s =
      match st.outcome s with
      | .ok a s' => .ok (.item a) s'
      | .fail d s' =>
        if mode = .recovering ∧ !d.isFatal then
          (resume s d.span.line stopAtBranch s').map fun _ => .pass
        else .fail d s'
      | .endless => .endless := by
  simp only [attempt, Reporter.outcome]
  rcases st s with ⟨ds, _ | ⟨d, s'⟩ | _⟩
  · rfl
  · simp only
    split <;> rfl
  · rfl

/-- Read strictly, a fault of a statement is that of the block. -/
theorem attempt_strict (stopAtBranch : Bool) (st : Reporter Statement) :
    (attempt .strict stopAtBranch st).outcome = do return .item (← st.outcome) := by
  funext s
  rw [attempt_run, bind_run]
  cases st.outcome s <;> rfl

theorem statement_run (expr : Reader Expr) (block : BlockReader) :
    (statement expr block).outcome s =
      ((bareStatement expr block s.line).outcome s).andThen fun st s' =>
        if s'.token = .symbol .semicolon then .ok st s'.advance else .ok st s' := by
  simp only [statement, Reporter.outcome_bind, Reporter.outcome_liftM, Reporter.outcome_pure,
    bind_run, here_run, Outcome.andThen_ok]
  congr
  funext st s'
  rw [eat_run]
  split <;> rfl

theorem round_run (mode : Mode) (kind : BlockKind) (line : Nat) (stopAtBranch : Bool)
    (st : Reporter Statement) :
    (round mode kind line stopAtBranch st).outcome s =
      (semicolons s).andThen fun _ s' =>
        if s'.token = .eof then .fail (s'.unterminated kind line) s'
        else if endsRun stopAtBranch s'.token then .ok .stop s'
        else (attempt mode stopAtBranch st).outcome s' := by
  simp only [round, Reporter.outcome_bind, Reporter.outcome_liftM, Reporter.outcome_ite,
    Reporter.outcome_pure, bind_run, peek_run, Outcome.andThen_ok, ite_run]
  rfl

/-- A round of a block ends it, or reads one statement, or passes over a fault in one. -/
theorem round_ok_cases {mode : Mode} {kind : BlockKind} {line : Nat} {stopAtBranch : Bool}
    {st : Reporter Statement} {t : Turn Statement} {s' : Stream}
    (h : (round mode kind line stopAtBranch st).outcome s = .ok t s') :
    ∃ s₁, semicolons s = .ok () s₁ ∧
      (t = .stop ∧ s' = s₁ ∧ endsRun stopAtBranch s₁.token = true ∨
        s₁.token ≠ .eof ∧ endsRun stopAtBranch s₁.token = false ∧
          ((∃ a, t = .item a ∧ st.outcome s₁ = .ok a s') ∨
            mode = .recovering ∧ t = .pass ∧ ∃ d s₂, st.outcome s₁ = .fail d s₂ ∧
              resume s₁ d.span.line stopAtBranch s₂ = .ok () s')) := by
  rw [round_run, Outcome.andThen_eq_ok] at h
  obtain ⟨⟨⟩, s₁, hsemi, h⟩ := h
  refine ⟨s₁, hsemi, ?_⟩
  split at h
  · cases h
  next he =>
  split at h
  · next hend =>
    obtain ⟨rfl, rfl⟩ := Outcome.ok.inj h
    exact .inl ⟨rfl, rfl, hend⟩
  next hend =>
  refine .inr ⟨he, by simpa using hend, ?_⟩
  rw [attempt_run] at h
  split at h
  · next a s₂ hst =>
    obtain ⟨rfl, rfl⟩ := Outcome.ok.inj h
    exact .inl ⟨a, rfl, hst⟩
  · next d s₂ hst =>
    split at h
    · next hmode =>
      obtain ⟨⟨⟩, hres, rfl⟩ := Outcome.map_eq_ok.1 h
      exact .inr ⟨hmode.1, rfl, d, s₂, hst, hres⟩
    · cases h
  · cases h

/-- A round of a block that is read strictly ends it, or reads one statement. -/
theorem round_cases {kind : BlockKind} {line : Nat} {stopAtBranch : Bool}
    {st : Reporter Statement} {t : Turn Statement} {s' : Stream}
    (h : (round .strict kind line stopAtBranch st).outcome s = .ok t s') :
    (t = .stop ∧ semicolons s = .ok () s' ∧ endsRun stopAtBranch s'.token = true) ∨
      ∃ a s₁, t = .item a ∧ semicolons s = .ok () s₁ ∧ st.outcome s₁ = .ok a s' := by
  obtain ⟨s₁, hsemi, ⟨rfl, rfl, hend⟩ | ⟨-, -, ⟨a, rfl, hst⟩ | ⟨hmode, -⟩⟩⟩ := round_ok_cases h
  · exact .inl ⟨rfl, hsemi, hend⟩
  · exact .inr ⟨a, s₁, rfl, hsemi, hst⟩
  · cases hmode

/-! ## Declarations -/

theorem namedType_run :
    namedType s =
      (path s).andThen fun p s' =>
        match p.segments with
        | [n] =>
          match Primitive.ofText? n with
          | some t => .ok (.primitive t) s'
          | none => .ok (.named p) s'
        | _ => .ok (.named p) s' := by
  rw [namedType, bind_run]
  congr
  funext p s'
  split
  · simp only [*]
    split <;> simp [*]
  · simp [*]

theorem arraySize_run :
    arraySize s =
      match s.token with
      | .number lexeme =>
        match (Numeral.ofLexeme lexeme).toUInt64? with
        | some n => .ok n s.advance
        | none => .fail (s.badSize lexeme) s
      | _ => .fail (s.expecting ["integer literal"]) s := by
  simp only [arraySize, bind_run, peek_run, Outcome.andThen_ok]
  split
  · split <;> simp [*]
  · simp [*]

theorem typeOf_run (inner : Reader TypeExpr) :
    typeOf inner s =
      match s.token with
      | .keyword .struct => structType inner s
      | .symbol .leftBracket => arrayType inner s
      | .name _ => namedType s
      | _ => .fail (s.expecting ["type"]) s := by
  simp only [typeOf, bind_run, peek_run, Outcome.andThen_ok]
  split <;> simp [*]

theorem childRound_eq (inner : Reader Declaration) :
    childRound inner = semicolons >>= fun _ => childHere inner := rfl

theorem childHere_run (inner : Reader Declaration) (s : Stream) :
    childHere inner s =
      match s.token with
      | .symbol .rightBrace => .ok .stop s.advance
      | .keyword .namespace_ | .keyword .type => (inner s).map .item
      | _ => .fail (s.expecting ["'namespace'", "'type'", "'\x7d'"]) s := by
  rw [childHere, bind_run, peek_run, Outcome.andThen_ok]
  generalize s.token = t
  cases t with
  | keyword k => cases k <;> rfl
  | symbol y => cases y <;> rfl
  | _ => rfl

theorem childRound_run (inner : Reader Declaration) :
    childRound inner s =
      (semicolons s).andThen fun _ s' =>
        match s'.token with
        | .symbol .rightBrace => .ok .stop s'.advance
        | .keyword .namespace_ | .keyword .type => (inner s').map .item
        | _ => .fail (s'.expecting ["'namespace'", "'type'", "'\x7d'"]) s' := by
  rw [childRound_eq, bind_run]
  congr
  funext _ s'
  exact childHere_run inner s'

theorem namespaceDeclaration_eq_ok {inner : Reader Declaration} {d : Declaration} :
    namespaceDeclaration inner s = .ok d s' ↔
      ∃ p s₁ ds, path s.advance = .ok p s₁ ∧ s₁.token = .symbol .leftBrace ∧
        many (childRound inner) s₁.advance = .ok ds s' ∧ d = .space p ds s.line := by
  rw [namespaceDeclaration_run]
  simp only [bind_run, Outcome.andThen_eq_ok, symbol_eq_ok]
  constructor
  · rintro ⟨p, s₁, hp, _, _, ⟨hbrace, rfl⟩, h⟩
    obtain ⟨ds, hds, rfl⟩ := Outcome.map_eq_ok.1 h
    exact ⟨p, s₁, ds, hp, hbrace, hds, rfl⟩
  · rintro ⟨p, s₁, ds, hp, hbrace, hds, rfl⟩
    exact ⟨p, s₁, hp, (), _, ⟨hbrace, rfl⟩, Outcome.map_eq_ok.2 ⟨ds, hds, rfl⟩⟩

theorem declarationOf_run (type : Reader TypeExpr) (inner : Reader Declaration) :
    declarationOf type inner s =
      match s.token with
      | .keyword .namespace_ => namespaceDeclaration inner s
      | .keyword .type => typeDeclaration type s
      | _ => .fail (s.expecting ["'namespace'", "'type'"]) s := by
  simp only [declarationOf, bind_run, peek_run, Outcome.andThen_ok]
  split <;> simp [*]

/-! ## Procedures and items -/

theorem mainAhead_run (line : Nat) (hasPreconditions : Bool) :
    mainAhead line hasPreconditions s =
      match s.token with
      | .keyword .main => .ok () s
      | .eof => .fail (s.unterminated .procedure line) s
      | _ => .fail (s.expecting
          (if hasPreconditions then ["'main'"] else ["'preconditions'", "'main'"])) s := by
  rw [mainAhead, bind_run, peek_run, Outcome.andThen_ok]
  generalize s.token = t
  cases t with
  | keyword k => cases k <;> rfl
  | _ => rfl

theorem endAhead_run (hasConfirmation : Bool) :
    endAhead hasConfirmation s =
      match s.token with
      | .keyword .end_ | .eof => .ok () s
      | _ => .fail (s.expecting
          (if hasConfirmation then ["'end procedure'"]
            else ["'confirmation'", "'end procedure'"])) s := by
  rw [endAhead, bind_run, peek_run, Outcome.andThen_ok]
  generalize s.token = t
  cases t with
  | keyword k => cases k <;> rfl
  | _ => rfl

theorem mainAhead_eq_ok {line : Nat} {b : Bool} {x : Unit} {s' : Stream}
    (h : mainAhead line b s = .ok x s') : s' = s ∧ s.token = .keyword .main := by
  rw [mainAhead_run] at h
  split at h
  · next ht =>
    cases h
    exact ⟨rfl, ht⟩
  · cases h
  · cases h

theorem endAhead_eq_ok {b : Bool} {x : Unit} {s' : Stream} (h : endAhead b s = .ok x s') :
    s' = s := by
  rw [endAhead_run] at h
  split at h
  · cases h
    rfl
  · cases h
    rfl
  · cases h

theorem item_run (mode : Mode) :
    (item mode).outcome s =
      match s.token with
      | .keyword .procedure => ((procedure mode).outcome s).map .procedure
      | .keyword .namespace_ | .keyword .type => (declaration maxNesting s).map .declaration
      | _ => .fail (s.expecting ["'procedure'", "'namespace'", "'type'"]) s := by
  simp only [item, Reporter.outcome_bind, Reporter.outcome_liftM, bind_run, peek_run,
    Outcome.andThen_ok]
  split <;> simp [*] <;> rfl

theorem fileRound_run :
    fileRound.outcome s =
      (semicolons s).andThen fun _ s' =>
        if s'.token = .eof then .ok .stop s' else ((item .strict).outcome s').map .item := by
  simp only [fileRound, Reporter.outcome_bind, Reporter.outcome_liftM, Reporter.outcome_ite,
    Reporter.outcome_pure, bind_run, peek_run, Outcome.andThen_ok, ite_run]
  rfl

/-! ### With a number of levels -/

/-- A section, read strictly where blocks have `room` levels. -/
def sectionAt (room : Nat) (kind : BlockKind) : Reader Block := do
  let line := (← here).line
  skip
  let block ← (statements .strict room kind line false).outcome
  endOf kind line
  return block

/-- A section that may be missing, read strictly where blocks have `room` levels. -/
def optionalSectionAt (room : Nat) (kind : BlockKind) : Reader (Option Block) := do
  if (← peek) = .keyword kind.closer then return some (← sectionAt room kind) else return none

/-- A procedure, read strictly where blocks have `room` levels. -/
def procedureAt (room : Nat) : Reader Procedure := do
  let line := (← here).line
  keyword .procedure
  let n ← name "procedure name"
  let preconditions ← optionalSectionAt room .preconditions
  mainAhead line preconditions.isSome
  let main ← sectionAt room .main
  let confirmation ← optionalSectionAt room .confirmation
  endAhead confirmation.isSome
  endOf .procedure line
  return ⟨n, preconditions, main, confirmation, line⟩

/-- An item, read strictly where blocks and declarations have `room` levels. -/
def itemAt (room : Nat) : Reader Item := do
  match ← peek with
  | .keyword .procedure => return .procedure (← procedureAt room)
  | .keyword .namespace_ | .keyword .type => return .declaration (← declaration room)
  | _ => refuse ["'procedure'", "'namespace'", "'type'"]

/-- One round of a file where blocks and declarations have `room` levels. -/
def fileRoundAt (room : Nat) : Reader (Turn Item) := do
  semicolons
  if (← peek) = .eof then return .stop else return .item (← itemAt room)

theorem sectionAt_eq_ok {room : Nat} {kind : BlockKind} {body : Block} {s' : Stream} :
    sectionAt room kind s = .ok body s' ↔
      ∃ s₁, (statements .strict room kind s.line false).outcome s.advance = .ok body s₁ ∧
        endOf kind s.line s₁ = .ok () s' := by
  simp only [sectionAt, bind_run, here_run, skip_run, Outcome.andThen_ok, Outcome.andThen_eq_ok]
  constructor
  · rintro ⟨b, s₁, hb, _, s₂, hend, h⟩
    obtain ⟨rfl, rfl⟩ := Outcome.ok.inj h
    exact ⟨s₁, hb, hend⟩
  · rintro ⟨s₁, hb, hend⟩
    exact ⟨body, s₁, hb, (), s', hend, rfl⟩

theorem optionalSectionAt_run (room : Nat) (kind : BlockKind) :
    optionalSectionAt room kind s =
      if s.token = .keyword kind.closer then (sectionAt room kind s).map some
      else .ok none s := by
  rw [optionalSectionAt, bind_run, peek_run, Outcome.andThen_ok, ite_run]
  rfl

theorem procedureAt_eq_ok {room : Nat} {p : Procedure} {s' : Stream} :
    procedureAt room s = .ok p s' ↔
      ∃ n pre s₁ main s₂ conf s₃, s.token = .keyword .procedure ∧ s.advance.token = .name n ∧
        optionalSectionAt room .preconditions s.advance.advance = .ok pre s₁ ∧
          s₁.token = .keyword .main ∧ sectionAt room .main s₁ = .ok main s₂ ∧
            optionalSectionAt room .confirmation s₂ = .ok conf s₃ ∧
              endOf .procedure s.line s₃ = .ok () s' ∧ p = ⟨n, pre, main, conf, s.line⟩ := by
  simp only [procedureAt, bind_run, here_run, Outcome.andThen_ok, Outcome.andThen_eq_ok,
    keyword_eq_ok, name_eq_ok]
  constructor
  · rintro ⟨_, _, ⟨hword, rfl⟩, n, _, ⟨hn, rfl⟩, pre, s₁, hpre, _, _, hahead, main, s₂, hmain, conf,
      s₃, hconf, _, _, hend, _, _, hendOf, h⟩
    obtain ⟨rfl, rfl⟩ := Outcome.ok.inj h
    obtain ⟨rfl, hm⟩ := mainAhead_eq_ok hahead
    obtain rfl := endAhead_eq_ok hend
    exact ⟨n, pre, _, main, s₂, conf, _, hword, hn, hpre, hm, hmain, hconf, hendOf, rfl⟩
  · rintro ⟨n, pre, s₁, main, s₂, conf, s₃, hword, hn, hpre, hm, hmain, hconf, hend, rfl⟩
    refine ⟨(), _, ⟨hword, rfl⟩, n, _, ⟨hn, rfl⟩, pre, s₁, hpre, (), s₁, ?_, main, s₂, hmain, conf,
      s₃, hconf, (), s₃, ?_, (), s', hend, rfl⟩
    · rw [mainAhead_run, hm]
    · rw [endAhead_run, (endOf_eq_ok.1 hend).1]

theorem section_outcome (kind : BlockKind) :
    (section_ .strict kind).outcome = sectionAt maxNesting kind := by
  simp only [section_, Reporter.outcome_bind, Reporter.outcome_liftM, Reporter.outcome_pure]
  rfl

theorem optionalSection_outcome (kind : BlockKind) :
    (optionalSection .strict kind).outcome = optionalSectionAt maxNesting kind := by
  simp only [optionalSection, Reporter.outcome_bind, Reporter.outcome_liftM,
    Reporter.outcome_ite, Reporter.outcome_pure, section_outcome]
  rfl

theorem procedure_outcome : (procedure .strict).outcome = procedureAt maxNesting := by
  simp only [procedure, Reporter.outcome_bind, Reporter.outcome_liftM, Reporter.outcome_pure,
    section_outcome, optionalSection_outcome]
  rfl

theorem itemAt_run (room : Nat) :
    itemAt room s =
      match s.token with
      | .keyword .procedure => (procedureAt room s).map .procedure
      | .keyword .namespace_ | .keyword .type => (declaration room s).map .declaration
      | _ => .fail (s.expecting ["'procedure'", "'namespace'", "'type'"]) s := by
  simp only [itemAt, bind_run, peek_run, Outcome.andThen_ok]
  split <;> simp [*] <;> rfl

theorem item_outcome : (item .strict).outcome = itemAt maxNesting := by
  funext s
  rw [item_run, itemAt_run, procedure_outcome]

/-- A file is read with `maxNesting` levels. -/
theorem fileRound_outcome : fileRound.outcome = fileRoundAt maxNesting := by
  simp only [fileRound, Reporter.outcome_bind, Reporter.outcome_liftM, Reporter.outcome_ite,
    Reporter.outcome_pure, item_outcome]
  rfl

/-- A round of a file ends it, or reads one item. -/
theorem fileRound_cases {t : Turn Item} {s' : Stream} (h : fileRound.outcome s = .ok t s') :
    (t = .stop ∧ semicolons s = .ok () s' ∧ s'.token = .eof) ∨
      ∃ a s₁, t = .item a ∧ semicolons s = .ok () s₁ ∧ s₁.token ≠ .eof ∧
        (item .strict).outcome s₁ = .ok a s' := by
  rw [fileRound_run, Outcome.andThen_eq_ok] at h
  obtain ⟨⟨⟩, s₁, hsemi, h⟩ := h
  split at h
  · next he =>
    obtain ⟨rfl, rfl⟩ := Outcome.ok.inj h
    exact .inl ⟨rfl, hsemi, he⟩
  · next he =>
    obtain ⟨a, hi, rfl⟩ := Outcome.map_eq_ok.1 h
    exact .inr ⟨a, s₁, rfl, hsemi, he, hi⟩

/-- The items of a file are read up to the end of the text. -/
theorem many_fileRound_token {is : List Item} {s' : Stream}
    (h : many fileRound.outcome s = .ok is s') : s'.token = .eof := by
  refine many_cases (motive := fun _ _ s' => s'.token = .eof) ?stop ?pass ?item ?last h
  case stop =>
    intro s s' hr
    obtain ⟨-, -, he⟩ | ⟨a, s₁, ht, -⟩ := fileRound_cases hr
    · exact he
    · cases ht
  case pass => exact fun _ _ ih => ih
  case item => exact fun _ _ ih => ih
  case last =>
    intro s a s' hr
    obtain ⟨ht, -⟩ | ⟨a, s₁, ht, -⟩ := fileRound_cases hr <;> cases ht

/-! ## Recovery -/

/-- Pass over one token behind a fault on `line`, unless a statement may begin here. -/
def resumeRound (line : Nat) (stopAtBranch moved : Bool) : Reader (Turn Unit) := fun s =>
  if s.token = .eof ∨ s.token = .keyword .end_ then .ok .stop s
  else if stopAtBranch ∧ (s.token = .keyword .elsif ∨ s.token = .keyword .else_) then .ok .stop s
  else if s.token = .symbol .semicolon then .ok .stop s.advance
  else if moved ∧ line < s.line then .ok .stop s
  else .ok .pass s.advance

/-- Pass over one token, unless an item may begin here. -/
def nextItemRound (depth : Nat) (mayStop : Bool) : Reader (Turn Unit) := fun s =>
  if s.token = .eof then .ok .stop s
  else if depth = 0 ∧ mayStop ∧ beginsItem s.token then .ok .stop s
  else .ok .pass s.advance

/-- One round of a recovering reading of a file, `count` diagnostics having been found before
it : what was found in the next item, or the end of the reading. -/
def recoverRound (cap count : Nat) : Reader (Turn Findings) := fun s =>
  (semicolons s).andThen fun _ s₁ =>
    if s₁.token = .eof ∨ cap ≤ count then .ok .stop s₁
    else
      match item .recovering s₁ with
      | (ds, .ok a s₂) => .ok (.item ⟨[a], ds⟩) s₂
      | (ds, .fail d s₂) =>
        if d.isFatal then .ok (.last ⟨[], ds ++ [d]⟩) s₂
        else (nextItem s₂).map fun _ => .item ⟨[], ds ++ [d]⟩
      | (_, .endless) => .endless

/-- Passing over semicolons repeats its round. -/
theorem semicolons_eq_again : semicolons s = (semicolonRound s).again s semicolons :=
  many_eq_again semicolonRound

/-- Skipping behind the fault of a statement repeats its round. -/
theorem resumeFrom_run (line : Nat) (stopAtBranch moved : Bool) (t : Located)
    (ts : List Located) :
    resumeFrom line stopAtBranch moved t ts =
      (resumeRound line stopAtBranch moved ⟨t, ts⟩).again ⟨t, ts⟩ fun s' =>
        resumeFrom line stopAtBranch true s'.here s'.ahead := by
  rw [resumeFrom.eq_def, resumeRound, Stream.token, Stream.line]
  dsimp only
  split
  · rfl
  split
  · rfl
  split
  · rfl
  split
  · rfl
  · cases ts <;> simp only [Outcome.again, Stream.advance, Stream.size, List.length_cons,
      Nat.lt_irrefl, Nat.lt_succ_self, if_true, if_false]

/-- Skipping behind the fault of an item repeats its round. -/
theorem nextItemFrom_run (depth : Nat) (mayStop : Bool) (t : Located) (ts : List Located) :
    nextItemFrom depth mayStop t ts =
      (nextItemRound depth mayStop ⟨t, ts⟩).again ⟨t, ts⟩ fun s' =>
        nextItemFrom (braceDepth depth t.token) (t.token ≠ .keyword .end_) s'.here s'.ahead := by
  rw [nextItemFrom.eq_def, nextItemRound, Stream.token]
  dsimp only
  split
  · rfl
  split
  · rfl
  · cases ts <;> simp only [Outcome.again, Stream.advance, Stream.size, List.length_cons,
      Nat.lt_irrefl, Nat.lt_succ_self, if_true, if_false]

/-- A recovering reading of a file repeats its round. -/
theorem recoverFrom_run (cap count : Nat) :
    recoverFrom cap count s =
      (recoverRound cap count s).gather s fun f s' =>
        recoverFrom cap (count + f.reports.length) s' := by
  rw [recoverFrom, recoverRound]
  cases semicolons s with
  | ok u s₁ =>
    simp only [Outcome.andThen_ok]
    split
    · rfl
    rcases item .recovering s₁ with ⟨ds, ⟨a, s₂⟩ | ⟨d, s₂⟩ | _⟩
    · rfl
    · by_cases hd : d.isFatal = true
      · simp only [hd, if_true, Outcome.gather]
      · simp only [hd, Nat.add_assoc]
        cases nextItem s₂ <;> simp [Outcome.map, Outcome.gather]
    · rfl
  | fail d s₁ => rfl
  | endless => rfl

end Grammar

/-- The verdict on a file is that of its rounds. -/
theorem parseFile_eq (ts : List Located) :
    parseFile ts =
      ((Reader.many Grammar.fileRound.outcome (.ofTokens ts)).map SourceFile.mk).verdict := by
  have h : Grammar.file.outcome =
      Reader.many Grammar.fileRound.outcome >>= fun items => pure ⟨items⟩ :=
    Reporter.outcome_many_bind _ _
  exact congrArg (fun r => (r (Stream.ofTokens ts)).verdict) h

theorem Outcome.verdict_eq_accepted {α : Type} {o : Outcome α} {a : α} :
    o.verdict = .accepted a ↔ ∃ s, o = .ok a s := by
  cases o <;> simp [verdict]

/-- A file is accepted if the rounds that read its items come to their end. -/
theorem parseFile_eq_accepted {ts : List Located} {f : SourceFile} :
    parseFile ts = .accepted f ↔
      ∃ s, Reader.many (Grammar.fileRoundAt maxNesting) (.ofTokens ts) = .ok f.items s := by
  rw [parseFile_eq, Grammar.fileRound_outcome, Outcome.verdict_eq_accepted]
  simp only [Outcome.map_eq_ok]
  constructor
  · rintro ⟨s, is, h, rfl⟩
    exact ⟨s, h⟩
  · rintro ⟨s, h⟩
    exact ⟨s, f.items, h, rfl⟩

end OpsLang
