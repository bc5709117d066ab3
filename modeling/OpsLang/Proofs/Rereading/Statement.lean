import OpsLang.Proofs.Spelling.Statement
import OpsLang.Proofs.Unambiguity
import OpsLang.Proofs.Yielding

/-!
# Statements read back

The canonical tokens of a legible statement are read as that statement again, but for the
lines it stands on (`yields_bareStatement`, `yields_block`). The lines are forgotten by
`Statement.unlined`, which changes nothing of the text.
-/

namespace OpsLang

/-! ## Statements without lines -/

mutual

/-- The statement with every line set to zero. -/
def Statement.unlined : Statement → Statement
  | .activity mode p as _ => .activity mode p as 0
  | .check c _ => .check c 0
  | .wait c _ => .wait c 0
  | .assign n v _ => .assign n v 0
  | .conditional branches none _ => .conditional (Branch.allUnlined branches) none 0
  | .conditional branches (some body) _ =>
    .conditional (Branch.allUnlined branches) (some (Block.unlined body)) 0
  | .whileLoop c body _ => .whileLoop c (Block.unlined body) 0
  | .forLoop n e body _ => .forLoop n e (Block.unlined body) 0
  | .expr v _ => .expr v 0

/-- The statements with every line set to zero. -/
def Block.unlined : List Statement → List Statement
  | [] => []
  | st :: rest => st.unlined :: Block.unlined rest

/-- The branches with every line set to zero. -/
def Branch.allUnlined : List Branch → List Branch
  | [] => []
  | .mk c body :: rest => .mk c (Block.unlined body) :: Branch.allUnlined rest

end

theorem needsSeparator_unlined (rest : List Statement) :
    needsSeparator (Block.unlined rest) = needsSeparator rest := by
  obtain _ | ⟨st, rest⟩ := rest
  · rfl
  · cases st with
    | conditional branches otherwise n => cases otherwise <;> rfl
    | _ => rfl

mutual

/-- The text does not show the lines of a statement. -/
theorem Statement.lines_unlined : ∀ (level : Nat) (st : Statement),
    st.unlined.lines level = st.lines level
  | _, .activity _ _ _ _ | _, .check _ _ | _, .wait _ _ | _, .assign _ _ _ | _, .expr _ _ => rfl
  | level, .conditional branches none _ => by
    simp only [Statement.unlined, Statement.lines, Branch.lines_unlined level "if" branches]
  | level, .conditional branches (some body) _ => by
    simp only [Statement.unlined, Statement.lines, Branch.lines_unlined level "if" branches,
      Block.lines_unlined (level + 1) body]
  | level, .whileLoop _ body _ => by
    simp only [Statement.unlined, Statement.lines, Block.lines_unlined (level + 1) body]
  | level, .forLoop _ _ body _ => by
    simp only [Statement.unlined, Statement.lines, Block.lines_unlined (level + 1) body]

theorem Block.lines_unlined : ∀ (level : Nat) (body : List Statement),
    Block.lines level (Block.unlined body) = Block.lines level body
  | _, [] => rfl
  | level, st :: rest => by
    simp only [Block.unlined, Block.lines, needsSeparator_unlined,
      Statement.lines_unlined level st, Block.lines_unlined level rest]

theorem Branch.lines_unlined : ∀ (level : Nat) (word : String) (branches : List Branch),
    Branch.lines level word (Branch.allUnlined branches) = Branch.lines level word branches
  | _, _, [] => rfl
  | level, word, .mk c body :: rest => by
    simp only [Branch.allUnlined, Branch.lines, Block.lines_unlined (level + 1) body,
      Branch.lines_unlined level "elsif" rest]

end

/-! ## Tokens behind and at the front -/

/-- No expression goes on with the token. -/
def Token.EndsExpr (t : Token) : Prop :=
  t.endsOperand = true ∧ BinaryOp.ofToken? t = none

theorem Token.Follows.endsExpr {t : Token} (h : t.Follows) : t.EndsExpr :=
  ⟨h.endsOperand, h.noOperator⟩

theorem Token.Follows.of_endsRun {stopAtBranch : Bool} {t : Token}
    (h : Grammar.endsRun stopAtBranch t = true) : t.Follows := by
  simp only [Grammar.endsRun, Bool.or_eq_true, Bool.and_eq_true, decide_eq_true_eq] at h
  rcases h with rfl | ⟨-, rfl | rfl⟩ <;> exact .keyword rfl

theorem Statement.begins {room : Nat} {st : Statement} (h : st.Legible room) :
    ∃ t ts, st.tokens = t :: ts ∧ t.beginsStatement = true := by
  cases st with
  | activity mode p as n => cases mode <;> exact ⟨_, _, rfl, rfl⟩
  | check c n => exact ⟨_, _, rfl, rfl⟩
  | wait c n => exact ⟨_, _, rfl, rfl⟩
  | assign n v line => exact ⟨_, _, rfl, rfl⟩
  | conditional branches otherwise n =>
    obtain ⟨c, body, rest, rfl⟩ := h.exists_branch
    cases otherwise <;> exact ⟨_, _, rfl, rfl⟩
  | whileLoop c body n => exact ⟨_, _, rfl, rfl⟩
  | forLoop counter e body n => exact ⟨_, _, rfl, rfl⟩
  | expr v n =>
    obtain ⟨t, ts, heq, ht⟩ := Expr.Legible.begins h
    exact ⟨t, ts, heq, t.beginsStatement_of_beginsExpr ht⟩

namespace Grammar

open Reader

variable {room line : Nat}

/-! ## Expressions and activities -/

theorem yields_expression {e : Expr} (h : e.Legible room) :
    (expression room).Yields Token.EndsExpr e.tokens (· = e) := by
  intro us s hus hf hs
  exact ⟨e, readsBack_expression h.fits (by rw [hus]; exact h.spells) hf hs.1 hs.2, rfl⟩

theorem yields_path {p : Path} (h : p.Legible) :
    path.Yields (· ≠ .symbol .dot) p.tokens (· = p) := by
  intro us s hus _ hs
  exact ⟨p, path_of_spells hs h.ne_nil (by rw [hus]; exact h.spells), rfl⟩

theorem yields_arguments {as : List Argument} (h : Argument.AllLegible room as) :
    (arguments (expression room)).Yields (fun _ => True)
      (.symbol .leftParen :: (Argument.allTokens as ++ [Token.symbol .rightParen])) (· = as) := by
  have hmany : Yields (many (argumentRound (expression room))) (· = .symbol .rightParen)
      (Argument.allTokens as) (· = as) := by
    intro us s hus hf hs
    exact ⟨as, arguments_of_spells hs h.fits (readsBack_of_fits as h.fits)
      (by rw [hus]; exact h.spells) hf, rfl⟩
  rw [arguments_eq]
  refine .symbol (hmany.andThen rfl ?_)
  rintro _ rfl
  exact .symbol (.pure rfl)

theorem yields_activityReference {p : Path} {as : List Argument} (hp : p.Legible)
    (has : Argument.AllLegible room as) :
    (activityReference (expression room)).Yields Token.Follows
      (p.tokens ++ Argument.optionalTokens as) (· = (p, as)) := by
  cases as with
  | nil =>
    refine (yields_path hp).bind (fun t ht => Token.Follows.ne_dot ht) ?_
    rintro _ rfl
    refine .peek_nil fun t ht => ?_
    rw [if_neg ht.ne_leftParen]
    exact .pure rfl
  | cons a as =>
    refine (yields_path hp).andThen (by simp) ?_
    rintro _ rfl
    refine .peek ?_
    rw [if_pos rfl]
    refine ((yields_arguments has).map ?_).mono (fun _ _ => trivial) fun _ h => h
    rintro _ rfl
    rfl

theorem yields_initiate (mode : ActivityMode) (hmode : mode ≠ .confirm) {p : Path}
    {as : List Argument} (hp : p.Legible) (has : Argument.AllLegible room as) :
    (initiate (expression room) line).Yields Token.Follows
      (mode.tokens ++ (p.tokens ++ Argument.optionalTokens as)) (· = .activity mode p as line) := by
  have href := yields_activityReference hp has
  cases mode with
  | initiate =>
    refine .skip (.eat_not ?_ ?_)
    · obtain ⟨_ | ⟨n, ns⟩⟩ := p
      · exact absurd rfl hp.ne_nil
      · rintro _ rfl
        simp
    · refine href.map ?_
      rintro _ rfl
      rfl
  | confirm => exact absurd rfl hmode
  | initiateAndConfirm =>
    refine .skip (.eat (.keyword (href.map ?_)))
    rintro _ rfl
    rfl

theorem yields_confirm_activity {p : Path} {as : List Argument} (hp : p.Legible)
    (has : Argument.AllLegible room as) :
    (confirm (expression room) line).Yields Token.Follows
      (.keyword .confirm :: (p.tokens ++ Argument.optionalTokens as))
      (· = .activity .confirm p as line) := by
  refine .skip fun us s hus hf hs => ?_
  obtain ⟨_, href, rfl⟩ := yields_activityReference hp has hus hf hs
  exact ⟨_, confirmOperand_of_reference hs.noOperator href, rfl⟩

theorem yields_confirm_check {c : Expr} (hc : c.Legible room) (hact : c.readsAsActivity = false) :
    (confirm (expression room) line).Yields Token.EndsExpr (.keyword .confirm :: c.tokens)
      (· = .check c line) := by
  refine .skip fun us s hus hf hs => ?_
  obtain ⟨c, hrun, rfl⟩ := yields_expression hc hus hf hs
  exact ⟨_, confirmOperand_of_expression hrun hact, rfl⟩

theorem yields_wait {c : Expr} (hc : c.Legible room) :
    (wait (expression room) line).Yields Token.EndsExpr
      (.keyword .wait :: .keyword .until_ :: c.tokens) (· = .wait c line) := by
  refine .skip (.keyword ((yields_expression hc).map ?_))
  rintro _ rfl
  rfl

theorem yields_assign {n : String} {v : Expr} (hv : v.Legible room) :
    (plainStatement (expression room) line).Yields Token.EndsExpr
      (.name n :: .symbol .assign :: v.tokens) (· = .assign n v line) := by
  intro us s hus hf hs
  obtain ⟨u, _, rfl, hu, h⟩ := words_eq_cons.1 hus
  obtain ⟨u', us, rfl, hu', hv'⟩ := words_eq_cons.1 h
  obtain ⟨v, hrun, rfl⟩ := yields_expression hv hv' hf.tail.tail hs
  refine ⟨_, ?_, rfl⟩
  rw [plainStatement_run]
  simp [hu, hu', hrun]

/-- An expression is no assignment, since no expression begins as one does. -/
theorem yields_expr (line : Nat) {v : Expr} (hv : v.Legible room) :
    (plainStatement (expression room) line).Yields
      (fun t => t.EndsExpr ∧ t ≠ .symbol .assign) v.tokens (· = .expr v line) := by
  intro us s hus hf ⟨hs, hassign⟩
  obtain ⟨v, hrun, rfl⟩ := yields_expression hv hus hf hs
  refine ⟨_, ?_, rfl⟩
  have hsp := hv.spells
  rw [← hus] at hsp
  obtain ⟨t, ts, heq, ht⟩ := hv.begins
  rw [heq] at hus
  obtain ⟨u, us, rfl, rfl, -⟩ := words_eq_cons.1 hus
  rw [plainStatement_run]
  split
  · next n hn hnext =>
    rw [Stream.next_behind_cons] at hnext
    exact absurd hnext (hsp.next_ne_assign hn hassign)
  · rw [hrun, Outcome.map_ok]
  · next k hnot hk =>
    rw [Stream.token_behind_cons] at hk
    rw [hk] at ht
    cases k <;> first
      | exact absurd rfl hnot
      | cases ht
  · rw [hrun, Outcome.map_ok]

/-! ## Statements with blocks -/

/-- Before a token that ends them, the statements are read back but for their lines. -/
def BlockYields (block : BlockReader) (body : Block) : Prop :=
  ∀ kind line stopAtBranch, (block kind line stopAtBranch).outcome.Yields
    (fun t => endsRun stopAtBranch t = true) (Block.tokens body)
    fun b => Block.unlined b = Block.unlined body

theorem yields_endOf (kind : BlockKind) (line : Nat) :
    (endOf kind line).Yields (fun _ => True) kind.endTokens fun _ => True := by
  intro us s hus _ _
  obtain ⟨u, _, rfl, hu, h⟩ := words_eq_cons.1 hus
  obtain ⟨u', rfl, hu'⟩ := words_eq_singleton.1 h
  exact ⟨(), by simp [endOf, hu, hu'], trivial⟩

section Blocks

variable {block : BlockReader}

/-- The tokens of a branch up to its end, or to the word that begins another one. -/
theorem yields_branch {c : Expr} {body : Block} (hc : c.Legible room)
    (hb : BlockYields block body) {ts : List Token} {ok : Token → Prop}
    {P : Turn Branch → Prop}
    (hok : ∀ t, First ok ts t → endsRun true t = true)
    (h : ∀ b, Block.unlined b = Block.unlined body →
      Yields (do
        if ← eat (.keyword .elsif) then return .item (.mk c b) else return .last (.mk c b))
        ok ts P) :
    (branch (expression room) block line).outcome.Yields ok
      (c.tokens ++ .keyword .then_ :: (Block.tokens body ++ ts)) P := by
  simp only [branch, Reporter.outcome_bind, Reporter.outcome_liftM, Reporter.outcome_ite,
    Reporter.outcome_pure]
  refine (yields_expression hc).andThen ⟨rfl, rfl⟩ ?_
  rintro _ rfl
  exact .keyword ((hb .conditional line true).bind hok h)

theorem yields_branches (line : Nat) : ∀ {bs : List Branch}, bs ≠ [] → Branch.AllLegible room bs →
    (∀ b ∈ bs, BlockYields block b.body) →
      ∃ ts, (∀ word, Branch.tokens word bs = .keyword word :: ts) ∧
        Yields (many (branch (expression room) block line).outcome)
          (fun t => t = .keyword .else_ ∨ t = .keyword .end_) ts
          fun bs' => Branch.allUnlined bs' = Branch.allUnlined bs
  | [], hne, _, _ => absurd rfl hne
  | [.mk c body], _, ⟨hc, _, _⟩, hbs => by
    have hb : BlockYields block body := hbs _ List.mem_cons_self
    refine ⟨_, fun word => rfl, ?_⟩
    have hround : (branch (expression room) block line).outcome.Yields
        (fun t => t = .keyword .else_ ∨ t = .keyword .end_)
        (c.tokens ++ .keyword .then_ :: (Block.tokens body ++ []))
        fun t => ∃ b, t = .last b ∧ Branch.allUnlined [b] = Branch.allUnlined [.mk c body] := by
      refine yields_branch hc hb ?_ fun b heq => .eat_not ?_ (.pure ⟨_, rfl, ?_⟩)
      · rintro t (rfl | rfl) <;> rfl
      · rintro t (rfl | rfl) <;> simp
      · simp only [Branch.allUnlined, heq]
    refine hround.many_last.mono (fun _ h => h) ?_
    rintro _ ⟨b, rfl, hb⟩
    exact hb
  | .mk c body :: b' :: bs, _, ⟨hc, _, hlegs⟩, hbs => by
    have hb : BlockYields block body := hbs _ List.mem_cons_self
    have hbs := (List.forall_mem_cons.1 hbs).2
    obtain ⟨ts, hts, hrest⟩ := yields_branches line (by simp) hlegs hbs
    have hround : (branch (expression room) block line).outcome.Yields (fun _ => True)
        (c.tokens ++ Token.keyword .then_ :: (Block.tokens body ++ [Token.keyword .elsif]))
        fun t => ∃ b, t = .item b ∧ Branch.allUnlined [b] = Branch.allUnlined [.mk c body] := by
      refine yields_branch hc hb ?_ fun b heq => .eat (.pure ⟨_, rfl, ?_⟩)
      · rintro t rfl
        rfl
      · simp only [Branch.allUnlined, heq]
    have hall := hround.many_item (by simp) (fun _ _ => trivial) hrest
    simp only [List.append_assoc, List.cons_append, List.nil_append] at hall
    refine ⟨_, fun word => ?_, hall.mono (fun _ h => h) ?_⟩
    · rw [Branch.tokens, hts]
    · rintro _ ⟨b, bs', rfl, hb, hbs'⟩
      obtain ⟨c'', body''⟩ := b
      simp only [Branch.allUnlined, List.cons.injEq, and_true] at hb
      rw [Branch.allUnlined, Branch.allUnlined, hb, hbs']

variable {body : Block}

theorem yields_whileLoop {c : Expr} (hc : c.Legible room) (hb : BlockYields block body) (n : Nat) :
    (whileLoop (expression room) block line).outcome.Yields (fun _ => True)
      (Statement.whileLoop c body n).tokens
      fun st => st.unlined = (Statement.whileLoop c body n).unlined := by
  simp only [whileLoop, Reporter.outcome_bind, Reporter.outcome_liftM, Reporter.outcome_pure]
  refine .skip ((yields_expression hc).andThen ⟨rfl, rfl⟩ ?_)
  rintro _ rfl
  refine .keyword ((hb .whileLoop line false).andThen rfl fun b heq => ?_)
  refine (yields_endOf .whileLoop line).map fun _ _ => ?_
  simp only [Statement.unlined, heq]

theorem yields_forLoop {x : String} {e : Expr} (he : e.Legible room) (hb : BlockYields block body)
    (n : Nat) :
    (forLoop (expression room) block line).outcome.Yields (fun _ => True)
      (Statement.forLoop x e body n).tokens
      fun st => st.unlined = (Statement.forLoop x e body n).unlined := by
  simp only [forLoop, Reporter.outcome_bind, Reporter.outcome_liftM, Reporter.outcome_pure]
  refine .skip (.name (.keyword ((yields_expression he).andThen ⟨rfl, rfl⟩ ?_)))
  rintro _ rfl
  refine .keyword ((hb .forLoop line false).andThen rfl fun b heq => ?_)
  refine (yields_endOf .forLoop line).map fun _ _ => ?_
  simp only [Statement.unlined, heq]

theorem yields_otherwise_none :
    (otherwise block line).outcome.Yields (· = .keyword .end_) [] (· = none) := by
  simp only [otherwise, Reporter.outcome_bind, Reporter.outcome_liftM, Reporter.outcome_ite,
    Reporter.outcome_pure]
  refine .eat_not ?_ (.pure rfl)
  rintro t rfl
  simp

theorem yields_otherwise_some (hb : BlockYields block body) :
    (otherwise block line).outcome.Yields (· = .keyword .end_)
      (.keyword .else_ :: Block.tokens body)
      fun o => ∃ b, o = some b ∧ Block.unlined b = Block.unlined body := by
  simp only [otherwise, Reporter.outcome_bind, Reporter.outcome_liftM, Reporter.outcome_ite,
    Reporter.outcome_pure]
  refine .eat (((hb .conditional line false).map fun b heq => ⟨b, rfl, heq⟩).mono ?_ fun _ h => h)
  rintro t rfl
  rfl

theorem yields_conditional (line : Nat) {bs : List Branch} (hne : bs ≠ [])
    (hleg : Branch.AllLegible room bs) (hbs : ∀ b ∈ bs, BlockYields block b.body)
    {otherwise : Option Block} (hb : ∀ b ∈ otherwise, BlockYields block b) (n : Nat) :
    (conditional (expression room) block line).outcome.Yields (fun _ => True)
      (Statement.conditional bs otherwise n).tokens
      fun st => st.unlined = (Statement.conditional bs otherwise n).unlined := by
  obtain ⟨ts, hts, hmany⟩ := yields_branches line hne hleg hbs
  simp only [conditional, Reporter.outcome_bind, Reporter.outcome_liftM,
    Reporter.outcome_many_bind, Reporter.outcome_pure]
  cases otherwise with
  | none =>
    rw [Statement.tokens, hts]
    refine .skip (hmany.andThen (.inr rfl) fun bs' heq => ?_)
    refine yields_otherwise_none.andThen rfl ?_
    rintro _ rfl
    refine (yields_endOf .conditional line).map fun _ _ => ?_
    simp only [Statement.unlined, heq]
  | some body =>
    rw [Statement.tokens, hts]
    refine .skip (hmany.andThen (.inl rfl) fun bs' heq => ?_)
    refine (yields_otherwise_some (hb body rfl)).andThen rfl ?_
    rintro _ ⟨b, rfl, heq'⟩
    refine (yields_endOf .conditional line).map fun _ _ => ?_
    simp only [Statement.unlined, heq, heq']

theorem yields_bareStatement_conditional {bs : List Branch} (hne : bs ≠ [])
    (hleg : Branch.AllLegible room bs) (hbs : ∀ b ∈ bs, BlockYields block b.body)
    {otherwise : Option Block} (hb : ∀ b ∈ otherwise, BlockYields block b) (n : Nat) :
    (bareStatement (expression room) block line).outcome.Yields (fun _ => True)
      (Statement.conditional bs otherwise n).tokens
      fun st => st.unlined = (Statement.conditional bs otherwise n).unlined := by
  have hall := yields_conditional line hne hleg hbs hb n
  obtain ⟨⟨c, body⟩, rest, rfl⟩ := List.exists_cons_of_ne_nil hne
  simp only [bareStatement, Reporter.outcome_bind, Reporter.outcome_liftM]
  cases otherwise <;> exact .peek hall

end Blocks

/-! ## Blocks -/

section Rounds

variable {kind : BlockKind} {stopAtBranch : Bool} {st : Reporter Statement}
  {ok : Token → Prop} {t : Token} {ts : List Token} {P : Statement → Prop}

theorem ne_of_beginsStatement (stopAtBranch : Bool) (h : t.beginsStatement = true) :
    t ≠ .symbol .semicolon ∧ t ≠ .eof ∧ endsRun stopAtBranch t = false := by
  refine ⟨?_, ?_, ?_⟩
  · rintro rfl
    cases h
  · rintro rfl
    cases h
  · rw [← Bool.not_eq_true]
    intro hend
    simp only [endsRun, Bool.or_eq_true, Bool.and_eq_true, decide_eq_true_eq] at hend
    rcases hend with rfl | ⟨-, rfl | rfl⟩ <;> cases h

theorem yields_round_stop :
    (round .strict kind line stopAtBranch st).outcome.Yields
      (fun t => endsRun stopAtBranch t = true) [] (· = .stop) := by
  simp only [round, Reporter.outcome_bind, Reporter.outcome_liftM, Reporter.outcome_ite,
    Reporter.outcome_pure]
  refine .semicolons ?_ (.peek_nil fun t ht => ?_)
  · rintro t ht rfl
    cases stopAtBranch <;> cases ht
  · have hne : t ≠ .eof := by
      rintro rfl
      cases stopAtBranch <;> cases ht
    rw [if_neg hne, if_pos ht]
    exact .pure rfl

theorem yields_round_item (ht : t.beginsStatement = true)
    (h : st.outcome.Yields ok (t :: ts) P) :
    (round .strict kind line stopAtBranch st).outcome.Yields ok (t :: ts)
      fun x => ∃ a, x = .item a ∧ P a := by
  obtain ⟨hsemi, heof, hend⟩ := ne_of_beginsStatement stopAtBranch ht
  simp only [round, Reporter.outcome_bind, Reporter.outcome_liftM, Reporter.outcome_ite,
    Reporter.outcome_pure]
  refine .semicolons ?_ (.peek ?_)
  · rintro _ rfl
    exact hsemi
  · rw [if_neg heof, if_neg (by simp [hend])]
    intro us s hus hf hs
    obtain ⟨a, hrun, ha⟩ := h hus hf hs
    exact ⟨.item a, by rw [attempt_run, hrun], a, rfl, ha⟩

/-- A statement with the semicolon behind it, if one has to be there. -/
theorem yields_statement {expr : Reader Expr} {block : BlockReader}
    (h : ∀ line, (bareStatement expr block line).outcome.Yields Token.Follows ts P)
    (rest : List Statement) :
    (statement expr block).outcome.Yields
      (fun t => separator rest = [] → t.Follows ∧ t ≠ .symbol .semicolon)
      (ts ++ separator rest) P := by
  simp only [statement, Reporter.outcome_bind, Reporter.outcome_liftM, Reporter.outcome_pure]
  refine .here fun u => ?_
  unfold separator
  split
  · exact (h _).andThen .semicolon fun st hst => .eat (.pure hst)
  · refine (h _).bind (fun t ht => (ht rfl).1) fun st hst => .eat_not ?_ (.pure hst)
    exact fun t ht => (ht rfl).2

/-- The statements behind another one begin as it wants. -/
theorem follows_of_first {rest : List Statement} (h : Block.Legible (room + 1) rest)
    (ht : First (fun t => endsRun stopAtBranch t = true) (Block.tokens rest) t) :
    separator rest = [] → t.Follows ∧ t ≠ .symbol .semicolon := by
  intro hsep
  cases rest with
  | nil =>
    refine ⟨.of_endsRun ht, ?_⟩
    rintro rfl
    cases stopAtBranch <;> cases ht
  | cons st rest =>
    obtain ⟨u, us, heq, hu⟩ := Statement.begins h.1
    rw [Block.tokens, heq] at ht
    obtain rfl := ht
    refine ⟨head_separated h _ ?_, (ne_of_beginsStatement false hu).1⟩
    rw [hsep, Block.tokens, heq]
    rfl

end Rounds

/-- An expression is read as a statement where no keyword begins one. -/
theorem bareStatement_of_beginsExpr {expr : Reader Expr} {block : BlockReader} {s : Stream}
    (h : s.token.beginsExpr = true) :
    (bareStatement expr block line).outcome s = plainStatement expr line s := by
  rw [bareStatement_run]
  split <;> first
    | rfl
    | simp_all [Token.beginsExpr]

mutual

/-- The canonical tokens of a statement are read as the statement, on whatever line. -/
theorem yields_bareStatement : ∀ {room : Nat} (st : Statement), st.Legible room → ∀ line : Nat,
    (bareStatement (expression room) (statements .strict room) line).outcome.Yields
      Token.Follows st.tokens fun st' => st'.unlined = st.unlined
  | _, .activity mode p as _, ⟨hp, has⟩, line => by
    simp only [bareStatement, Reporter.outcome_bind, Reporter.outcome_liftM]
    cases mode with
    | confirm =>
      refine .peek ((yields_confirm_activity hp has).mono (fun _ h => h) ?_)
      rintro _ rfl
      rfl
    | initiate =>
      refine .peek ((yields_initiate .initiate (by simp) hp has).mono (fun _ h => h) ?_)
      rintro _ rfl
      rfl
    | initiateAndConfirm =>
      refine .peek ((yields_initiate .initiateAndConfirm (by simp) hp has).mono (fun _ h => h) ?_)
      rintro _ rfl
      rfl
  | _, .check _ _, ⟨hc, hact⟩, line => by
    simp only [bareStatement, Reporter.outcome_bind, Reporter.outcome_liftM]
    refine .peek ((yields_confirm_check hc hact).mono (fun _ h => h.endsExpr) ?_)
    rintro _ rfl
    rfl
  | _, .wait _ _, h, line => by
    simp only [bareStatement, Reporter.outcome_bind, Reporter.outcome_liftM]
    refine .peek ((yields_wait h).mono (fun _ h => h.endsExpr) ?_)
    rintro _ rfl
    rfl
  | _, .assign _ _ _, ⟨_, hv⟩, line => by
    simp only [bareStatement, Reporter.outcome_bind, Reporter.outcome_liftM]
    refine .peek ((yields_assign hv).mono (fun _ h => h.endsExpr) ?_)
    rintro _ rfl
    rfl
  | _, .conditional branches none n, ⟨hne, hbranches⟩, line => by
    have hbodies := yields_bodies branches hbranches
    exact (yields_bareStatement_conditional hne hbranches hbodies (by simp) n).mono
      (fun _ _ => trivial) fun _ h => h
  | _, .conditional branches (some body) n, ⟨hne, hbranches, hbody⟩, line => by
    have hbodies := yields_bodies branches hbranches
    have hrest := yields_block body hbody
    exact (yields_bareStatement_conditional hne hbranches hbodies (by simpa using hrest) n).mono
      (fun _ _ => trivial) fun _ h => h
  | _, .whileLoop c body n, ⟨hc, hbody⟩, line => by
    simp only [bareStatement, Reporter.outcome_bind, Reporter.outcome_liftM]
    refine .peek ?_
    exact (yields_whileLoop hc (yields_block body hbody) n).mono (fun _ _ => trivial) fun _ h => h
  | _, .forLoop _ _ body n, ⟨_, he, hbody⟩, line => by
    simp only [bareStatement, Reporter.outcome_bind, Reporter.outcome_liftM]
    refine .peek ?_
    exact (yields_forLoop he (yields_block body hbody) n).mono (fun _ _ => trivial) fun _ h => h
  | room, .expr v _, h, line => by
    have hv : v.Legible room := h
    intro us s hus hf hs
    obtain ⟨st, hrun, hst⟩ := yields_expr line hv hus hf ⟨hs.endsExpr, hs.ne_assign⟩
    have hbegins : (s.behind us).token.beginsExpr = true := by
      obtain ⟨t, ts, heq, ht⟩ := hv.begins
      rw [token_behind_of_words (hus.trans heq)]
      exact ht
    refine ⟨st, by rw [bareStatement_of_beginsExpr hbegins, hrun], ?_⟩
    rw [hst]
    rfl

theorem yields_block : ∀ {room : Nat} (body : List Statement), Block.Legible room body →
    BlockYields (statements .strict room) body
  | 0, _, h => absurd h Block.not_legible_zero
  | _ + 1, [], _ => by
    intro kind line stopAtBranch
    rw [statements, Reporter.outcome_many]
    refine yields_round_stop.many_stop.mono (fun _ h => h) ?_
    rintro _ rfl
    rfl
  | room + 1, st :: rest, ⟨hst, hrest⟩ => by
    intro kind line stopAtBranch
    have hbelow := yields_block rest hrest kind line stopAtBranch
    rw [statements, Reporter.outcome_many] at hbelow ⊢
    obtain ⟨t, ts, heq, ht⟩ := Statement.begins hst
    have hround := yields_statement (yields_bareStatement st hst) rest
    rw [heq, List.cons_append] at hround
    have hall := (yields_round_item ht hround).many_item (by simp)
      (fun u hu => follows_of_first hrest hu) hbelow
    rw [Block.tokens, heq, List.cons_append, ← List.append_assoc]
    refine hall.mono (fun _ h => h) ?_
    rintro _ ⟨st', rest', rfl, hst', hrest'⟩
    rw [Block.unlined, Block.unlined, hst', hrest']

theorem yields_bodies : ∀ {room : Nat} (branches : List Branch),
    Branch.AllLegible room branches →
      ∀ b ∈ branches, BlockYields (statements .strict room) b.body
  | _, [], _ => by simp
  | _, .mk c body :: rest, ⟨_, hbody, hrest⟩ =>
    List.forall_mem_cons.2 ⟨yields_block body hbody, yields_bodies rest hrest⟩

end

end Grammar

end OpsLang
