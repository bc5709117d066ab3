import OpsLang.Proofs.Canonical.Statement
import OpsLang.Proofs.Confirming

/-!
# Spellings of statements

The grammar that statements are read by, as a relation in the manner of `Expr.Spells`.
`Statement.Spells next st ts` says that the tokens `ts` are those of the tree `st`, and leaves
open only the empty argument list of an activity; `Block.Spells` leaves open the semicolons
besides.

A statement has no token of its own at its end, so where it ends depends on the token `next`
behind it : an expression that ends in a bare name is not followed by a parenthesis
(`Expr.StopsBefore`), and an activity behind `confirm` not by an operator. The reader takes
nothing else, and what it reads is legible (`takes_statements`).
-/

namespace OpsLang

/-! ## Where expressions end -/

/-- The expression would not go on with the token as the arguments of a name at its end. -/
def Expr.StopsBefore (t : Token) : Expr → Prop
  | .name _ | .property _ => t ≠ .symbol .leftParen
  | .binary _ _ r => r.StopsBefore t
  | .unary _ e => e.StopsBefore t
  | _ => True

theorem Expr.stopsBefore_of_ne {t : Token} (h : t ≠ .symbol .leftParen) :
    ∀ e : Expr, e.StopsBefore t
  | .name _ | .property _ => h
  | .binary _ _ r => Expr.stopsBefore_of_ne h r
  | .unary _ e => Expr.stopsBefore_of_ne h e
  | .number _ | .measure _ _ | .string _ | .truth _ | .call _ _ | .parens _ => trivial

/-! ## Spellings -/

/-- The tokens of the name and of the arguments of an activity. -/
def Grammar.ReferenceSpells (next : Token) (p : Path) (as : List Argument) (ts : List Token) :
    Prop :=
  ∃ us, p.Spells us ∧
    (as = [] ∧ ts = us ∧ next ≠ .symbol .leftParen ∨
      ∃ vs, Argument.AllSpell as vs ∧
        ts = us ++ .symbol .leftParen :: (vs ++ [.symbol .rightParen]))

mutual

/-- The tokens before `next` are those of the statement. -/
def Statement.Spells (next : Token) : Statement → List Token → Prop
  | .activity mode p as _, ts =>
    ∃ us, ts = mode.tokens ++ us ∧ Grammar.ReferenceSpells next p as us ∧
      (mode = .confirm → BinaryOp.ofToken? next = none)
  | .check c _, ts => ∃ us, ts = .keyword .confirm :: us ∧ c.Spells us ∧ c.StopsBefore next
  | .wait c _, ts =>
    ∃ us, ts = .keyword .wait :: .keyword .until_ :: us ∧ c.Spells us ∧ c.StopsBefore next
  | .assign n v _, ts =>
    ∃ us, ts = .name n :: .symbol .assign :: us ∧ v.Spells us ∧ v.StopsBefore next
  | .conditional branches none _, ts =>
    ∃ us, ts = .keyword .if_ :: (us ++ BlockKind.conditional.endTokens) ∧
      Branch.AllSpell branches us
  | .conditional branches (some body) _, ts =>
    ∃ us vs, ts = .keyword .if_ :: (us ++
        .keyword .else_ :: (vs ++ BlockKind.conditional.endTokens)) ∧
      Branch.AllSpell branches us ∧ Block.Spells body vs
  | .whileLoop c body _, ts =>
    ∃ us vs, ts = .keyword .while_ :: (us ++
        .keyword .do_ :: (vs ++ BlockKind.whileLoop.endTokens)) ∧
      c.Spells us ∧ Block.Spells body vs
  | .forLoop n e body _, ts =>
    ∃ us vs, ts = .keyword .for_ :: .name n :: .keyword .in_ :: (us ++
        .keyword .do_ :: (vs ++ BlockKind.forLoop.endTokens)) ∧
      e.Spells us ∧ Block.Spells body vs
  | .expr v _, ts => v.Spells ts ∧ v.StopsBefore next

/-- The tokens before the word that ends a block are those of its statements. -/
def Block.Spells : List Statement → List Token → Prop
  | [], ts => ∀ t ∈ ts, t = .symbol .semicolon
  | st :: rest, ts =>
    ∃ ss us vs, ts = ss ++ (us ++ vs) ∧ (∀ t ∈ ss, t = .symbol .semicolon) ∧
      st.Spells (vs.head?.getD (.keyword .end_)) us ∧ Block.Spells rest vs

/-- The tokens are those of the branches behind their first word. -/
def Branch.AllSpell : List Branch → List Token → Prop
  | [], ts => ts = []
  | .mk c body :: rest, ts =>
    ∃ us vs ws, ts = us ++ .keyword .then_ :: (vs ++ ws) ∧ c.Spells us ∧ Block.Spells body vs ∧
      (rest = [] ∧ ws = [] ∨
        rest ≠ [] ∧ ∃ xs, ws = .keyword .elsif :: xs ∧ Branch.AllSpell rest xs)

end

/-- Before a word that is no operator every statement may end. -/
theorem Statement.Spells.before_keyword {next : Token} {st : Statement} {ts : List Token}
    (h : st.Spells next ts) {k : Keyword} (hk : BinaryOp.ofToken? (.keyword k) = none) :
    st.Spells (.keyword k) ts := by
  have hstop : ∀ e : Expr, e.StopsBefore (.keyword k) := Expr.stopsBefore_of_ne (by simp)
  cases st with
  | activity mode p as n =>
    obtain ⟨us, rfl, ⟨vs, hvs, hargs⟩, -⟩ := h
    refine ⟨us, rfl, ⟨vs, hvs, hargs.imp_left fun ⟨has, hus, _⟩ => ⟨has, hus, by simp⟩⟩, ?_⟩
    exact fun _ => hk
  | check c n =>
    obtain ⟨us, hus, hc, -⟩ := h
    exact ⟨us, hus, hc, hstop c⟩
  | wait c n =>
    obtain ⟨us, hus, hc, -⟩ := h
    exact ⟨us, hus, hc, hstop c⟩
  | assign x v n =>
    obtain ⟨us, hus, hv, -⟩ := h
    exact ⟨us, hus, hv, hstop v⟩
  | expr v n => exact ⟨h.1, hstop v⟩
  | conditional branches otherwise n => cases otherwise <;> exact h
  | whileLoop c body n => exact h
  | forLoop x e body n => exact h

/-! ## What a statement begins with -/

/-- A statement may begin with the token. -/
def Token.beginsStatement : Token → Bool
  | .keyword .initiate | .keyword .confirm | .keyword .wait => true
  | .keyword .if_ | .keyword .while_ | .keyword .for_ => true
  | t => t.beginsExpr

theorem Token.beginsStatement_of_beginsExpr {t : Token} (h : t.beginsExpr = true) :
    t.beginsStatement = true := by
  unfold beginsStatement
  split <;> first | rfl | exact h

theorem Statement.Spells.begins {room : Nat} {next : Token} {st : Statement} {ts : List Token}
    (h : st.Spells next ts) (hleg : st.Legible room) :
    ∃ t us, ts = t :: us ∧ t.beginsStatement = true := by
  cases st with
  | activity mode p as n =>
    obtain ⟨us, rfl, -⟩ := h
    cases mode <;> exact ⟨_, _, rfl, rfl⟩
  | check c n =>
    obtain ⟨us, rfl, -⟩ := h
    exact ⟨_, _, rfl, rfl⟩
  | wait c n =>
    obtain ⟨us, rfl, -⟩ := h
    exact ⟨_, _, rfl, rfl⟩
  | assign x v n =>
    obtain ⟨us, rfl, -⟩ := h
    exact ⟨_, _, rfl, rfl⟩
  | expr v n =>
    have hv : v.Legible room := hleg
    obtain ⟨t, us, rfl, ht⟩ := Expr.Spells.begins h.1 hv.fits
    exact ⟨t, us, rfl, t.beginsStatement_of_beginsExpr ht⟩
  | conditional branches otherwise n =>
    cases otherwise with
    | none =>
      obtain ⟨us, rfl, -⟩ := h
      exact ⟨_, _, rfl, rfl⟩
    | some body =>
      obtain ⟨us, vs, rfl, -⟩ := h
      exact ⟨_, _, rfl, rfl⟩
  | whileLoop c body n =>
    obtain ⟨us, vs, rfl, -⟩ := h
    exact ⟨_, _, rfl, rfl⟩
  | forLoop x e body n =>
    obtain ⟨us, vs, rfl, -⟩ := h
    exact ⟨_, _, rfl, rfl⟩

/-- A block begins with a semicolon or with a statement. -/
theorem Block.Spells.head {room : Nat} {body : Block} {t : Token} {ts : List Token}
    (h : Block.Spells body (t :: ts)) (hleg : Block.Legible room body) :
    t = .symbol .semicolon ∨ t.beginsStatement = true := by
  cases body with
  | nil => exact .inl (h t List.mem_cons_self)
  | cons st rest =>
    cases room with
    | zero => exact absurd hleg Block.not_legible_zero
    | succ room =>
      obtain ⟨_ | ⟨s, ss⟩, us, vs, heq, hss, hst, -⟩ := h
      · obtain ⟨u, us, rfl, hu⟩ := hst.begins hleg.1
        cases heq
        exact .inr hu
      · cases heq
        exact .inl (hss t List.mem_cons_self)

/-! ## Legible spellings -/

/-- The tokens are those of the value, which is legible if they can be written. -/
structure Legibly {α : Type} (S : α → List Token → Prop) (L : α → Prop) (a : α)
    (ts : List Token) : Prop where
  spells : S a ts
  legible : (∀ t ∈ ts, t.Written) → L a

/-- The tokens before `next` are those of a statement inside `room` levels. -/
def StatementRead (room : Nat) (next : Token) : Statement → List Token → Prop :=
  Legibly (Statement.Spells next) (Statement.Legible room)

/-- The tokens are those of a block inside `room` levels. -/
def BlockRead (room : Nat) : Block → List Token → Prop :=
  Legibly Block.Spells (Block.Legible room)

section Blocks

variable {room : Nat} {ts : List Token}

theorem BlockRead.nil (h : ∀ t ∈ ts, t = .symbol .semicolon) : BlockRead (room + 1) [] ts :=
  ⟨h, fun _ => trivial⟩

theorem BlockRead.semicolon {body : Block} (h : BlockRead room body ts) :
    BlockRead room body (.symbol .semicolon :: ts) := by
  refine ⟨?_, fun hw => h.legible (List.forall_mem_cons.1 hw).2⟩
  cases body with
  | nil => exact List.forall_mem_cons.2 ⟨rfl, h.spells⟩
  | cons st rest =>
    obtain ⟨ss, us, vs, rfl, hss, hrest⟩ := h.spells
    exact ⟨.symbol .semicolon :: ss, us, vs, rfl, List.forall_mem_cons.2 ⟨rfl, hss⟩, hrest⟩

/-- A statement behind semicolons, and the statements after it. -/
theorem BlockRead.cons {st : Statement} {rest : Block} {ss us vs : List Token}
    (hss : ∀ t ∈ ss, t = .symbol .semicolon)
    (hst : StatementRead room (vs.head?.getD (.keyword .end_)) st us)
    (hrest : BlockRead (room + 1) rest vs) :
    BlockRead (room + 1) (st :: rest) (ss ++ (us ++ vs)) := by
  refine ⟨⟨ss, us, vs, rfl, hss, hst.spells, hrest.spells⟩, fun hw => ?_⟩
  simp only [List.forall_mem_append] at hw
  exact ⟨hst.legible hw.2.1, hrest.legible hw.2.2⟩

end Blocks

namespace Reader

variable {α β : Type} {r : Reader α} {P : α → List Token → Prop}
  {Q : α → Token → β → List Token → Prop}

/-- A value is in the relation `P` to the token behind it and the tokens that the reader takes
for it. -/
def TakesBefore (r : Reader α) (P : Token → α → List Token → Prop) : Prop :=
  ∀ ⦃s a s'⦄, s.Ends → r s = .ok a s' → ∃ us, s = s'.behind us ∧ P s'.token a (words us)

theorem Takes.bindBefore {f : α → Reader β} (h : r.Takes P)
    (hf : ∀ a, (f a).TakesBefore (Q a)) :
    (r >>= f).TakesBefore fun t b ts => ∃ a us vs, P a us ∧ Q a t b vs ∧ ts = us ++ vs := by
  intro s b s' hs hr
  rw [bind_run, Outcome.andThen_eq_ok] at hr
  obtain ⟨a, s₁, hr, hfa⟩ := hr
  obtain ⟨us, rfl, ha⟩ := h hs hr
  obtain ⟨vs, rfl, hb⟩ := hf a hs.of_behind hfa
  exact ⟨us ++ vs, Stream.behind_append.symm, a, words us, words vs, ha, hb, words_append⟩

theorem TakesBefore.map {P : Token → α → List Token → Prop} {P' : Token → β → List Token → Prop}
    {g : α → β} (h : r.TakesBefore P) (hP : ∀ t a ts, P t a ts → P' t (g a) ts) :
    (r >>= fun a => pure (g a)).TakesBefore P' := by
  intro s b s' hs hr
  obtain ⟨a, ha, rfl⟩ := Outcome.map_eq_ok.1 hr
  obtain ⟨us, hus, hPa⟩ := h hs ha
  exact ⟨us, hus, hP _ _ _ hPa⟩

/-- Passing over a token that is not the end takes it. -/
theorem TakesBefore.skip {P : Token → α → List Token → Prop} {f : Unit → Reader α}
    (hf : (f ()).TakesBefore P) {s s' : Stream} {a : α} (hs : s.Ends) (hne : s.token ≠ .eof)
    (h : (skip >>= f) s = .ok a s') :
    ∃ us vs, s = s'.behind us ∧ words us = s.token :: vs ∧ P s'.token a vs := by
  obtain ⟨us, hus, hP⟩ := hf hs.advance h
  exact ⟨s.here :: us, words us, hs.eq_behind_cons hne hus, rfl, hP⟩

theorem Takes.before (h : r.Takes P) : r.TakesBefore fun _ => P :=
  h

end Reader

namespace Grammar

open Reader

variable {room : Nat} {s s' : Stream}

theorem takes_semicolons : semicolons.Takes fun _ ts => ∀ t ∈ ts, t = .symbol .semicolon := by
  intro s _ s' hs h
  obtain ⟨us, hus, hall, -⟩ := semicolons_eq_ok hs.closed h
  exact ⟨us, hus, forall_mem_words.2 hall⟩

theorem takes_endOf (kind : BlockKind) (line : Nat) :
    (endOf kind line).Takes fun _ ts => ts = kind.endTokens := by
  intro s _ s' hs h
  obtain ⟨hend, hnext, hs'⟩ := endOf_eq_ok.1 h
  have hadv : s.advance.token = .keyword kind.closer := by
    rw [Stream.token_advance_of_next (by simp [hnext]), hnext]
  have hs₁ := eq_behind_of_advance hs.advance (by simp [hadv]) hs'
  refine ⟨_, hs.eq_behind_cons (by simp [hend]) hs₁, ?_⟩
  show [s.token, s.advance.token] = _
  rw [hend, hadv]
  rfl

/-! ## Reading expressions -/

section Operands

variable {inside behind : Reader Expr} {e : Expr}

theorem nameOrCall_stopsBefore (h : nameOrCall inside s = .ok e s') : e.StopsBefore s'.token := by
  rw [nameOrCall_run, Outcome.andThen_eq_ok] at h
  obtain ⟨p, s₁, -, h⟩ := h
  split at h
  · obtain ⟨as, -, rfl⟩ := Outcome.map_eq_ok.1 h
    trivial
  · next hparen => split at h <;> cases h <;> exact hparen

theorem number_stopsBefore {lexeme : String} (h : number lexeme s = .ok e s') (t : Token) :
    e.StopsBefore t := by
  rw [number_run] at h
  split at h
  · split at h <;> cases h <;> trivial
  · cases h
    trivial

theorem primary_stopsBefore (h : primary inside s = .ok e s') : e.StopsBefore s'.token := by
  rw [primary_run] at h
  split at h
  · exact number_stopsBefore h _
  · cases h
    trivial
  · cases h
    trivial
  · obtain ⟨e', s₁, -, h⟩ := Outcome.andThen_eq_ok.1 h
    obtain ⟨_, -, rfl⟩ := Outcome.map_eq_ok.1 h
    trivial
  · exact nameOrCall_stopsBefore h
  · cases h
  · cases h

theorem operand_stopsBefore
    (hb : ∀ {s s' e}, behind s = .ok e s' → Expr.StopsBefore s'.token e)
    (h : operand behind inside s = .ok e s') : e.StopsBefore s'.token := by
  rw [operand_run] at h
  split at h
  · obtain ⟨e', he, rfl⟩ := Outcome.map_eq_ok.1 h
    have hoperand : e'.StopsBefore s'.token := hb he
    exact hoperand
  · exact primary_stopsBefore h

end Operands

/-- The last operation of a row ends where its right operand does. -/
theorem applyAll_stopsBefore {floor : Nat} {right : Nat → Reader Expr}
    (hr : ∀ n {s s' e}, right n s = .ok e s' → Expr.StopsBefore s'.token e)
    {ops : List (BinaryOp × Expr)} (h : many (operation floor right) s = .ok ops s') {l : Expr}
    (hl : l.StopsBefore s.token) : (applyAll l ops).StopsBefore s'.token := by
  refine many_cases (motive := fun s ops s' => ∀ l : Expr, l.StopsBefore s.token →
    (applyAll l ops).StopsBefore s'.token) ?stop ?pass ?item ?last h l hl
  case stop =>
    intro s s' h l hl
    obtain ⟨-, rfl, -⟩ | ⟨op, r, ht, -⟩ := operation_cases h
    · exact hl
    · cases ht
  case item =>
    intro s a s₁ ops s' h _ ih l _
    obtain ⟨ht, -⟩ | ⟨op, r, ht, -, -, hrun⟩ := operation_cases h
    · cases ht
    · cases ht
      have hright : r.StopsBefore s₁.token := hr _ hrun
      exact ih (.binary op l r) hright
  case pass =>
    intro s s₁ ops s' h
    obtain ⟨ht, -⟩ | ⟨op, r, ht, -⟩ := operation_cases h <;> cases ht
  case last =>
    intro s a s' h
    obtain ⟨ht, -⟩ | ⟨op, r, ht, -⟩ := operation_cases h <;> cases ht

theorem unaryAt_stopsBefore : ∀ {room : Nat} {s s' : Stream} {e : Expr},
    unaryAt room s = .ok e s' → e.StopsBefore s'.token
  | 0, _, _, _, h => by cases h
  | _ + 1, _, _, _, h => operand_stopsBefore unaryAt_stopsBefore h

theorem binaryAt_stopsBefore : ∀ {room floor : Nat} {s s' : Stream} {e : Expr},
    binaryAt room floor s = .ok e s' → e.StopsBefore s'.token
  | 0, _, _, _, _, h => by cases h
  | _ + 1, _, _, _, _, h => by
    rw [binaryAt, climb, bind_run, Outcome.andThen_eq_ok] at h
    obtain ⟨l, s₁, hl, h⟩ := h
    obtain ⟨ops, hops, rfl⟩ := Outcome.map_eq_ok.1 h
    exact applyAll_stopsBefore (fun _ _ _ _ => binaryAt_stopsBefore) hops
      (operand_stopsBefore unaryAt_stopsBefore hl)

/-- What is read as an expression ends where the reader stops. -/
theorem takesBefore_expression (room : Nat) :
    (expression room).TakesBefore fun next e ts =>
      (e.Spells ts ∧ e.Fits room) ∧ e.StopsBefore next := by
  intro s e s' hs h
  obtain ⟨us, hus, hread⟩ := takes_expression room hs h
  exact ⟨us, hus, hread, binaryAt_stopsBefore h⟩

/-! ## Reading statements without blocks -/

/-- The name and the arguments of an activity are legible if their tokens can be written. -/
theorem takesBefore_reference (room : Nat) :
    (activityReference (expression room)).TakesBefore fun next x ts =>
      ReferenceSpells next x.1 x.2 ts ∧
        ((∀ t ∈ ts, t.Written) → x.1.Legible ∧ Argument.AllLegible room x.2) := by
  rintro s ⟨p, as⟩ s' hs h
  rw [activityReference_run, Outcome.andThen_eq_ok] at h
  obtain ⟨p', s₁, hp, h⟩ := h
  obtain ⟨us, rfl, hne, hsp⟩ := takes_path hs hp
  split at h
  · obtain ⟨as', has, heq⟩ := Outcome.map_eq_ok.1 h
    cases heq
    obtain ⟨vs, rfl, hfits, ws, hws, hvs⟩ :=
      takes_arguments (takes_expression room) hs.of_behind has
    refine ⟨us ++ vs, Stream.behind_append.symm, ⟨words us, hsp, .inr ⟨ws, hws, ?_⟩⟩, fun hw => ?_⟩
    · rw [words_append, hvs]
    · rw [words_append, hvs] at hw
      simp only [List.forall_mem_append, List.forall_mem_cons] at hw
      exact ⟨hsp.legible hne hw.1, hws.legible hfits hw.2.2.1⟩
  · next hparen =>
    cases h
    exact ⟨us, rfl, ⟨words us, hsp, .inl ⟨rfl, rfl, hparen⟩⟩,
      fun hw => ⟨hsp.legible hne hw, by simp, rfl, by simp [Argument.allTokens]⟩⟩

section Statements

variable {line : Nat} {st : Statement}

theorem initiate_read (hs : s.Ends) (ht : s.token = .keyword .initiate)
    (h : initiate (expression room) line s = .ok st s') :
    ∃ us, s = s'.behind us ∧ StatementRead room s'.token st (words us) := by
  have hreference : ∀ mode : ActivityMode, mode ≠ .confirm → ∀ ⦃s₁⦄, s₁.Ends →
      (activityReference (expression room) s₁).map
          (fun x => Statement.activity mode x.1 x.2 line) = .ok st s' →
        ∃ us, s₁ = s'.behind us ∧ StatementRead room s'.token st (mode.tokens ++ words us) := by
    intro mode hmode s₁ hs₁ hrun
    obtain ⟨x, hx, rfl⟩ := Outcome.map_eq_ok.1 hrun
    obtain ⟨us, hus, hsp, hleg⟩ := takesBefore_reference room hs₁ hx
    exact ⟨us, hus, ⟨words us, rfl, hsp, fun hc => absurd hc hmode⟩,
      fun hw => hleg (List.forall_mem_append.1 hw).2⟩
  rw [initiate, bind_run, skip_run, Outcome.andThen_ok, bind_run, eat_run] at h
  split at h
  · next hand =>
    rw [Outcome.andThen_ok, if_pos rfl, bind_run] at h
    obtain ⟨_, s₂, hconfirm, h⟩ := Outcome.andThen_eq_ok.1 h
    obtain ⟨hword, rfl⟩ := keyword_eq_ok.1 hconfirm
    obtain ⟨us, hus, hread⟩ := hreference .initiateAndConfirm (by simp) hs.advance.advance.advance h
    have hthird := hs.advance.advance.eq_behind_cons (by simp [hword]) hus
    have hsecond := hs.advance.eq_behind_cons (by simp [hand]) hthird
    refine ⟨_, hs.eq_behind_cons (by simp [ht]) hsecond, ?_⟩
    have hwords : words (s.here :: s.advance.here :: s.advance.advance.here :: us) =
        ActivityMode.initiateAndConfirm.tokens ++ words us := by
      show s.token :: s.advance.token :: s.advance.advance.token :: words us = _
      rw [ht, hand, hword]
      rfl
    rwa [hwords]
  · obtain ⟨us, hus, hread⟩ := hreference .initiate (by simp) hs.advance h
    have hwords : words (s.here :: us) = ActivityMode.initiate.tokens ++ words us :=
      congrArg (· :: words us) ht
    exact ⟨_, hs.eq_behind_cons (by simp [ht]) hus, by rwa [hwords]⟩

theorem confirm_read (hs : s.Ends) (ht : s.token = .keyword .confirm)
    (h : confirm (expression room) line s = .ok st s') :
    ∃ us, s = s'.behind us ∧ StatementRead room s'.token st (words us) := by
  have hrest : confirmOperand (expression room) line s.advance = .ok st s' := h
  obtain ⟨p, as, rfl, hop, href⟩ | ⟨c, rfl, hact, hc⟩ := confirmOperand_cases hrest
  · obtain ⟨us, hus, hsp, hleg⟩ := takesBefore_reference room hs.advance href
    exact ⟨_, hs.eq_behind_cons (by simp [ht]) hus,
      ⟨words us, congrArg (· :: words us) ht, hsp, fun _ => hop⟩,
      fun hw => hleg (List.forall_mem_cons.1 hw).2⟩
  · obtain ⟨us, hus, ⟨hsp, hfit⟩, hstop⟩ := takesBefore_expression room hs.advance hc
    exact ⟨_, hs.eq_behind_cons (by simp [ht]) hus,
      ⟨words us, congrArg (· :: words us) ht, hsp, hstop⟩,
      fun hw => ⟨hsp.legible hfit (List.forall_mem_cons.1 hw).2, hact⟩⟩

theorem wait_read (hs : s.Ends) (ht : s.token = .keyword .wait)
    (h : wait (expression room) line s = .ok st s') :
    ∃ us, s = s'.behind us ∧ StatementRead room s'.token st (words us) := by
  have hcondition : (expression room >>= fun c => pure (Statement.wait c line)).TakesBefore
      fun next st ts =>
        ∃ c, st = .wait c line ∧ (c.Spells ts ∧ c.Fits room) ∧ c.StopsBefore next :=
    (takesBefore_expression room).map fun _ c _ hc => ⟨c, rfl, hc⟩
  obtain ⟨us, _, hus, hwords, _, _, vs, rfl, ⟨c, rfl, ⟨hsp, hfit⟩, hstop⟩, rfl⟩ :=
    ((takes_keyword .until_).bindBefore fun _ => hcondition).skip hs (by simp [ht]) h
  refine ⟨us, hus, ?_⟩
  rw [hwords, ht]
  refine ⟨⟨vs, rfl, hsp, hstop⟩, fun hw => ?_⟩
  simp only [List.forall_mem_append, List.forall_mem_cons] at hw
  exact hsp.legible hfit hw.2.2

theorem plainStatement_read (hs : s.Ends)
    (h : plainStatement (expression room) line s = .ok st s') :
    ∃ us, s = s'.behind us ∧ StatementRead room s'.token st (words us) := by
  have hexpr : ((expression room s).map fun e => Statement.expr e line) = .ok st s' →
      ∃ us, s = s'.behind us ∧ StatementRead room s'.token st (words us) := by
    intro h
    obtain ⟨e, he, rfl⟩ := Outcome.map_eq_ok.1 h
    obtain ⟨us, hus, ⟨hsp, hfit⟩, hstop⟩ := takesBefore_expression room hs he
    exact ⟨us, hus, ⟨hsp, hstop⟩, fun hw => hsp.legible hfit hw⟩
  rw [plainStatement_run] at h
  split at h
  · next n hn hassign =>
    obtain ⟨v, hv, rfl⟩ := Outcome.map_eq_ok.1 h
    obtain ⟨us, hus, ⟨hsp, hfit⟩, hstop⟩ := takesBefore_expression room hs.advance.advance hv
    have hadv : s.advance.token = .symbol .assign := by
      rw [Stream.token_advance_of_next (by simp [hassign]), hassign]
    have hs₁ := hs.advance.eq_behind_cons (by simp [hadv]) hus
    refine ⟨_, hs.eq_behind_cons (by simp [hn]) hs₁, ?_⟩
    have hwords : words (s.here :: s.advance.here :: us) =
        .name n :: .symbol .assign :: words us := by
      show s.token :: s.advance.token :: words us = _
      rw [hn, hadv]
    rw [hwords]
    refine ⟨⟨words us, rfl, hsp, hstop⟩, fun hw => ?_⟩
    simp only [List.forall_mem_cons] at hw
    exact ⟨hw.1, hsp.legible hfit hw.2.2⟩
  · exact hexpr h
  · cases h
  · exact hexpr h

end Statements

/-! ## Reading statements with blocks -/

/-- What a branch takes, with the word that another one begins with. -/
def BranchTurn (room : Nat) : Turn Branch → List Token → Prop
  | .item (.mk c body), ts =>
    ∃ us vs, (c.Spells us ∧ c.Fits room) ∧ BlockRead room body vs ∧
      ts = us ++ .keyword .then_ :: (vs ++ [.keyword .elsif])
  | .last (.mk c body), ts =>
    ∃ us vs, (c.Spells us ∧ c.Fits room) ∧ BlockRead room body vs ∧
      ts = us ++ .keyword .then_ :: vs
  | _, _ => False

section Blocks

variable {block : BlockReader} {line : Nat} {st : Statement}
  (hb : ∀ kind line stop, (block kind line stop).outcome.Takes (BlockRead room))

include hb

theorem takes_branch :
    (branch (expression room) block line).outcome.Takes (BranchTurn room) := by
  simp only [branch, Reporter.outcome_bind, Reporter.outcome_liftM, Reporter.outcome_ite,
    Reporter.outcome_pure]
  refine ((takes_expression room).bind fun c => (takes_keyword .then_).bind fun _ =>
    (hb _ _ _).bind fun body => Takes.ifEat (by simp) (takes_pure (Turn.item (Branch.mk c body)))
      (takes_pure (Turn.last (Branch.mk c body)))).mono ?_
  rintro t _ ⟨c, us, _, hc, ⟨_, _, _, rfl, ⟨body, vs, _, hbody, hlast, rfl⟩, rfl⟩, rfl⟩
  obtain ⟨_, ⟨rfl, rfl⟩, rfl⟩ | ⟨rfl, rfl⟩ := hlast
  · exact ⟨us, vs, hc, hbody, rfl⟩
  · exact ⟨us, vs, hc, hbody, by simp⟩

omit hb in
theorem branches_read {bs : List Branch} {ts : List Token} (h : Rounds (BranchTurn room) bs ts) :
    bs ≠ [] ∧ Legibly Branch.AllSpell (Branch.AllLegible room) bs ts := by
  induction h with
  | stop h => exact h.elim
  | pass h => exact h.elim
  | @item b bs ts ts' h hrest ih =>
    obtain ⟨c, body⟩ := b
    obtain ⟨us, vs, ⟨hc, hfit⟩, hbody, rfl⟩ := h
    refine ⟨by simp, ⟨us, vs, .keyword .elsif :: ts', by simp, hc, hbody.spells,
      .inr ⟨ih.1, ts', rfl, ih.2.spells⟩⟩, fun hw => ?_⟩
    simp only [List.forall_mem_append, List.forall_mem_cons] at hw
    obtain ⟨⟨hus, -, hvs, -⟩, hts'⟩ := hw
    exact ⟨hc.legible hfit hus, hbody.legible hvs, ih.2.legible hts'⟩
  | @last b ts h =>
    obtain ⟨c, body⟩ := b
    obtain ⟨us, vs, ⟨hc, hfit⟩, hbody, rfl⟩ := h
    refine ⟨by simp, ⟨us, vs, [], by simp, hc, hbody.spells, .inl ⟨rfl, rfl⟩⟩, fun hw => ?_⟩
    simp only [List.forall_mem_append, List.forall_mem_cons] at hw
    exact ⟨hc.legible hfit hw.1, hbody.legible hw.2.2, trivial⟩

theorem whileLoop_read (hs : s.Ends) (ht : s.token = .keyword .while_)
    (h : (whileLoop (expression room) block line).outcome s = .ok st s') :
    ∃ us, s = s'.behind us ∧ StatementRead room s'.token st (words us) := by
  simp only [whileLoop, Reporter.outcome_bind, Reporter.outcome_liftM, Reporter.outcome_pure] at h
  obtain ⟨us, _, hus, hwords, c, cs, _, ⟨hc, hfit⟩,
      ⟨_, _, _, rfl, ⟨body, bs, _, hbody, ⟨_, _, _, rfl, ⟨rfl, rfl⟩, rfl⟩, rfl⟩, rfl⟩, rfl⟩ :=
    ((takes_expression room).bind fun c => (takes_keyword .do_).bind fun _ =>
      (hb .whileLoop line false).bind fun body => (takes_endOf .whileLoop line).bind fun _ =>
        takes_pure (Statement.whileLoop c body line)).before.skip hs (by simp [ht]) h
  refine ⟨us, hus, ?_⟩
  rw [hwords, ht, List.append_nil]
  refine ⟨⟨cs, bs, rfl, hc, hbody.spells⟩, fun hw => ?_⟩
  simp only [List.forall_mem_append, List.forall_mem_cons] at hw
  obtain ⟨-, hcs, -, hbs, -⟩ := hw
  exact ⟨hc.legible hfit hcs, hbody.legible hbs⟩

theorem forLoop_read (hs : s.Ends) (ht : s.token = .keyword .for_)
    (h : (forLoop (expression room) block line).outcome s = .ok st s') :
    ∃ us, s = s'.behind us ∧ StatementRead room s'.token st (words us) := by
  simp only [forLoop, Reporter.outcome_bind, Reporter.outcome_liftM, Reporter.outcome_pure] at h
  obtain ⟨us, _, hus, hwords, n, _, _, rfl, ⟨_, _, _, rfl, ⟨e, es, _, ⟨he, hfit⟩, ⟨_, _, _, rfl,
      ⟨body, bs, _, hbody, ⟨_, _, _, rfl, ⟨rfl, rfl⟩, rfl⟩, rfl⟩, rfl⟩, rfl⟩, rfl⟩, rfl⟩ :=
    ((takes_name _).bind fun n => (takes_keyword .in_).bind fun _ =>
      (takes_expression room).bind fun e => (takes_keyword .do_).bind fun _ =>
        (hb .forLoop line false).bind fun body => (takes_endOf .forLoop line).bind fun _ =>
          takes_pure (Statement.forLoop n e body line)).before.skip hs (by simp [ht]) h
  refine ⟨us, hus, ?_⟩
  rw [hwords, ht, List.append_nil]
  refine ⟨⟨es, bs, rfl, he, hbody.spells⟩, fun hw => ?_⟩
  simp only [List.forall_mem_append, List.forall_mem_cons] at hw
  obtain ⟨-, ⟨hn, -⟩, -, hes, -, hbs, -⟩ := hw
  exact ⟨hn, he.legible hfit hes, hbody.legible hbs⟩

theorem conditional_read (hs : s.Ends) (ht : s.token = .keyword .if_)
    (h : (conditional (expression room) block line).outcome s = .ok st s') :
    ∃ us, s = s'.behind us ∧ StatementRead room s'.token st (words us) := by
  simp only [conditional, otherwise, Reporter.outcome_bind, Reporter.outcome_liftM,
    Reporter.outcome_many_bind, Reporter.outcome_ite, Reporter.outcome_pure] at h
  have hotherwise := Takes.ifEat (t := .keyword .else_) (by simp)
    ((hb .conditional line false).bind fun body => takes_pure (some body)) (takes_pure none)
  obtain ⟨us, _, hus, hwords, branches, bs, _, hbranches,
      ⟨rest, rs, _, hrest, ⟨_, _, _, rfl, ⟨rfl, rfl⟩, rfl⟩, rfl⟩, rfl⟩ :=
    ((takes_many (takes_branch hb)).bind fun branches => hotherwise.bind fun rest =>
      (takes_endOf .conditional line).bind fun _ =>
        takes_pure (Statement.conditional branches rest line)).before.skip hs (by simp [ht]) h
  obtain ⟨hne, hread⟩ := branches_read hbranches
  refine ⟨us, hus, ?_⟩
  rw [hwords, ht, List.append_nil]
  obtain ⟨_, ⟨body, vs, _, hbody, ⟨rfl, rfl⟩, rfl⟩, rfl⟩ | ⟨rfl, rfl⟩ := hrest
  · refine ⟨⟨bs, vs, by simp, hread.spells, hbody.spells⟩, fun hw => ?_⟩
    simp only [List.forall_mem_append, List.forall_mem_cons] at hw
    obtain ⟨-, hbs, ⟨-, hvs, -⟩, -⟩ := hw
    exact ⟨hne, hread.legible hbs, hbody.legible hvs⟩
  · refine ⟨⟨bs, rfl, hread.spells⟩, fun hw => ?_⟩
    simp only [List.forall_mem_append, List.forall_mem_cons] at hw
    exact ⟨hne, hread.legible hw.2.1⟩

/-- Every statement is spelled by the tokens it was read from, and legible. -/
theorem bareStatement_read (hs : s.Ends)
    (h : (bareStatement (expression room) block line).outcome s = .ok st s') :
    ∃ us, s = s'.behind us ∧ StatementRead room s'.token st (words us) := by
  rw [bareStatement_run] at h
  split at h
  · next ht => exact initiate_read hs ht h
  · next ht => exact confirm_read hs ht h
  · next ht => exact wait_read hs ht h
  · next ht => exact conditional_read hb hs ht h
  · next ht => exact whileLoop_read hb hs ht h
  · next ht => exact forLoop_read hb hs ht h
  · exact plainStatement_read hs h

/-- A statement, with the semicolon behind it, in front of the rest of its block. -/
theorem statement_read {rest : Block} {s₁ : Stream} (hs : s.Ends)
    (h : (statement (expression room) block).outcome s = .ok st s₁)
    (hrest : s₁.Ends → ∃ vs, s₁ = s'.behind vs ∧ BlockRead (room + 1) rest (words vs)) :
    ∃ us vs, s = s'.behind (us ++ vs) ∧
      StatementRead room ((words vs).head?.getD (.keyword .end_)) st (words us) ∧
        BlockRead (room + 1) rest (words vs) := by
  rw [statement_run, Outcome.andThen_eq_ok] at h
  obtain ⟨st, s₂, hbare, h⟩ := h
  obtain ⟨us, rfl, hread⟩ := bareStatement_read hb hs hbare
  have hs₂ := hs.of_behind
  split at h
  · next hsemicolon =>
    cases h
    obtain ⟨vs, hvs, hblock⟩ := hrest hs₂.advance
    have hwords : words (s₂.here :: vs) = .symbol .semicolon :: words vs :=
      congrArg (· :: words vs) hsemicolon
    refine ⟨us, s₂.here :: vs, ?_, ?_, ?_⟩
    · rw [Stream.behind_append, ← hs₂.eq_behind_cons (by simp [hsemicolon]) hvs]
    · rw [hwords]
      rwa [hsemicolon] at hread
    · rw [hwords]
      exact hblock.semicolon
  · cases h
    obtain ⟨vs, rfl, hblock⟩ := hrest hs₂
    refine ⟨us, vs, Stream.behind_append.symm, ?_, hblock⟩
    cases vs with
    | nil => exact ⟨hread.spells.before_keyword rfl, hread.legible⟩
    | cons v vs => exact hread

end Blocks

/-- What the statements of a block take, up to the word that ends them. -/
theorem takes_statements : ∀ (room : Nat) (kind : BlockKind) (line : Nat) (stopAtBranch : Bool),
    (statements .strict room kind line stopAtBranch).outcome.Takes (BlockRead room)
  | 0, _, _, _ => takes_failAt _
  | room + 1, kind, line, stopAtBranch => by
    intro s body s' hs h
    rw [statements, Reporter.outcome_many] at h
    refine many_cases (motive := fun s body s' => s.Ends →
      ∃ us, s = s'.behind us ∧ BlockRead (room + 1) body (words us)) ?stop ?pass ?item ?last h hs
    case stop =>
      intro s s' hr hs
      obtain ⟨-, hsemi, -⟩ | ⟨a, s₁, ht, -⟩ := round_cases hr
      · obtain ⟨us, hus, hsemicolons⟩ := takes_semicolons hs hsemi
        exact ⟨us, hus, .nil hsemicolons⟩
      · cases ht
    case pass =>
      intro s s₁ body s' hr
      obtain ⟨ht, -⟩ | ⟨a, s₁, ht, -⟩ := round_cases hr <;> cases ht
    case item =>
      intro s st s₂ rest s' hr _ ih hs
      obtain ⟨ht, -⟩ | ⟨_, s₁, ht, hsemi, hst⟩ := round_cases hr
      · cases ht
      · cases ht
        obtain ⟨ss, rfl, hss⟩ := takes_semicolons hs hsemi
        obtain ⟨us, vs, rfl, hread, hrest⟩ :=
          statement_read (takes_statements room) hs.of_behind hst ih
        refine ⟨ss ++ (us ++ vs), Stream.behind_append.symm, ?_⟩
        rw [words_append, words_append]
        exact .cons hss hread hrest
    case last =>
      intro s st s' hr
      obtain ⟨ht, -⟩ | ⟨a, s₁, ht, -⟩ := round_cases hr <;> cases ht

end Grammar

end OpsLang
