import OpsLang.Proofs.Entries.Item
import OpsLang.Proofs.Halting.File
import OpsLang.Proofs.Repeating.File

/-!
# Rows that come to no verdict

A row of tokens need not end in an end of text. Past its last token a reader stays at that token,
so that what repeats itself by taking such a token goes on for ever. Two kinds of token are
repeated so (`Token.Stalls`) : a semicolon, wherever semicolons are passed over, and an operand,
which is a whole statement wherever a statement may stand. On a row that ends in no such token every
strict reading comes to a verdict, and the reading of an expression comes to one on every row.

On a row that ends in a token that stalls, the reading is that of a row in which the token stands
again and again. So it comes to a verdict if and only if some number of them settles the verdict,
whatever stands behind (`Settles`, `isReached_iff_settles`) : if none does, an end of text behind
them is reached, and without it nothing ends. Each token that stalls is the last of rows on which
blocks, procedures and files never end (`endless_of_stalls`).
-/

namespace OpsLang

open Grammar Reader

/-! ## Verdicts that are reached -/

/-- The verdict is a value or a diagnostic. -/
def Verdict.IsReached {α : Type} (v : Verdict α) : Prop :=
  (∃ a, v = .accepted a) ∨ ∃ d, v = .refused d

theorem Verdict.not_isReached_endless {α : Type} : ¬(Verdict.endless : Verdict α).IsReached := by
  rintro (⟨_, h⟩ | ⟨_, h⟩) <;> cases h

theorem Outcome.Within.isReached {α : Type} {s : Stream} {o : Outcome α} (h : o.Within s) :
    o.verdict.IsReached := by
  cases o with
  | ok a s' => exact .inl ⟨a, rfl⟩
  | fail d s' => exact .inr ⟨d, rfl⟩
  | endless => exact h.elim

/-- The token is not repeated for ever where it is the last of a row. -/
abbrev Token.Passes (t : Token) : Prop :=
  ¬t.Stalls

section Reached

variable {Q : Token → Prop} {ts : List Located}

/-- A row without tokens counts as an end of text. -/
theorem Stream.lastIs_ofTokens (heof : Q .eof) (h : ∀ t ∈ ts.getLast?, Q t.token) :
    (Stream.ofTokens ts).LastIs Q := by
  cases ts with
  | nil => exact lastIs_single.2 heof
  | cons t ts =>
    obtain ⟨u, hu⟩ : ∃ u, u ∈ (t :: ts).getLast? := ⟨_, List.getLast?_eq_some_getLast (by simp)⟩
    exact ⟨u, hu, h u hu⟩

theorem haltsOn_endOfInput : endOfInput.HaltsOn Q :=
  haltsOn_peek.bind fun _ => (haltsOn_pure _).ite (proceedsOn_failAt _).haltsOn

theorem haltsOn_finish {α : Type} (hsemi : ¬Q (.symbol .semicolon)) (a : α) :
    (finish a).HaltsOn Q :=
  (haltsOn_semicolons hsemi).bind fun _ => haltsOn_endOfInput.bind fun _ => haltsOn_pure _

/-- The reading of an expression ends on every row. -/
theorem parseExpr_isReached (ts : List Located) : (parseExpr ts).IsReached :=
  have hreader : (do
      let e ← expression maxNesting
      endOfInput
      return e : Reader Expr).HaltsOn fun _ => True :=
    (grounded_expression maxNesting).halts.bind fun _ =>
      haltsOn_endOfInput.bind fun _ => haltsOn_pure _
  (hreader _ (Stream.lastIs_ofTokens trivial fun _ _ => trivial)).isReached

theorem parseDeclaration_isReached (h : ∀ t ∈ ts.getLast?, t.token ≠ .symbol .semicolon) :
    (parseDeclaration ts).IsReached := by
  have hs : (Stream.ofTokens ts).LastIs (· ≠ .symbol .semicolon) :=
    Stream.lastIs_ofTokens (by simp) h
  have hsemi : ¬(Token.symbol .semicolon ≠ .symbol .semicolon) := not_not_intro rfl
  rw [parseDeclaration_eq]
  exact ((proceedsOn_declaration (Q := (· ≠ .symbol .semicolon)) hsemi _ _ hs).within.andThen
    fun d s hr => haltsOn_finish (Q := (· ≠ .symbol .semicolon)) hsemi d s
      (hr.lastIs hs)).isReached

theorem not_passes_semicolon : ¬Token.Passes (.symbol .semicolon) :=
  not_not_intro (.inl rfl)

theorem haltsOn_block (kind : BlockKind) (line : Nat) (stopAtBranch : Bool) :
    (statements .strict maxNesting kind line stopAtBranch).outcome.HaltsOn Token.Passes :=
  haltsOn_statements not_passes_semicolon (fun _ ht => not_not_intro (.inr ht)) _ _ _ _

theorem lastIs_passes (h : ∀ t ∈ ts.getLast?, t.token.Passes) :
    (Stream.ofTokens ts).LastIs Token.Passes :=
  Stream.lastIs_ofTokens (by simp [Token.Passes, Token.Stalls, Token.IsOperand]) h

theorem parseFile_isReached (h : ∀ t ∈ ts.getLast?, t.token.Passes) :
    (parseFile ts).IsReached := by
  have hround := turnsOn_fileRound not_passes_semicolon fun kind line => haltsOn_block kind line _
  rw [parseFile_eq]
  exact ((hround.haltsOn_many _ (lastIs_passes h)).map _).isReached

theorem parseProcedure_isReached (h : ∀ t ∈ ts.getLast?, t.token.Passes) :
    (parseProcedure ts).IsReached := by
  have hs := lastIs_passes h
  have hprocedure := proceedsOn_procedure fun kind line => haltsOn_block kind line _
  rw [procedure_outcome] at hprocedure
  rw [parseProcedure_eq]
  exact ((hprocedure _ hs).within.andThen fun p s hr =>
    haltsOn_finish not_passes_semicolon p s (hr.lastIs hs)).isReached

theorem parseBlock_isReached (kind : BlockKind) (h : ∀ t ∈ ts.getLast?, t.token.Passes) :
    (parseBlock kind ts).IsReached := by
  have hs := lastIs_passes h
  have hblock (line : Nat) : (blockAt maxNesting kind line).HaltsOn Token.Passes :=
    (haltsOn_block _ _ _).bind fun _ => (haltsOn_endOf _ _).bind fun _ => haltsOn_pure _
  rw [parseBlock_eq]
  exact ((hblock _ _ hs).andThen fun body s hr =>
    haltsOn_finish not_passes_semicolon body s (hr.lastIs hs)).isReached

end Reached

/-! ## Verdicts that are settled -/

/-- Behind `us` some number of the token `t` settles the verdict, whatever stands behind them. -/
def Settles {α : Type} (parse : List Located → Verdict α) (us : List Located) (t : Located) :
    Prop :=
  ∃ n v, ∀ rest, parse (us ++ (List.replicate n t ++ rest)) = v

section Settled

variable {α : Type} {parse : List Located → Verdict α} {r : Reader α} {us : List Located}
  {t : Located}

theorem Stream.endsWith_ofTokens : (Stream.ofTokens (us ++ [t])).EndsWith t := by
  cases us with
  | nil => rfl
  | cons u us =>
    show ((u :: us) ++ [t]).getLast? = some t
    exact List.getLast?_concat

theorem Stream.more_ofTokens (k : Nat) (rest : List Located) :
    (Stream.ofTokens (us ++ [t])).more t k rest =
      .ofTokens (us ++ (List.replicate (k + 1) t ++ rest)) := by
  cases us <;> simp [more, ofTokens, List.replicate_succ]

/-- A reading that does not tell the end of the row from more of its last token comes to a verdict
where enough of these settle it. -/
theorem isReached_iff_of_repeats (hparse : ∀ ts, parse ts = (r (.ofTokens ts)).verdict)
    (hr : Repeats t r) (hclosed : ∀ ts, EndsLast ts → (parse ts).IsReached) :
    (parse (us ++ [t])).IsReached ↔ Settles parse us t := by
  have hrow : RepeatsAt t r (.ofTokens (us ++ [t])) := hr _ Stream.endsWith_ofTokens
  have hmore (k : Nat) (rest : List Located) :
      parse (us ++ (List.replicate (k + 1) t ++ rest)) =
        (r ((Stream.ofTokens (us ++ [t])).more t k rest)).verdict := by
    rw [hparse, Stream.more_ofTokens]
  rw [hparse]
  unfold RepeatsAt at hrow
  cases hrun : r (.ofTokens (us ++ [t])) with
  | ok a s' =>
    rw [hrun] at hrow
    obtain ⟨-, c, hrow⟩ := hrow
    refine iff_of_true (.inl ⟨a, rfl⟩) ⟨c + 1, .accepted a, fun rest => ?_⟩
    obtain ⟨k', -, -, hk⟩ := hrow c rest (.inr (Nat.le_refl c))
    rw [hmore, hk]
    rfl
  | fail d s' =>
    rw [hrun] at hrow
    obtain ⟨c, hrow⟩ := hrow
    refine iff_of_true (.inr ⟨d, rfl⟩) ⟨c + 1, .refused d, fun rest => ?_⟩
    obtain ⟨z, hz⟩ := hrow c rest (.inr (Nat.le_refl c))
    rw [hmore, hz]
    rfl
  | endless =>
    rw [hrun] at hrow
    refine iff_of_false Verdict.not_isReached_endless fun ⟨n, v, hv⟩ => ?_
    -- Without an end of text nothing ends, and with one something does.
    have hnever : v = .endless := by
      have h := hmore n []
      rw [hrow n, List.append_nil, List.replicate_succ'] at h
      exact (hv [t]).symm.trans h
    have hends := hclosed (us ++ (List.replicate n t ++ [⟨.eof, t.span⟩]))
      ⟨⟨.eof, t.span⟩, by simp [← List.append_assoc], rfl⟩
    rw [hv, hnever] at hends
    exact Verdict.not_isReached_endless hends

/-- The last token of the row is none of `Q`, or it settles the verdict together with more of it. -/
def SettledOn (Q : Token → Prop) (parse : List Located → Verdict α) (ts : List Located) : Prop :=
  ∀ us t, ts = us ++ [t] → Q t.token → Settles parse us t

theorem isReached_iff_settledOn {Q : Token → Prop} (ts : List Located) (heof : ¬Q .eof)
    (hparse : ∀ ts, parse ts = (r (.ofTokens ts)).verdict)
    (hr : ∀ t : Located, Q t.token → Repeats t r)
    (hreached : ∀ ts : List Located, (∀ t ∈ ts.getLast?, ¬Q t.token) → (parse ts).IsReached) :
    (parse ts).IsReached ↔ SettledOn Q parse ts := by
  obtain rfl | ⟨us, t, rfl⟩ := List.eq_nil_or_concat' ts
  case inl => exact iff_of_true (hreached [] (by simp)) fun us t h => absurd h (by simp)
  case inr =>
    by_cases ht : Q t.token
    case pos =>
      have hclosed (ts : List Located) (hts : EndsLast ts) : (parse ts).IsReached := by
        obtain ⟨u, hu, hueof⟩ := hts
        refine hreached ts fun v hv hQ => heof ?_
        obtain rfl := Option.some.inj (hu.symm.trans hv)
        exact hueof ▸ hQ
      rw [isReached_iff_of_repeats hparse (hr t ht) hclosed]
      refine ⟨fun h us' t' heq _ => ?_, fun h => h us t rfl ht⟩
      obtain ⟨rfl, hlast⟩ := List.append_inj' heq rfl
      obtain rfl := List.singleton_inj.1 hlast
      exact h
    case neg =>
      refine iff_of_true (hreached _ fun v hv => ?_) fun us' t' heq ht' => ?_
      · obtain rfl : t = v := by simpa using hv
        exact ht
      · obtain ⟨-, hlast⟩ := List.append_inj' heq rfl
        obtain rfl := List.singleton_inj.1 hlast
        exact absurd ht' ht

end Settled

section Entries

variable {t : Located}

theorem repeats_finish {α : Type} (a : α) : Repeats t (finish a) :=
  have hend : Repeats t endOfInput :=
    repeats_peek.bind fun _ => (repeats_pure _).ite (repeats_failAt fun _ _ _ => rfl)
  repeats_semicolons.bind fun _ => hend.bind fun _ => repeats_pure _

theorem repeats_blockAt (ht : t.token.Stalls) (room : Nat) (kind : BlockKind) (line : Nat) :
    Repeats t (blockAt room kind line) :=
  (repeats_statements ht _ _ _ _).bind fun _ => (repeats_endOf ht _ _).bind fun _ => repeats_pure _

variable (ts : List Located)

theorem parseDeclaration_isReached_iff : (parseDeclaration ts).IsReached ↔
    SettledOn (· = .symbol .semicolon) parseDeclaration ts :=
  isReached_iff_settledOn ts (by simp) (r := declaration maxNesting >>= finish)
    (fun _ => parseDeclaration_eq)
    (fun _ _ => (repeats_declaration _).bind repeats_finish) fun _ => parseDeclaration_isReached

theorem not_stalls_eof : ¬Token.Stalls .eof := by
  simp [Token.Stalls, Token.IsOperand]

theorem parseFile_isReached_iff : (parseFile ts).IsReached ↔
    SettledOn Token.Stalls parseFile ts := by
  let reader : Reader SourceFile := do return ⟨← many (fileRoundAt maxNesting)⟩
  have hparse (ts : List Located) : parseFile ts = (reader (.ofTokens ts)).verdict := by
    have hrun : reader (.ofTokens ts) = (many (fileRoundAt maxNesting) (.ofTokens ts)).andThen
        fun items s => .ok ⟨items⟩ s := rfl
    rw [parseFile_eq, fileRound_outcome, hrun]
    cases many (fileRoundAt maxNesting) (.ofTokens ts) <;> rfl
  exact isReached_iff_settledOn ts not_stalls_eof hparse
    (fun _ ht => (Repeats.many (repeats_fileRoundAt ht _)).bind fun _ => repeats_pure _)
    fun _ => parseFile_isReached

theorem parseProcedure_isReached_iff : (parseProcedure ts).IsReached ↔
    SettledOn Token.Stalls parseProcedure ts :=
  isReached_iff_settledOn ts not_stalls_eof (r := procedureAt maxNesting >>= finish)
    (fun _ => parseProcedure_eq) (fun _ ht => (repeats_procedureAt ht _).bind repeats_finish)
    fun _ => parseProcedure_isReached

theorem parseBlock_isReached_iff (kind : BlockKind) : (parseBlock kind ts).IsReached ↔
    SettledOn Token.Stalls (parseBlock kind) ts :=
  isReached_iff_settledOn ts not_stalls_eof
    (r := do blockAt maxNesting kind (← here).line >>= finish)
    (fun _ => parseBlock_eq)
    (fun _ ht => repeats_here.bind fun _ => (repeats_blockAt ht _ _ _).bind repeats_finish)
    fun _ => parseBlock_isReached kind

end Entries

/-! ## Readings that never end -/

section Endless

variable {t : Located}

/-- A semicolon that is the last token is passed over again and again. -/
theorem semicolons_single (h : t.token = .symbol .semicolon) :
    semicolons ⟨t, []⟩ = .endless := by
  have hround : semicolonRound ⟨t, []⟩ = .ok .pass ⟨t, []⟩ := by
    rw [semicolonRound_run]
    exact if_pos h
  rw [semicolons_run, many_of_stays hround (.inl rfl) (Nat.le_refl _)]
  rfl

/-- An operand that is the last token is an expression, and reading it stays there. -/
theorem expression_single (h : t.token.IsOperand) (room : Nat) :
    ∃ e, expression (room + 1) ⟨t, []⟩ = .ok e ⟨t, []⟩ := by
  have hops : many (operation 1 (binaryAt room)) ⟨t, []⟩ = .ok [] ⟨t, []⟩ := by
    refine many_stop ?_
    obtain ⟨t, span⟩ := t
    cases t <;> simp_all [operation_run, Stream.token, BinaryOp.ofToken?, Token.IsOperand]
  have hoperand : ∃ e, operand (unaryAt room) (binaryAt room 1) ⟨t, []⟩ = .ok e ⟨t, []⟩ := by
    obtain ⟨t, span⟩ := t
    cases t with
    | name n =>
      have hmembers : many memberRound ⟨⟨.name n, span⟩, []⟩ = .ok [] ⟨⟨.name n, span⟩, []⟩ :=
        many_stop (by simp [memberRound_run, Stream.token])
      refine ⟨.name n, ?_⟩
      rw [operand_of_name rfl, nameOrCall_run, path_run, name_run]
      simp [Stream.token, Stream.advance, hmembers]
    | number lexeme =>
      refine ⟨.number (.ofLexeme lexeme), ?_⟩
      simp [operand_run, primary_run, number_run, Stream.token, Stream.advance, UnaryOp.ofToken?]
    | string content => exact ⟨.string content, rfl⟩
    | truth value => exact ⟨.truth value, rfl⟩
    | _ => exact h.elim
  obtain ⟨e, he⟩ := hoperand
  exact ⟨applyAll e [], Outcome.andThen_eq_ok.2 ⟨e, _, he, Outcome.map_eq_ok.2 ⟨[], hops, rfl⟩⟩⟩

/-- An operand that is the last token is a statement, and reading it stays there. -/
theorem statement_single (h : t.token.IsOperand) (room : Nat) (block : BlockReader) :
    ∃ st, (statement (expression (room + 1)) block).outcome ⟨t, []⟩ = .ok st ⟨t, []⟩ := by
  obtain ⟨e, he⟩ := expression_single h room
  refine ⟨.expr e t.line, ?_⟩
  obtain ⟨t, span⟩ := t
  cases t <;> first
    | exact h.elim
    | simp [statement_run, bareStatement_run, plainStatement_run, Stream.token, Stream.line,
        Stream.next, he]

/-- A token that stalls and is the last is read again and again inside a block. -/
theorem statements_single (h : t.token.Stalls) (room : Nat) (kind : BlockKind) (line : Nat)
    (stopAtBranch : Bool) :
    (statements .strict (room + 2) kind line stopAtBranch).outcome ⟨t, []⟩ = .endless := by
  rw [statements, Reporter.outcome_many]
  obtain h | h := h
  case inl =>
    refine many_of_endless ?_
    rw [round_run, semicolons_single h]
    rfl
  case inr =>
    obtain ⟨st, hst⟩ := statement_single h room (statements .strict (room + 1))
    have hne : t.token ≠ .symbol .semicolon := by
      intro heq
      rwa [heq] at h
    have hends : endsRun stopAtBranch t.token = false := by
      generalize t.token = token at h
      cases token <;> simp_all [endsRun, Token.IsOperand]
    have hround : (round .strict kind line stopAtBranch (statement (expression (room + 1))
        (statements .strict (room + 1)))).outcome ⟨t, []⟩ = .ok (.item st) ⟨t, []⟩ := by
      rw [round_run, semicolons_of_ne (s := ⟨t, []⟩) hne, Outcome.andThen_ok,
        if_neg (show Stream.token ⟨t, []⟩ ≠ .eof from h.ne_eof)]
      simp [Stream.token, hends, attempt_run, hst]
    exact many_of_stays hround (.inr ⟨st, rfl⟩) (Nat.le_refl _)

section Rows

variable (h : t.token.Stalls)

include h

theorem parseBlock_single (kind : BlockKind) : parseBlock kind [t] = .endless := by
  have hst : (statements .strict maxNesting kind t.line false).outcome ⟨t, []⟩ = .endless :=
    statements_single h 126 kind t.line false
  have hblock : blockAt maxNesting kind t.line ⟨t, []⟩ = .endless := by
    rw [blockAt, bind_run, hst, Outcome.andThen_endless]
  rw [parseBlock_eq]
  exact congrArg (fun o => (o.andThen fun body s => finish body s).verdict) hblock

theorem procedureAt_single (span : Span) : procedureAt maxNesting (.ofTokens
    [⟨.keyword .procedure, span⟩, ⟨.name "P", span⟩, ⟨.keyword .main, span⟩, t]) = .endless := by
  have hst (line : Nat) :
      (statements .strict maxNesting .main line false).outcome ⟨t, []⟩ = .endless :=
    statements_single h 126 .main line false
  simp [procedureAt, keyword_run, name_run, optionalSectionAt_run, mainAhead_run, sectionAt,
    Stream.ofTokens, Stream.token, Stream.advance, BlockKind.closer, hst]

theorem exists_endless_procedure : ∃ ts, parseFile (ts ++ [t]) = .endless ∧
    parseProcedure (ts ++ [t]) = .endless := by
  have hprocedure := procedureAt_single h t.span
  refine ⟨[⟨.keyword .procedure, t.span⟩, ⟨.name "P", t.span⟩, ⟨.keyword .main, t.span⟩], ?file,
    ?procedure⟩
  case file =>
    have hround : fileRoundAt maxNesting (.ofTokens
        [⟨.keyword .procedure, t.span⟩, ⟨.name "P", t.span⟩, ⟨.keyword .main, t.span⟩, t]) =
          .endless := by
      rw [fileRoundAt_of_ne_eof (semicolons_of_ne (by simp [Stream.ofTokens, Stream.token]))
        (by simp [Stream.ofTokens, Stream.token]), itemAt_run]
      exact congrArg (fun o => (o.map Item.procedure).map Turn.item) hprocedure
    rw [parseFile_eq, fileRound_outcome]
    exact congrArg (fun o => (o.map SourceFile.mk).verdict) (many_of_endless hround)
  case procedure =>
    rw [parseProcedure_eq]
    exact congrArg (fun o => (o.andThen fun p s => finish p s).verdict) hprocedure

end Rows

section Semicolons

variable (h : t.token = .symbol .semicolon)

include h

theorem parseFile_semicolon : parseFile [t] = .endless := by
  have hround : fileRound.outcome ⟨t, []⟩ = .endless := by
    rw [fileRound_run, semicolons_single h, Outcome.andThen_endless]
  rw [parseFile_eq]
  exact congrArg (fun o => (o.map SourceFile.mk).verdict) (many_of_endless hround)

theorem exists_endless_declaration : ∃ ts, parseDeclaration (ts ++ [t]) = .endless := by
  have hdeclaration : declaration maxNesting (.ofTokens [⟨.keyword .type, t.span⟩,
      ⟨.name "X", t.span⟩, ⟨.name "u8", t.span⟩, t]) =
        .ok (.type "X" (.primitive .u8) t.span.line) ⟨t, []⟩ := by
    have hmembers : many memberRound ⟨t, []⟩ = .ok [] ⟨t, []⟩ :=
      many_stop (by simp [memberRound_run, Stream.token, h])
    have hprimitive : Primitive.ofText? "u8" = some .u8 := by decide
    simp [declaration, declarationOf_run, typeDeclaration_run, name_run, typeOf_run, namedType_run,
      path_run, Stream.ofTokens, Stream.token, Stream.advance, Stream.line, hmembers, hprimitive]
    rfl
  refine ⟨[⟨.keyword .type, t.span⟩, ⟨.name "X", t.span⟩, ⟨.name "u8", t.span⟩], ?_⟩
  have hfinish : finish (.type "X" (.primitive .u8) t.span.line : Declaration) ⟨t, []⟩ =
      .endless := by
    rw [finish, bind_run, semicolons_single h, Outcome.andThen_endless]
  rw [parseDeclaration_eq]
  exact (congrArg (fun o => (o.andThen fun d s => finish d s).verdict) hdeclaration).trans
    (congrArg Outcome.verdict hfinish)

end Semicolons

/-- Each token that stalls is the last of rows on which the readings of blocks, procedures and files
never end, and a semicolon is one on which the reading of a declaration never ends. -/
theorem endless_of_stalls :
    (t.token.Stalls → (∀ kind, parseBlock kind [t] = .endless) ∧
      ∃ ts, parseFile (ts ++ [t]) = .endless ∧ parseProcedure (ts ++ [t]) = .endless) ∧
    (t.token = .symbol .semicolon → parseFile [t] = .endless ∧
      ∃ ts, parseDeclaration (ts ++ [t]) = .endless) :=
  ⟨fun h => ⟨parseBlock_single h, exists_endless_procedure h⟩,
    fun h => ⟨parseFile_semicolon h, exists_endless_declaration h⟩⟩

/-- A strict reading comes to a verdict on exactly these rows, whether they end in an end of text or
not : an expression on all of them, a declaration on those where a last semicolon, and a file,
a procedure and a block on those where a last token that stalls settles the verdict. -/
theorem isReached_iff_settles (ts : List Located) :
    (parseExpr ts).IsReached ∧
      ((parseDeclaration ts).IsReached ↔ SettledOn (· = .symbol .semicolon) parseDeclaration ts) ∧
      ((parseFile ts).IsReached ↔ SettledOn Token.Stalls parseFile ts) ∧
      ((parseProcedure ts).IsReached ↔ SettledOn Token.Stalls parseProcedure ts) ∧
      ∀ kind, (parseBlock kind ts).IsReached ↔ SettledOn Token.Stalls (parseBlock kind) ts :=
  ⟨parseExpr_isReached ts, parseDeclaration_isReached_iff ts, parseFile_isReached_iff ts,
    parseProcedure_isReached_iff ts, parseBlock_isReached_iff ts⟩

/-- A row that begins with no item is refused there, whatever it ends in. But a semicolon alone is
passed over for ever. -/
theorem isReached_iff_settles_semicolon :
    let row (ts : List Token) : List Located := ts.map fun t => ⟨t, ⟨0, 1, 1, 1⟩⟩
    SettledOn Token.Stalls parseFile (row [.symbol .rightParen, .symbol .semicolon]) ∧
      ¬SettledOn Token.Stalls parseFile (row [.symbol .semicolon]) := by
  intro row
  constructor
  · let s := Stream.ofTokens (row [.symbol .rightParen, .symbol .semicolon])
    have hround : fileRoundAt maxNesting s =
        .fail (s.expecting ["'procedure'", "'namespace'", "'type'"]) s := by
      have htoken : s.token = .symbol .rightParen := rfl
      rw [fileRoundAt_of_ne_eof (semicolons_of_ne (by simp [htoken])) (by simp [htoken]),
        itemAt_run, htoken]
      rfl
    have hfile : parseFile (row [.symbol .rightParen, .symbol .semicolon]) =
        .refused (s.expecting ["'procedure'", "'namespace'", "'type'"]) := by
      rw [parseFile_eq, fileRound_outcome]
      exact congrArg (fun o => (o.map SourceFile.mk).verdict) (many_of_fail hround)
    exact (isReached_iff_settles _).2.2.1.1 (.inr ⟨_, hfile⟩)
  · exact mt (isReached_iff_settles _).2.2.1.2
      (parseFile_semicolon (t := ⟨.symbol .semicolon, ⟨0, 1, 1, 1⟩⟩) rfl ▸
        Verdict.not_isReached_endless)

/-- A semicolon without an end of text is a row on which the reading of a file never ends. -/
theorem exists_row_without_verdict :
    let ts : List Located := [⟨.symbol .semicolon, ⟨0, 1, 1, 1⟩⟩]
    parseFile ts = .endless ∧ ¬(parseFile ts).IsReached := by
  intro ts
  have hfile : parseFile ts = .endless := parseFile_semicolon rfl
  exact ⟨hfile, hfile ▸ Verdict.not_isReached_endless⟩

end Endless

end OpsLang
