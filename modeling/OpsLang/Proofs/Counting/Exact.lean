import OpsLang.Proofs.Counting.File

/-!
# The limit of the nesting

Each production can be entered at any level that can be reached (`Production.EnteredAt`), with
as many levels left as there are up to `maxNesting`. Its reading with a counter is exact
(`Exact`) : it comes back to the level it was entered at whatever it comes to, the counter tells
the number of open constructs at every time and never exceeds `maxNesting`, and the nesting is
reported to be too deep exactly if without the limit more constructs would be open at some time.
`nesting_exact` says so of all productions, in both modes, and of the recovering reading of a
file.
-/

namespace OpsLang

open Grammar

/-! ## Exact readings -/

/-- The nesting of a reading from `s`, with the counter at `n` and the result `x`, is counted
exactly. Given a limit, `run` is that reading with a counter. -/
structure Exact {α : Type} (n : Nat) (s : Stream) (x : List Diagnostic × Outcome α)
    (run : Nat → Run α) : Prop where
  /-- The counter changes nothing of what is read. -/
  result : ((run maxNesting).reports, (run maxNesting).outcome) = x
  /-- The reading comes to an end, be it a value or a fault. -/
  returns : x.2.Within s
  restored : (run maxNesting).level = n
  balanced : openCount n (run maxNesting).log = n
  /-- At every time the counter tells how many constructs are open. -/
  counted : ∀ es e es', (run maxNesting).log = es ++ e :: es' →
    e.level = openCount n (es ++ [e]) ∧ n ≤ e.level ∧ e.level ≤ maxNesting
  /-- A construct is refused only where as many are open as may be. -/
  refused : RaisesTooDeep x ↔
    ∃ es c es', (run maxNesting).log = es ++ ⟨.refused, c, maxNesting⟩ :: es' ∧
      openCount n es = maxNesting
  /-- The nesting is too deep if with a higher limit more constructs are open at some time. -/
  tooDeep : ∀ limit, maxNesting < limit →
    (RaisesTooDeep x ↔ ∃ es es', (run limit).log = es ++ es' ∧ maxNesting < openCount n es)
  /-- A nesting that is not too deep is read as without the limit. -/
  unlimited : ¬RaisesTooDeep x → ∀ limit, maxNesting < limit → run limit = run maxNesting

theorem Run.Refused.of_log {α : Type} {u : Run α} {es es' : List Event} {c : Construct}
    {level : Nat} (h : u.log = es ++ ⟨.refused, c, level⟩ :: es') : u.Refused :=
  ⟨⟨.refused, c, level⟩, by simp [h], rfl⟩

theorem Exact.of_counts {α : Type} {n : Nat} {s : Stream} {x : List Diagnostic × Outcome α}
    {run : Nat → Run α} (hn : n ≤ maxNesting) (hreturns : x.2.Within s)
    (h : ∀ limit, maxNesting < limit → Counts maxNesting n s x (run maxNesting) (run limit)) :
    Exact n s x run := by
  obtain ⟨hresult, hlevel, htells, hbalanced, -, hraises, -, -⟩ := h _ (Nat.lt_succ_self _)
  refine ⟨hresult, hreturns, hlevel, hbalanced, ?counted, ?refused, ?tooDeep, ?unlimited⟩
  case counted =>
    intro es e es' hlog
    rw [hlog] at htells
    obtain ⟨htold, hlow, hle, -⟩ := htells.level
    exact ⟨htold, hlow, hle⟩
  case refused =>
    rw [← hraises]
    constructor
    · rintro ⟨⟨act, c, l⟩, he, rfl⟩
      obtain ⟨es, es', hlog⟩ := List.append_of_mem he
      rw [hlog] at htells
      obtain ⟨htold, -, -, hlimit⟩ := htells.level
      obtain rfl : l = maxNesting := hlimit rfl
      exact ⟨es, c, es', hlog, by simpa [Event.after] using htold.symm⟩
    · rintro ⟨es, c, es', hlog, -⟩
      exact .of_log hlog
  case tooDeep =>
    intro limit hlt
    rw [← hraises]
    constructor
    · intro hrefused
      obtain ⟨-, hnot⟩ | ⟨es, c, es₁, es₂, hlog, hhigher⟩ := (h limit hlt).higher
      · exact absurd hrefused hnot
      · rw [hlog] at htells
        have htold := htells.level.1
        refine ⟨es ++ [⟨.opened, c, maxNesting + 1⟩], es₂, by simp [hhigher], ?_⟩
        rw [openCount_append] at htold ⊢
        exact Nat.lt_succ_of_le (Nat.le_of_eq htold)
    · rintro ⟨es, es', hlog, hdeep⟩
      obtain ⟨hsame, -⟩ | ⟨xs, c, ys, -, hrefused, -⟩ := (h limit hlt).higher
      · rw [← hsame, hlog] at htells
        exact absurd (htells.openCount_le hn) (Nat.not_le_of_lt hdeep)
      · exact .of_log hrefused
  case unlimited =>
    intro hnot limit hlt
    obtain ⟨hsame, -⟩ | ⟨xs, c, ys, -, hrefused, -⟩ := (h limit hlt).higher
    · exact hsame
    · exact absurd (hraises.1 (.of_log hrefused)) hnot

/-! ## Productions that come to an end -/

namespace Grammar

open Reader

section Statements

variable {expr : Reader Expr} (he : expr.Proceeds) {block : BlockReader}
  (hb : ∀ kind line stop, (block kind line stop).outcome.Halts) (line : Nat)

include he

theorem halts_initiate : (initiate expr line).Halts :=
  have hactivity := (proceeds_activityReference he).halts
  halts_skip.bind fun _ => (halts_eat _).bind fun _ =>
    ((proceeds_keyword _).halts.bind fun _ => hactivity.bind fun _ => halts_pure _).ite
      (hactivity.bind fun _ => halts_pure _)

theorem halts_confirm : (confirm expr line).Halts :=
  halts_skip.bind fun _ => (proceeds_confirmOperand he line).halts

theorem halts_wait : (wait expr line).Halts :=
  halts_skip.bind fun _ => (proceeds_keyword _).halts.bind fun _ => he.halts.bind fun _ =>
    halts_pure _

include hb

theorem halts_conditional : (conditional expr block line).outcome.Halts := by
  simp only [conditional, otherwise, Reporter.outcome_bind, Reporter.outcome_liftM,
    Reporter.outcome_many_bind, Reporter.outcome_ite, Reporter.outcome_pure]
  refine halts_skip.bind fun _ => (turns_branch he hb line).halts_many.bind fun _ =>
    Halts.bind ((halts_eat _).bind fun _ => Halts.ite ?_ (halts_pure _)) fun _ =>
      (halts_endOf _ _).bind fun _ => halts_pure _
  exact (hb _ _ _).bind fun _ => halts_pure _

theorem halts_whileLoop : (whileLoop expr block line).outcome.Halts := by
  simp only [whileLoop, Reporter.outcome_bind, Reporter.outcome_liftM, Reporter.outcome_pure]
  exact halts_skip.bind fun _ => he.halts.bind fun _ => (proceeds_keyword _).halts.bind fun _ =>
    (hb _ _ _).bind fun _ => (halts_endOf _ _).bind fun _ => halts_pure _

theorem halts_forLoop : (forLoop expr block line).outcome.Halts := by
  simp only [forLoop, Reporter.outcome_bind, Reporter.outcome_liftM, Reporter.outcome_pure]
  exact halts_skip.bind fun _ => (proceeds_name _).halts.bind fun _ =>
    (proceeds_keyword _).halts.bind fun _ => he.halts.bind fun _ =>
      (proceeds_keyword _).halts.bind fun _ => (hb _ _ _).bind fun _ =>
        (halts_endOf _ _).bind fun _ => halts_pure _

end Statements

theorem halts_typeDeclaration {inner : Reader TypeExpr} (h : inner.Halts) :
    (typeDeclaration inner).Halts := by
  refine halts_here.bind fun _ => halts_skip.bind fun _ => (proceeds_name _).halts.bind fun _ =>
    (halts_typeOf h).bind fun t => ?_
  cases t with
  | named p => exact (proceeds_failAt _).halts
  | _ => exact halts_pure _

theorem halts_namespaceDeclaration {inner : Reader Declaration} (h : inner.Proceeds) :
    (namespaceDeclaration inner).Halts := by
  have hround : (childRound inner).Turns := by
    refine halts_semicolons.bind_turns fun _ => halts_peek.bind_turns fun t => ?_
    split
    · exact halts_skip.bind_turns fun _ => turns_stop
    · exact (h.bind fun _ => halts_pure _).turns
    · exact (h.bind fun _ => halts_pure _).turns
    · exact (proceeds_refuse _).turns
  exact halts_here.bind fun _ => halts_skip.bind fun _ => proceeds_path.halts.bind fun _ =>
    (proceeds_symbol _).halts.bind fun _ => hround.halts_many.bind fun _ => halts_pure _

end Grammar

/-! ## Productions -/

/-- The productions of the grammar, with what each of them reads. -/
inductive Production : Type → Type where
  | path : Production Path
  | expression : Production Expr
  /-- An expression whose operators have precedence `floor` or more. -/
  | binary (floor : Nat) : Production Expr
  | unary : Production Expr
  | primary : Production Expr
  | arguments : Production (List Argument)
  | activity : Production (Path × List Argument)
  | initiate (line : Nat) : Production Statement
  | confirm (line : Nat) : Production Statement
  | wait (line : Nat) : Production Statement
  | plainStatement (line : Nat) : Production Statement
  | conditional (mode : Mode) (line : Nat) : Production Statement
  | whileLoop (mode : Mode) (line : Nat) : Production Statement
  | forLoop (mode : Mode) (line : Nat) : Production Statement
  | statement (mode : Mode) : Production Statement
  /-- The statements of a block, as a construct. -/
  | statements (mode : Mode) (kind : BlockKind) (line : Nat) (stopAtBranch : Bool) :
    Production Block
  /-- The statements of a block that is open already. -/
  | statementRun (mode : Mode) (kind : BlockKind) (line : Nat) (stopAtBranch : Bool) :
    Production Block
  | type : Production TypeExpr
  | structType : Production TypeExpr
  | arrayType : Production TypeExpr
  | typeDeclaration : Production Declaration
  | namespaceDeclaration : Production Declaration
  | declaration : Production Declaration
  | section_ (mode : Mode) (kind : BlockKind) : Production Block
  | procedure (mode : Mode) : Production Procedure
  | item (mode : Mode) : Production Item
  | file : Production SourceFile

namespace Production

/-- The reading of the production where `room` levels are left. -/
def reading {α : Type} (p : Production α) (room : Nat) : Reporter α :=
  match p with
  | path => .ofReader Grammar.path
  | expression => .ofReader (Grammar.expression room)
  | binary floor => .ofReader (binaryAt (room + 1) floor)
  | unary => .ofReader (unaryAt (room + 1))
  | primary => .ofReader (Grammar.primary (Grammar.expression room))
  | arguments => .ofReader (Grammar.arguments (Grammar.expression room))
  | activity => .ofReader (activityReference (Grammar.expression room))
  | initiate line => .ofReader (Grammar.initiate (Grammar.expression room) line)
  | confirm line => .ofReader (Grammar.confirm (Grammar.expression room) line)
  | wait line => .ofReader (Grammar.wait (Grammar.expression room) line)
  | plainStatement line => .ofReader (Grammar.plainStatement (Grammar.expression room) line)
  | conditional mode line =>
    Grammar.conditional (Grammar.expression room) (Grammar.statements mode room) line
  | whileLoop mode line =>
    Grammar.whileLoop (Grammar.expression room) (Grammar.statements mode room) line
  | forLoop mode line =>
    Grammar.forLoop (Grammar.expression room) (Grammar.statements mode room) line
  | statement mode => Grammar.statement (Grammar.expression room) (Grammar.statements mode room)
  | statements mode kind line stopAtBranch => Grammar.statements mode room kind line stopAtBranch
  | statementRun mode kind line stopAtBranch =>
    Grammar.statements mode (room + 1) kind line stopAtBranch
  | type => .ofReader (typeAt (room + 1))
  | structType => .ofReader (Grammar.structType (typeAt room))
  | arrayType => .ofReader (Grammar.arrayType (typeAt room))
  | typeDeclaration => .ofReader (Grammar.typeDeclaration (typeAt room))
  | namespaceDeclaration => .ofReader (Grammar.namespaceDeclaration (declarationAt room))
  | declaration => .ofReader (Grammar.declaration room)
  | section_ mode kind => Grammar.section_ mode kind
  | procedure mode => Grammar.procedure mode
  | item mode => Grammar.item mode
  | file => Grammar.file

/-- The same with a counter. -/
def counting {α : Type} (p : Production α) (limit : Nat) : Tally α :=
  let expr := Counting.expression limit
  match p with
  | path => .ofReader Grammar.path
  | expression => expr
  | binary floor => Counting.binary limit (limit + 1) floor
  | unary => Counting.unary limit (limit + 1)
  | primary => Counting.primary expr
  | arguments => Counting.arguments expr
  | activity => Counting.activityReference expr
  | initiate line => Counting.initiate expr line
  | confirm line => Counting.confirm expr line
  | wait line => Counting.wait expr line
  | plainStatement line => Counting.plainStatement expr line
  | conditional mode line => Counting.conditional expr (Counting.statements limit mode) line
  | whileLoop mode line => Counting.whileLoop expr (Counting.statements limit mode) line
  | forLoop mode line => Counting.forLoop expr (Counting.statements limit mode) line
  | statement mode => Counting.statement expr (Counting.statements limit mode)
  | statements mode kind line stopAtBranch =>
    Counting.statements limit mode kind line stopAtBranch
  | statementRun mode kind line stopAtBranch =>
    Counting.statementRun limit mode (limit + 1) kind line stopAtBranch
  | type => Counting.type limit (limit + 1)
  | structType => Counting.structType ((Counting.type limit (limit + 1)).nested limit .type)
  | arrayType => Counting.arrayType ((Counting.type limit (limit + 1)).nested limit .type)
  | typeDeclaration =>
    Counting.typeDeclaration ((Counting.type limit (limit + 1)).nested limit .type)
  | namespaceDeclaration =>
    Counting.namespaceDeclaration
      ((Counting.declaration limit (limit + 1)).nested limit .declaration)
  | declaration => Counting.declaration limit (limit + 1)
  | section_ mode kind => Counting.section_ limit mode kind
  | procedure mode => Counting.procedure limit mode
  | item mode => Counting.item limit mode
  | file => Counting.file limit

/-- The levels at which a production is entered. Those of procedures and files are entered where
nothing is open. -/
def EnteredAt {α : Type} (n : Nat) : Production α → Prop
  | section_ .. | procedure _ | item _ | file => n = 0
  | _ => n ≤ maxNesting

theorem EnteredAt.le {α : Type} {n : Nat} {p : Production α} (h : p.EnteredAt n) :
    n ≤ maxNesting := by
  cases p <;> first | exact h | exact h.symm ▸ Nat.zero_le _

open Counting in
/-- With a counter a production is read as without one, and the counter is exact. -/
theorem follows {α : Type} (p : Production α) {n limit : Nat} (hn : p.EnteredAt n)
    (hlt : maxNesting < limit) :
    (p.reading (maxNesting - n)).Follows maxNesting n (p.counting maxNesting)
      (p.counting limit) := by
  have hroom : n + (maxNesting - n) = maxNesting := Nat.add_sub_cancel' hn.le
  have hbound : maxNesting - n < maxNesting + 1 := Nat.lt_succ_of_le (Nat.sub_le ..)
  have hbound' : maxNesting - n < limit + 1 := by omega
  have hexpr := follows_expression hlt hroom
  have hblock (mode) := follows_statements hlt mode hroom
  have htype := follows_typeAt hlt hroom
  cases p with
  | path => exact (marks_path id).follows
  | expression => exact hexpr
  | binary floor => exact (follows_binary_unary hlt hroom hbound hbound').1 floor
  | unary => exact (follows_binary_unary hlt hroom hbound hbound').2
  | primary => exact follows_primary hexpr
  | arguments => exact follows_arguments hexpr
  | activity => exact follows_activityReference hexpr
  | initiate line => exact follows_initiate hexpr line
  | confirm line => exact follows_confirm hexpr line
  | wait line => exact follows_wait hexpr line
  | plainStatement line => exact follows_plainStatement hexpr line
  | conditional mode line => exact follows_conditional hexpr (hblock mode) line
  | whileLoop mode line => exact follows_whileLoop hexpr (hblock mode) line
  | forLoop mode line => exact follows_forLoop hexpr (hblock mode) line
  | statement mode => exact follows_statement hexpr (hblock mode)
  | statements mode kind line stopAtBranch => exact hblock mode kind line stopAtBranch
  | statementRun mode kind line stopAtBranch =>
    exact follows_statementRun hlt mode kind line stopAtBranch hroom hbound hbound'
  | type => exact follows_type hlt hroom hbound hbound'
  | structType => exact follows_structType htype
  | arrayType => exact follows_arrayType htype
  | typeDeclaration => exact follows_typeDeclaration htype
  | namespaceDeclaration => exact follows_namespaceDeclaration (follows_declarationAt hlt hroom)
  | declaration => exact follows_declaration hlt hroom hbound hbound'
  | section_ mode kind =>
    obtain rfl : n = 0 := hn
    exact follows_section_ hlt mode kind
  | procedure mode =>
    obtain rfl : n = 0 := hn
    exact follows_procedure hlt mode
  | item mode =>
    obtain rfl : n = 0 := hn
    exact follows_item hlt mode
  | file =>
    obtain rfl : n = 0 := hn
    exact follows_file hlt

/-- A production comes to an end. -/
theorem halts {α : Type} (p : Production α) (room : Nat) : (p.reading room).outcome.Halts := by
  have hexpr := proceeds_expression room
  have hblock (mode) := halts_statements mode room
  cases p with
  | path => exact proceeds_path.halts
  | expression => exact hexpr.halts
  | binary floor => exact (proceeds_binaryAt _ floor).halts
  | unary => exact (proceeds_unaryAt _).halts
  | primary => exact (proceeds_primary hexpr).halts
  | arguments => exact (proceeds_arguments hexpr).halts
  | activity => exact (proceeds_activityReference hexpr).halts
  | initiate line => exact halts_initiate hexpr line
  | confirm line => exact halts_confirm hexpr line
  | wait line => exact halts_wait hexpr line
  | plainStatement line => exact (proceeds_plainStatement hexpr line).halts
  | conditional mode line => exact halts_conditional hexpr (hblock mode) line
  | whileLoop mode line => exact halts_whileLoop hexpr (hblock mode) line
  | forLoop mode line => exact halts_forLoop hexpr (hblock mode) line
  | statement mode => exact (proceeds_statement hexpr (hblock mode)).halts
  | statements mode kind line stopAtBranch => exact hblock mode kind line stopAtBranch
  | statementRun mode kind line stopAtBranch => exact halts_statements mode _ kind line stopAtBranch
  | type => exact halts_typeAt _
  | structType => exact halts_structType (halts_typeAt room)
  | arrayType => exact halts_arrayType (halts_typeAt room)
  | typeDeclaration => exact halts_typeDeclaration (halts_typeAt room)
  | namespaceDeclaration => exact halts_namespaceDeclaration (proceeds_declarationAt room)
  | declaration =>
    exact (proceeds_declarationOf (halts_typeAt room) (proceeds_declarationAt room)).halts
  | section_ mode kind => exact (proceeds_section_ mode kind).halts
  | procedure mode => exact (proceeds_procedure mode).halts
  | item mode => exact (proceeds_item mode).halts
  | file =>
    simp only [reading, Grammar.file, Reporter.outcome_many_bind, Reporter.outcome_pure]
    exact turns_fileRound.halts_many.bind fun _ => Reader.halts_pure _

end Production

/-! ## The limit -/

/-- On a row that ends in an end of text, at every level where it can be entered, each
production is read with an exact count of the open constructs, and so is a file when recovering
from its faults. -/
theorem nesting_exact :
    (∀ {α : Type} (p : Production α) (n : Nat) (s : Stream), p.EnteredAt n → s.Closed →
      Exact n s (p.reading (maxNesting - n) s) fun limit => p.counting limit n s) ∧
    ∀ (cap count : Nat) (s : Stream), s.Closed →
      ∃ f s', Grammar.recoverFrom cap count s = some f ∧
        Exact 0 s (f.reports, .ok f.items s') fun limit =>
          Counting.recoverFrom limit cap count 0 s := by
  constructor
  · intro α p n s hn hs
    exact .of_counts hn.le (p.halts _ s hs) fun limit hlt => p.follows hn hlt s hs
  · intro cap count s hs
    obtain ⟨f, s', hfound, hcounts⟩ :=
      Counting.counts_recoverFrom (Nat.lt_succ_self maxNesting) cap count hs
    refine ⟨f, s', hfound, .of_counts (Nat.zero_le _) hcounts.keeps fun limit hlt => ?_⟩
    obtain ⟨g, s'', hsame, hcounts'⟩ := Counting.counts_recoverFrom hlt cap count hs
    obtain rfl : f = g := Option.some.inj (hfound.symm.trans hsame)
    obtain ⟨hfst, hsnd⟩ := Prod.mk.inj (hcounts.result.symm.trans hcounts'.result)
    obtain ⟨-, rfl⟩ := Outcome.ok.inj hsnd
    exact hcounts'

/-- One level below the limit a parenthesis is opened, and what stands in it is refused. -/
theorem nesting_exact_parenthesis :
    let p := Production.expression
    let s : Stream :=
      .ofTokens ([.symbol .leftParen, .number "1", .symbol .rightParen, .eof].zipIdx.map
        fun (t, i) => ⟨t, ⟨i, i + 1, 1, i + 1⟩⟩)
    p.EnteredAt 127 ∧ s.Closed ∧ RaisesTooDeep (p.reading (maxNesting - 127) s) ∧
      (p.counting maxNesting 127 s).level = 127 ∧
      ∃ es es', (p.counting 129 127 s).log = es ++ es' ∧ 128 < openCount 127 es := by
  intro p s
  have hn : p.EnteredAt 127 := Nat.le_succ 127
  have hs : s.Closed := ⟨_, rfl, rfl⟩
  have hdeep : RaisesTooDeep (p.reading (maxNesting - 127) s) :=
    ⟨s.advance.tooDeep, List.mem_singleton_self _, s.advance, rfl⟩
  have hexact := nesting_exact.1 p 127 s hn hs
  exact ⟨hn, hs, hdeep, hexact.restored, (hexact.tooDeep 129 (by decide)).1 hdeep⟩

end OpsLang
