import OpsLang.Proofs.Appending.Statement
import OpsLang.Proofs.Counting.Expr

/-!
# Statements with a counter

The statements of a block are read one level deeper than their surroundings (`statements`). Two
places go on behind a fault with the counter as they find it : `confirm` goes back to the start
of its operand when no activity can be read there, and a statement with a fault is dropped. In
both the counter stands where it stood before (`follows_confirmOperand`, `follows_attempt`).
-/

namespace OpsLang

namespace Counting

open Grammar Reader

/-! ## Statements without blocks -/

/-- The name of an activity with its arguments. -/
def activityReference (expr : Tally Expr) : Tally (Path × List Argument) := do
  let p ← path
  if (← peek) = .symbol .leftParen then return (p, ← arguments expr) else return (p, [])

/-- `initiate`, or `initiate and confirm`, with its activity. -/
def initiate (expr : Tally Expr) (line : Nat) : Tally Statement := do
  skip
  if ← eat (.keyword .and) then
    keyword .confirm
    let (p, as) ← activityReference expr
    return .activity .initiateAndConfirm p as line
  else
    let (p, as) ← activityReference expr
    return .activity .initiate p as line

/-- A condition behind `confirm`. -/
def confirmCondition (expr : Tally Expr) (line : Nat) : Tally Statement := do
  return .check (← expr) line

/-- What follows on the reading of an activity behind `confirm` : nothing if it stands, and else
the condition, from the place where the activity was tried. -/
def afterActivity (expr : Tally Expr) (line : Nat) (o : Outcome (Path × List Argument)) :
    Tally Statement := fun n s =>
  match o with
  | .ok (p, as) s' =>
    if (BinaryOp.ofToken? s'.token).isSome then confirmCondition expr line n s
    else ⟨[], n, [], .ok (.activity .confirm p as line) s'⟩
  | .fail _ _ => confirmCondition expr line n s
  | .endless => ⟨[], n, [], .endless⟩

/-- An activity behind `confirm`, or a condition. Going back does not set the counter : the
condition is read with the counter as the activity left it. -/
def activityOrCondition (expr : Tally Expr) (line : Nat) : Tally Statement := fun n s =>
  let u := activityReference expr n s
  (afterActivity expr line u.outcome u.level s).behind u.log u.reports

/-- The operand of `confirm`. -/
def confirmOperand (expr : Tally Expr) (line : Nat) : Tally Statement := fun n s =>
  match s.token with
  | .name _ => activityOrCondition expr line n s
  | _ => confirmCondition expr line n s

/-- `confirm` with its operand. -/
def confirm (expr : Tally Expr) (line : Nat) : Tally Statement := do
  skip
  confirmOperand expr line

/-- `wait until` with its condition. -/
def wait (expr : Tally Expr) (line : Nat) : Tally Statement := do
  skip
  keyword .until_
  return .wait (← expr) line

/-- An assignment or an expression. -/
def plainStatement (expr : Tally Expr) (line : Nat) : Tally Statement := do
  match ← peek, ← peekNext with
  | .name n, .symbol .assign =>
    skip
    skip
    return .assign n (← expr) line
  | .keyword .not, _ => return .expr (← expr) line
  | .keyword _, _ => refuse (α := Statement) ["statement"]
  | _, _ => return .expr (← expr) line

section Simple

variable {limit n : Nat} {expr : Reader Expr} {t t' : Tally Expr}
  (h : expr.Follows limit n t t') (line : Nat)

include h

omit line in
theorem follows_activityReference :
    (Grammar.activityReference expr).Follows limit n (activityReference t)
      (activityReference t') :=
  (marks_path id).follows.bind fun _ => marks_peek.follows.bind fun _ =>
    ((follows_arguments h).bind fun _ => follows_pure _).ite (follows_pure _)

theorem follows_initiate :
    (Grammar.initiate expr line).Follows limit n (initiate t line) (initiate t' line) := by
  have hactivity := follows_activityReference h
  refine marks_skip.follows.bind fun _ => (marks_eat _).follows.bind fun _ => Follows.ite ?_ ?_
  · exact (marks_keyword id _).follows.bind fun _ => hactivity.bind fun _ => follows_pure _
  · exact hactivity.bind fun _ => follows_pure _

theorem follows_confirmCondition :
    (Grammar.confirmCondition expr line).Follows limit n (confirmCondition t line)
      (confirmCondition t' line) :=
  h.bind fun _ => follows_pure _

theorem follows_wait :
    (Grammar.wait expr line).Follows limit n (wait t line) (wait t' line) :=
  marks_skip.follows.bind fun _ => (marks_keyword id _).follows.bind fun _ => h.bind fun _ =>
    follows_pure _

theorem follows_plainStatement :
    (Grammar.plainStatement expr line).Follows limit n (plainStatement t line)
      (plainStatement t' line) := by
  refine marks_peek.follows.bind fun u => marks_peekNext.follows.bind fun v => ?_
  split
  · exact marks_skip.follows.bind fun _ => marks_skip.follows.bind fun _ =>
      h.bind fun _ => follows_pure _
  · exact h.bind fun _ => follows_pure _
  · try simp only
    exact (marks_refuse id _ _).follows
  · try simp only
    exact h.bind fun _ => follows_pure _

end Simple

/-- The nesting is found too deep in the fault alone. -/
theorem raisesTooDeep_fail {α : Type} {d : Diagnostic} {s : Stream} :
    RaisesTooDeep ([], (.fail d s : Outcome α)) ↔ d.IsTooDeep := by
  simp [RaisesTooDeep, Outcome.faults]

section Confirm

variable {limit n room : Nat} {t t' : Tally Expr}
  (h : (Grammar.expression room).Follows limit n t t') (line : Nat)

include h

/-- Behind a name the operand is what follows on the reading of an activity, in which the counter
has come back. -/
theorem counts_afterActivity {s : Stream} (hs : s.Closed) {name : String}
    (hname : s.token = .name name) :
    Counts limit n s ([], Grammar.confirmOperand (Grammar.expression room) line s)
      (afterActivity t line (Grammar.activityReference (Grammar.expression room) s) n s)
      (afterActivity t' line (Grammar.activityReference (Grammar.expression room) s) n s) := by
  have hcondition : Counts limit n s
      ([], Grammar.confirmCondition (Grammar.expression room) line s)
      (confirmCondition t line n s) (confirmCondition t' line n s) :=
    follows_confirmCondition h line s hs
  have hkeeps : (Grammar.activityReference (Grammar.expression room) s).Keeps s :=
    (follows_activityReference h s hs).keeps
  cases ho : Grammar.activityReference (Grammar.expression room) s with
  | ok a s' =>
    rw [ho] at hkeeps
    rw [confirmOperand_of_ok hname ho]
    simp only [afterActivity]
    split
    · exact hcondition
    · exact .untouched hkeeps (by simp [Outcome.faults])
  | fail d s' =>
    rw [confirmOperand_of_fail hname ho]
    exact hcondition
  | endless =>
    have hendless : Grammar.confirmOperand (Grammar.expression room) line s = .endless := by
      simp only [Grammar.confirmOperand, hname, ho]
    rw [hendless]
    exact .untouched trivial (by simp [Outcome.faults])

/-- Where the activity is too deep the condition is as well, so that going back hides no
refusal. -/
theorem raisesTooDeep_confirmOperand {s : Stream} (hs : s.Closed) {name : String}
    (hname : s.token = .name name)
    (hdeep : RaisesTooDeep ([], Grammar.activityReference (Grammar.expression room) s)) :
    RaisesTooDeep ([], Grammar.confirmOperand (Grammar.expression room) line s) := by
  have hplace := (follows_activityReference h s hs).place
  cases ho : Grammar.activityReference (Grammar.expression room) s with
  | ok a s' => simp [ho, RaisesTooDeep, Outcome.faults] at hdeep
  | endless => simp [ho, RaisesTooDeep, Outcome.faults] at hdeep
  | fail d s' =>
    rw [ho, raisesTooDeep_fail] at hdeep
    have hd := hplace d s' ho hdeep
    obtain ⟨s'', hexpr⟩ := expression_tooDeep_of_activityReference hname ⟨s', by rw [ho, hd]⟩
    rw [confirmOperand_of_fail hname ho, Grammar.confirmCondition, bind_run, hexpr]
    exact raisesTooDeep_fail.2 ⟨s'', rfl⟩

theorem follows_confirmOperand :
    (Grammar.confirmOperand (Grammar.expression room) line).Follows limit n
      (confirmOperand t line) (confirmOperand t' line) := by
  intro s hs
  show Counts limit n s ([], Grammar.confirmOperand (Grammar.expression room) line s)
    (confirmOperand t line n s) (confirmOperand t' line n s)
  by_cases hname : ∃ name, s.token = .name name
  · obtain ⟨name, hname⟩ := hname
    have hactivity : Counts limit n s ([], Grammar.activityReference (Grammar.expression room) s)
        (activityReference t n s) (activityReference t' n s) := follows_activityReference h s hs
    have houtcome : (activityReference t n s).outcome =
        Grammar.activityReference (Grammar.expression room) s :=
      congrArg Prod.snd hactivity.result
    have hrun : activityOrCondition t line n s =
        (afterActivity t line (Grammar.activityReference (Grammar.expression room) s) n s).behind
          (activityReference t n s).log (activityReference t n s).reports := by
      rw [activityOrCondition, houtcome, hactivity.level]
    simp only [confirmOperand, hname]
    rw [hrun]
    refine hactivity.retry (counts_afterActivity h line hs hname)
      (raisesTooDeep_confirmOperand h line hs hname) (fun hw => ?_) ⟨_, rfl⟩
    rw [activityOrCondition, hw, houtcome, hactivity.level]
  · have hcondition : Counts limit n s
        ([], Grammar.confirmCondition (Grammar.expression room) line s)
        (confirmCondition t line n s) (confirmCondition t' line n s) :=
      follows_confirmCondition h line s hs
    unfold Grammar.confirmOperand confirmOperand
    split
    · next name hn => exact absurd ⟨name, hn⟩ hname
    · simpa only using hcondition

theorem follows_confirm :
    (Grammar.confirm (Grammar.expression room) line).Follows limit n (confirm t line)
      (confirm t' line) :=
  marks_skip.follows.bind fun _ => follows_confirmOperand h line

end Confirm

/-! ## Statements with blocks -/

/-- A reader of the statements of a block, given its kind, the line it was opened on and
whether `elsif` and `else` end it. -/
abbrev BlockTally : Type :=
  BlockKind → Nat → Bool → Tally Block

/-- One condition of `if` with its statements, and whether another follows. -/
def branch (expr : Tally Expr) (block : BlockTally) (line : Nat) : Tally (Turn Branch) := do
  let condition ← expr
  keyword .then_
  let body ← block .conditional line true
  if ← eat (.keyword .elsif) then return .item (.mk condition body)
  else return .last (.mk condition body)

/-- The statements behind `else`, if it is there. -/
def otherwise (block : BlockTally) (line : Nat) : Tally (Option Block) := do
  if ← eat (.keyword .else_) then return some (← block .conditional line false)
  else return none

/-- `if` with its branches. -/
def conditional (expr : Tally Expr) (block : BlockTally) (line : Nat) : Tally Statement := do
  skip
  let branches ← Tally.many (branch expr block line)
  let rest ← otherwise block line
  endOf .conditional line
  return .conditional branches rest line

/-- `while` with its condition and its statements. -/
def whileLoop (expr : Tally Expr) (block : BlockTally) (line : Nat) : Tally Statement := do
  skip
  let condition ← expr
  keyword .do_
  let body ← block .whileLoop line false
  endOf .whileLoop line
  return .whileLoop condition body line

/-- `for` with its variable, the values it takes and its statements. -/
def forLoop (expr : Tally Expr) (block : BlockTally) (line : Nat) : Tally Statement := do
  skip
  let counter ← name "loop variable"
  keyword .in_
  let iterable ← expr
  keyword .do_
  let body ← block .forLoop line false
  endOf .forLoop line
  return .forLoop counter iterable body line

/-- A statement without the semicolon behind it. -/
def bareStatement (expr : Tally Expr) (block : BlockTally) (line : Nat) : Tally Statement := do
  match ← peek with
  | .keyword .initiate => initiate expr line
  | .keyword .confirm => confirm expr line
  | .keyword .wait => wait expr line
  | .keyword .if_ => conditional expr block line
  | .keyword .while_ => whileLoop expr block line
  | .keyword .for_ => forLoop expr block line
  | _ => plainStatement expr line

/-- A statement and one semicolon behind it, if it is there. -/
def statement (expr : Tally Expr) (block : BlockTally) : Tally Statement := do
  let st ← bareStatement expr block (← here).line
  let _ ← eat (.symbol .semicolon)
  return st

/-- A statement, or its report if it has a fault that the mode passes over. Passing over it does
not set the counter. -/
def attempt (mode : Mode) (stopAtBranch : Bool) (st : Tally Statement) :
    Tally (Turn Statement) := fun n s =>
  (st n s).conclude fun x => Grammar.attempt mode stopAtBranch (fun _ => x) s

/-- One round of a block : its next statement, or its end. -/
def round (mode : Mode) (kind : BlockKind) (line : Nat) (stopAtBranch : Bool)
    (st : Tally Statement) : Tally (Turn Statement) := do
  semicolons
  let t ← peek
  if t = .eof then failAt (α := Turn Statement) fun s => s.unterminated kind line
  else if endsRun stopAtBranch t then return .stop
  else attempt mode stopAtBranch st

/-- The statements of a block. -/
def statementRun (limit : Nat) (mode : Mode) : Nat → BlockTally
  | 0, _, _, _ => Tally.ofReader fun _ => .endless
  | bound + 1, kind, line, stopAtBranch =>
    Tally.many (round mode kind line stopAtBranch
      (statement (expression limit) fun kind line stopAtBranch =>
        (statementRun limit mode bound kind line stopAtBranch).nested limit .block))

/-- The statements of a block, one level deeper than their surroundings. -/
def statements (limit : Nat) (mode : Mode) : BlockTally := fun kind line stopAtBranch =>
  (statementRun limit mode (limit + 1) kind line stopAtBranch).nested limit .block

section Blocks

variable {limit n room : Nat} {t t' : Tally Expr}
  (h : (Grammar.expression room).Follows limit n t t') {block : BlockReader}
  {b b' : BlockTally}
  (hb : ∀ kind line stop, (block kind line stop).Follows limit n (b kind line stop)
    (b' kind line stop))
  (line : Nat)

include h hb

theorem follows_conditional :
    (Grammar.conditional (Grammar.expression room) block line).Follows limit n
      (conditional t b line) (conditional t' b' line) := by
  have hbranch : (Grammar.branch (Grammar.expression room) block line).Follows limit n
      (branch t b line) (branch t' b' line) :=
    h.liftM.bind fun _ => (marks_keyword id _).follows.liftM.bind fun _ => (hb _ _ _).bind fun _ =>
      (marks_eat _).follows.liftM.bind fun _ =>
        (Reporter.follows_pure _).ite (Reporter.follows_pure _)
  have hotherwise : (Grammar.otherwise block line).Follows limit n (otherwise b line)
      (otherwise b' line) :=
    (marks_eat _).follows.liftM.bind fun _ =>
      ((hb _ _ _).bind fun _ => Reporter.follows_pure _).ite (Reporter.follows_pure _)
  exact marks_skip.follows.liftM.bind fun _ => hbranch.many.bind fun _ => hotherwise.bind fun _ =>
    (marks_endOf id _ _).follows.liftM.bind fun _ => Reporter.follows_pure _

theorem follows_whileLoop :
    (Grammar.whileLoop (Grammar.expression room) block line).Follows limit n
      (whileLoop t b line) (whileLoop t' b' line) :=
  marks_skip.follows.liftM.bind fun _ => h.liftM.bind fun _ =>
    (marks_keyword id _).follows.liftM.bind fun _ => (hb _ _ _).bind fun _ =>
      (marks_endOf id _ _).follows.liftM.bind fun _ => Reporter.follows_pure _

theorem follows_forLoop :
    (Grammar.forLoop (Grammar.expression room) block line).Follows limit n
      (forLoop t b line) (forLoop t' b' line) :=
  marks_skip.follows.liftM.bind fun _ => (marks_name id _).follows.liftM.bind fun _ =>
    (marks_keyword id _).follows.liftM.bind fun _ => h.liftM.bind fun _ =>
      (marks_keyword id _).follows.liftM.bind fun _ => (hb _ _ _).bind fun _ =>
        (marks_endOf id _ _).follows.liftM.bind fun _ => Reporter.follows_pure _

theorem follows_bareStatement :
    (Grammar.bareStatement (Grammar.expression room) block line).Follows limit n
      (bareStatement t b line) (bareStatement t' b' line) := by
  refine marks_peek.follows.liftM.bind fun u => ?_
  split
  · exact (follows_initiate h line).liftM
  · exact (follows_confirm h line).liftM
  · exact (follows_wait h line).liftM
  · exact follows_conditional h hb line
  · exact follows_whileLoop h hb line
  · exact follows_forLoop h hb line
  · try simp only
    exact (follows_plainStatement h line).liftM

omit line in
theorem follows_statement :
    (Grammar.statement (Grammar.expression room) block).Follows limit n (statement t b)
      (statement t' b') :=
  marks_here.follows.liftM.bind fun _ => (follows_bareStatement h hb _).bind fun _ =>
    (marks_eat _).follows.liftM.bind fun _ => Reporter.follows_pure _

end Blocks

/-- A statement that is dropped leaves the counter where it was, and its fault among the
reports. -/
theorem follows_attempt {limit n : Nat} (mode : Mode) (stopAtBranch : Bool)
    {st : Reporter Statement} {t t' : Tally Statement} (h : st.Follows limit n t t') :
    (Grammar.attempt mode stopAtBranch st).Follows limit n (attempt mode stopAtBranch t)
      (attempt mode stopAtBranch t') := by
  intro s hs
  have hst := h s hs
  show Counts limit n s (Grammar.attempt mode stopAtBranch (fun _ => st s) s)
    ((t n s).conclude fun x => Grammar.attempt mode stopAtBranch (fun _ => x) s)
    ((t' n s).conclude fun x => Grammar.attempt mode stopAtBranch (fun _ => x) s)
  generalize st s = x at hst
  obtain ⟨ds, ⟨a, s'⟩ | ⟨d, s'⟩ | _⟩ := x
  · exact hst.conclude (f := fun x => Grammar.attempt mode stopAtBranch (fun _ => x) s)
      hst.keeps Iff.rfl (by rintro _ _ ⟨⟩)
  · have hreach : s.Reaches s' := hst.keeps
    obtain ⟨s'', hres, hreach'⟩ := resume_ok s d.span.line stopAtBranch (hreach.closed hs)
    by_cases hdrop : mode = .recovering ∧ !d.isFatal
    · exact hst.drop (f := fun x => Grammar.attempt mode stopAtBranch (fun _ => x) s)
        (b := .pass) (by simp only [Grammar.attempt, hdrop, and_self, if_true, hres]; rfl) hreach'
    · have hkept : Grammar.attempt mode stopAtBranch (fun _ => (ds, .fail d s')) s =
          (ds, .fail d s') := if_neg hdrop
      refine hst.conclude (f := fun x => Grammar.attempt mode stopAtBranch (fun _ => x) s)
        (by rwa [hkept]) (by rw [hkept]; exact Iff.rfl) fun e s'' he => ?_
      rw [hkept] at he
      obtain ⟨rfl, rfl⟩ := Outcome.fail.inj he
      exact hst.place d s' rfl
  · exact hst.conclude (f := fun x => Grammar.attempt mode stopAtBranch (fun _ => x) s)
      trivial Iff.rfl (by rintro _ _ ⟨⟩)

theorem follows_round {limit n : Nat} (mode : Mode) (kind : BlockKind) (line : Nat)
    (stopAtBranch : Bool) {st : Reporter Statement} {t t' : Tally Statement}
    (h : st.Follows limit n t t') :
    (Grammar.round mode kind line stopAtBranch st).Follows limit n
      (round mode kind line stopAtBranch t) (round mode kind line stopAtBranch t') := by
  refine marks_semicolons.follows.liftM.bind fun _ => marks_peek.follows.liftM.bind fun u => ?_
  refine Reporter.Follows.ite ?_ ((Reporter.follows_pure _).ite (follows_attempt mode _ h))
  exact (marks_failAt fun _ => Stream.explains_unterminated).follows.liftM

section Nesting

variable {limit limit' : Nat} (hlt : limit < limit') (mode : Mode)

include hlt

theorem follows_statementRun {bound : Nat} (kind : BlockKind) (line : Nat)
    (stopAtBranch : Bool) :
    ∀ {n room bound' : Nat}, n + room = limit → room < bound → room < bound' →
      (Grammar.statements mode (room + 1) kind line stopAtBranch).Follows limit n
        (statementRun limit mode bound kind line stopAtBranch)
        (statementRun limit' mode bound' kind line stopAtBranch) := by
  induction bound generalizing kind line stopAtBranch with
  | zero => exact fun _ hb => absurd hb (Nat.not_lt_zero _)
  | succ bound ih =>
    rintro n room (_ | bound') hn hb hb'
    · exact absurd hb' (Nat.not_lt_zero _)
    refine (follows_round mode kind line stopAtBranch ?_).many
    exact follows_statement (follows_expression hlt hn) fun kind line stopAtBranch =>
      Reporter.follows_construct (r := (Grammar.statements mode · kind line stopAtBranch)) hlt _ hn
        rfl fun left hleft => ih kind line stopAtBranch (by omega) (by omega) (by omega)

theorem follows_statements {n room : Nat} (hn : n + room = limit) (kind : BlockKind) (line : Nat)
    (stopAtBranch : Bool) :
    (Grammar.statements mode room kind line stopAtBranch).Follows limit n
      (statements limit mode kind line stopAtBranch)
      (statements limit' mode kind line stopAtBranch) :=
  Reporter.follows_construct (r := (Grammar.statements mode · kind line stopAtBranch)) hlt _ hn rfl
    fun left hleft =>
      follows_statementRun hlt mode kind line stopAtBranch (by omega) (by omega) (by omega)

end Nesting

end Counting

end OpsLang
