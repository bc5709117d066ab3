import OpsLang.Proofs.Parenthesized.Expr
import OpsLang.Proofs.Rereading.File

/-!
# Texts of files that no reader built

The text of a file keeps its statements and declarations apart, whichever follow one another.
What is read back is the file with the parentheses that its text has : those around operands
(`Expr.parenthesized`), and those around a condition behind `confirm` that would otherwise be
read as an activity (`Expr.asCondition`).

With these a well-formed file is legible as soon as there are enough levels
(`SourceFile.WellFormed.eventually_legible`), and then it is read back from its canonical
tokens (`yields_items`). With the levels that the reader has it is read in the same way, or
something in it is too deep (`parseSource_text_of_wellFormed`).
-/

namespace OpsLang

open Filter

/-! ## Well-formed files -/

mutual

/-- The names and spellings in the statement can be read as such, and there is a branch in
every conditional. -/
def Statement.WellFormed : Statement → Prop
  | .activity _ p as _ => (p.segments ≠ [] ∧ p.WellFormed) ∧ Argument.AllWellFormed as
  | .check c _ | .wait c _ => c.WellFormed
  | .assign n v _ => IsName n ∧ v.WellFormed
  | .conditional branches none _ => branches ≠ [] ∧ Branch.AllWellFormed branches
  | .conditional branches (some body) _ =>
    branches ≠ [] ∧ Branch.AllWellFormed branches ∧ Block.WellFormed body
  | .whileLoop c body _ => c.WellFormed ∧ Block.WellFormed body
  | .forLoop n e body _ => IsName n ∧ e.WellFormed ∧ Block.WellFormed body
  | .expr v _ => v.WellFormed

/-- The statements are well formed. -/
def Block.WellFormed : List Statement → Prop
  | [] => True
  | st :: rest => st.WellFormed ∧ Block.WellFormed rest

/-- The conditions and the statements of the branches are well formed. -/
def Branch.AllWellFormed : List Branch → Prop
  | [] => True
  | .mk c body :: rest => c.WellFormed ∧ Block.WellFormed body ∧ Branch.AllWellFormed rest

end

mutual

/-- The names in the type can be read as such, and none stands for a built-in type. -/
def TypeExpr.WellFormed : TypeExpr → Prop
  | .primitive _ => True
  | .array element _ => element.WellFormed
  | .struct fields => Field.AllWellFormed fields
  | .named p =>
    (p.segments ≠ [] ∧ p.WellFormed) ∧ ∀ n, p.segments = [n] → Primitive.ofText? n = none

/-- The names and the types of the fields are well formed. -/
def Field.AllWellFormed : List Field → Prop
  | [] => True
  | .mk n t :: fields => (IsMemberName n ∧ t.WellFormed) ∧ Field.AllWellFormed fields

end

mutual

/-- The names and types in the declaration are well formed. -/
def Declaration.WellFormed : Declaration → Prop
  | .space p ds _ => (p.segments ≠ [] ∧ p.WellFormed) ∧ Declaration.AllWellFormed ds
  | .type n body _ => IsName n ∧ body.type.WellFormed

/-- The declarations are well formed. -/
def Declaration.AllWellFormed : List Declaration → Prop
  | [] => True
  | d :: ds => d.WellFormed ∧ Declaration.AllWellFormed ds

end

/-- The name and the sections of the procedure are well formed. -/
structure Procedure.WellFormed (p : Procedure) : Prop where
  name : IsName p.name
  preconditions : ∀ b ∈ p.preconditions, Block.WellFormed b
  main : Block.WellFormed p.main
  confirmation : ∀ b ∈ p.confirmation, Block.WellFormed b

/-- The item is well formed. -/
def Item.WellFormed : Item → Prop
  | .procedure p => p.WellFormed
  | .declaration d => d.WellFormed

/-- The items of the file are well formed. -/
def SourceFile.WellFormed (f : SourceFile) : Prop :=
  ∀ i ∈ f.items, i.WellFormed

/-! ## Parentheses where they are needed -/

/-- The expression as a condition behind `confirm`, in parentheses if it would be read as an
activity there. -/
def Expr.asCondition (e : Expr) : Expr :=
  if e.readsAsActivity then .parens e else e

mutual

/-- The statement with the parentheses that its expressions need. -/
def Statement.parenthesized : Statement → Statement
  | .activity mode p as n => .activity mode p (Argument.allParenthesized as) n
  | .check c n => .check c.asCondition.parenthesized n
  | .wait c n => .wait c.parenthesized n
  | .assign target v n => .assign target v.parenthesized n
  | .conditional branches none n => .conditional (Branch.allParenthesized branches) none n
  | .conditional branches (some body) n =>
    .conditional (Branch.allParenthesized branches) (some (Block.parenthesized body)) n
  | .whileLoop c body n => .whileLoop c.parenthesized (Block.parenthesized body) n
  | .forLoop counter e body n => .forLoop counter e.parenthesized (Block.parenthesized body) n
  | .expr v n => .expr v.parenthesized n

/-- The statements with the parentheses that their expressions need. -/
def Block.parenthesized : List Statement → List Statement
  | [] => []
  | st :: rest => st.parenthesized :: Block.parenthesized rest

/-- The branches with the parentheses that their expressions need. -/
def Branch.allParenthesized : List Branch → List Branch
  | [] => []
  | .mk c body :: rest =>
    .mk c.parenthesized (Block.parenthesized body) :: Branch.allParenthesized rest

end

/-- The procedure with the parentheses that its expressions need. -/
def Procedure.parenthesized (p : Procedure) : Procedure where
  name := p.name
  preconditions := p.preconditions.map Block.parenthesized
  main := Block.parenthesized p.main
  confirmation := p.confirmation.map Block.parenthesized
  line := p.line

/-- The item with the parentheses that its expressions need. Declarations have none. -/
def Item.parenthesized : Item → Item
  | .procedure p => .procedure p.parenthesized
  | .declaration d => .declaration d

/-- The file with the parentheses that its expressions need. -/
def SourceFile.parenthesized (f : SourceFile) : SourceFile :=
  ⟨f.items.map Item.parenthesized⟩

/-! ### The text has them anyway -/

theorem Expr.readsAsActivity_parenthesized (e : Expr) :
    e.parenthesized.readsAsActivity = e.readsAsActivity := by
  cases e <;> simp only [parenthesized, readsAsActivity]

theorem Expr.readsAsActivity_asCondition (e : Expr) : e.asCondition.readsAsActivity = false := by
  unfold asCondition
  split
  · rfl
  · next h => simpa using h

theorem Expr.text_asCondition (e : Expr) :
    e.asCondition.text = inParens e.readsAsActivity e.text := by
  unfold asCondition
  split
  · next h => simp [Expr.text, h]
  · next h => simp [h, inParens]

theorem Argument.optionalText_parenthesized (as : List Argument) :
    Argument.optionalText (Argument.allParenthesized as) = Argument.optionalText as := by
  rw [Argument.optionalText, Argument.optionalText, Argument.texts_parenthesized]
  cases as <;> rfl

theorem needsSeparator_parenthesized (rest : List Statement) :
    needsSeparator (Block.parenthesized rest) = needsSeparator rest := by
  obtain _ | ⟨st, rest⟩ := rest
  · rfl
  · cases st with
    | expr v n => simp only [Block.parenthesized, Statement.parenthesized, needsSeparator,
        Expr.text_parenthesized]
    | conditional branches otherwise n => cases otherwise <;> rfl
    | _ => rfl

mutual

theorem Statement.lines_parenthesized : ∀ (level : Nat) (st : Statement),
    st.parenthesized.lines level = st.lines level
  | _, .activity _ _ as _ => by
    simp only [Statement.parenthesized, Statement.lines, Argument.optionalText_parenthesized as]
  | _, .check c _ => by
    simp only [Statement.parenthesized, Statement.lines, Expr.readsAsActivity_parenthesized,
      Expr.readsAsActivity_asCondition, Expr.text_parenthesized, Expr.text_asCondition]
    rfl
  | _, .wait _ _ | _, .assign _ _ _ | _, .expr _ _ => by
    simp only [Statement.parenthesized, Statement.lines, Expr.text_parenthesized]
  | level, .conditional branches none _ => by
    simp only [Statement.parenthesized, Statement.lines,
      Branch.lines_parenthesized level "if" branches]
  | level, .conditional branches (some body) _ => by
    simp only [Statement.parenthesized, Statement.lines,
      Branch.lines_parenthesized level "if" branches, Block.lines_parenthesized (level + 1) body]
  | level, .whileLoop _ body _ => by
    simp only [Statement.parenthesized, Statement.lines, Expr.text_parenthesized,
      Block.lines_parenthesized (level + 1) body]
  | level, .forLoop _ _ body _ => by
    simp only [Statement.parenthesized, Statement.lines, Expr.text_parenthesized,
      Block.lines_parenthesized (level + 1) body]

theorem Block.lines_parenthesized : ∀ (level : Nat) (body : List Statement),
    Block.lines level (Block.parenthesized body) = Block.lines level body
  | _, [] => rfl
  | level, st :: rest => by
    simp only [Block.parenthesized, Block.lines, needsSeparator_parenthesized,
      Statement.lines_parenthesized level st, Block.lines_parenthesized level rest]

theorem Branch.lines_parenthesized : ∀ (level : Nat) (word : String) (branches : List Branch),
    Branch.lines level word (Branch.allParenthesized branches) = Branch.lines level word branches
  | _, _, [] => rfl
  | level, word, .mk c body :: rest => by
    simp only [Branch.allParenthesized, Branch.lines, Expr.text_parenthesized,
      Block.lines_parenthesized (level + 1) body, Branch.lines_parenthesized level "elsif" rest]

end

theorem optionalSectionLines_parenthesized (kind : BlockKind) (body : Option Block) :
    optionalSectionLines kind (body.map Block.parenthesized) = optionalSectionLines kind body := by
  cases body with
  | none => rfl
  | some body =>
    simp only [Option.map_some, optionalSectionLines, sectionLines, Block.lines_parenthesized]

theorem Item.lines_parenthesized (i : Item) : i.parenthesized.lines = i.lines := by
  cases i with
  | procedure p =>
    simp only [Item.parenthesized, Item.lines, Procedure.parenthesized, Procedure.lines,
      optionalSectionLines_parenthesized, sectionLines, Block.lines_parenthesized]
  | declaration d => rfl

/-- The parentheses are those that the text has anyway. -/
theorem SourceFile.text_parenthesized (f : SourceFile) : f.parenthesized.text = f.text := by
  simp [SourceFile.text, SourceFile.parenthesized, Item.lines_parenthesized, Function.comp_def]

/-! ## Enough levels -/

/-- What holds one level deeper with enough levels holds with enough levels. -/
theorem eventually_of_succ {p q : Nat → Prop} (h : ∀ᶠ room in atTop, p room)
    (hq : ∀ room, p room → q (room + 1)) : ∀ᶠ room in atTop, q room := by
  obtain ⟨n, hn⟩ := eventually_atTop.1 h
  refine eventually_atTop.2 ⟨n + 1, fun room hroom => ?_⟩
  obtain ⟨room, rfl⟩ := Nat.exists_eq_add_of_le' (Nat.le_of_add_left_le hroom)
  exact hq room (hn room (by omega))

theorem Expr.WellFormed.eventually_legible {e : Expr} (h : e.WellFormed) :
    ∀ᶠ room in atTop, e.parenthesized.Legible room :=
  (eventually_gt_atTop e.parenthesized.depth).mono fun _ hroom => h.legible hroom

theorem Argument.eventually_legible {as : List Argument} (h : Argument.AllWellFormed as) :
    ∀ᶠ room in atTop, Argument.AllLegible room (Argument.allParenthesized as) := by
  obtain ⟨hspells, hwritten⟩ := Argument.spells_of_wellFormed (Argument.wellFormed_parenthesized h)
  have hevery := Argument.allEvery_iff.1 (Argument.every_parenthesized h)
  refine (eventually_ge_atTop (Argument.allDepth (Argument.allParenthesized as))).mono
    fun room hroom => ⟨fun a ha => ⟨hevery a ha, ?_⟩, hspells, hwritten⟩
  exact Argument.allDepth_le_iff.1 hroom a ha

theorem Expr.WellFormed.asCondition {e : Expr} (h : e.WellFormed) : e.asCondition.WellFormed := by
  unfold Expr.asCondition
  split <;> exact h

theorem Branch.allParenthesized_ne_nil {branches : List Branch} (h : branches ≠ []) :
    Branch.allParenthesized branches ≠ [] := by
  obtain _ | ⟨⟨c, body⟩, rest⟩ := branches
  · exact absurd rfl h
  · exact List.cons_ne_nil _ _

mutual

theorem Statement.eventually_legible : ∀ {st : Statement}, st.WellFormed →
    ∀ᶠ room in atTop, st.parenthesized.Legible room
  | .activity _ _ _ _, ⟨⟨hne, hp⟩, has⟩ =>
    (Argument.eventually_legible has).mono fun _ has => ⟨hp.legible hne, has⟩
  | .check c _, h => by
    have hc : c.WellFormed := h
    refine hc.asCondition.eventually_legible.mono fun _ hleg => ⟨hleg, ?_⟩
    rw [Expr.readsAsActivity_parenthesized, Expr.readsAsActivity_asCondition]
  | .wait c _, h => Expr.WellFormed.eventually_legible (e := c) h
  | .assign _ _ _, ⟨hn, hv⟩ => hv.eventually_legible.mono fun _ hv => ⟨hn, hv⟩
  | .conditional _ none _, ⟨hne, hbranches⟩ =>
    (Branch.eventually_legible hbranches).mono fun _ hbranches =>
      ⟨Branch.allParenthesized_ne_nil hne, hbranches⟩
  | .conditional _ (some _) _, ⟨hne, hbranches, hbody⟩ =>
    ((Branch.eventually_legible hbranches).and (Block.eventually_legible hbody)).mono
      fun _ ⟨hbranches, hbody⟩ => ⟨Branch.allParenthesized_ne_nil hne, hbranches, hbody⟩
  | .whileLoop _ _ _, ⟨hc, hbody⟩ => hc.eventually_legible.and (Block.eventually_legible hbody)
  | .forLoop _ _ _ _, ⟨hn, he, hbody⟩ =>
    (he.eventually_legible.and (Block.eventually_legible hbody)).mono
      fun _ ⟨he, hbody⟩ => ⟨hn, he, hbody⟩
  | .expr v _, h => Expr.WellFormed.eventually_legible (e := v) h

theorem Block.eventually_legible : ∀ {body : List Statement}, Block.WellFormed body →
    ∀ᶠ room in atTop, Block.Legible room (Block.parenthesized body)
  | [], _ => eventually_of_succ (p := fun _ => True) (.of_forall fun _ => trivial)
    fun _ _ => trivial
  | _ :: _, ⟨hst, hrest⟩ => by
    have hrest := (tendsto_add_atTop_nat 1).eventually (Block.eventually_legible hrest)
    exact eventually_of_succ ((Statement.eventually_legible hst).and hrest) fun _ h => h

theorem Branch.eventually_legible : ∀ {branches : List Branch}, Branch.AllWellFormed branches →
    ∀ᶠ room in atTop, Branch.AllLegible room (Branch.allParenthesized branches)
  | [], _ => .of_forall fun _ => trivial
  | .mk _ _ :: _, ⟨hc, hbody, hrest⟩ =>
    hc.eventually_legible.and
      ((Block.eventually_legible hbody).and (Branch.eventually_legible hrest))

end

mutual

theorem TypeExpr.eventually_legible : ∀ {t : TypeExpr}, t.WellFormed →
    ∀ᶠ room in atTop, t.Legible room
  | .primitive _, _ => eventually_of_succ (p := fun _ => True) (.of_forall fun _ => trivial)
    fun _ _ => trivial
  | .array element _, h =>
    eventually_of_succ (TypeExpr.eventually_legible (t := element) h) fun _ h => h
  | .struct fields, h =>
    eventually_of_succ (Field.eventually_legible (show Field.AllWellFormed fields from h))
      fun _ h => h
  | .named _, ⟨⟨hne, hp⟩, hprim⟩ =>
    eventually_of_succ (p := fun _ => True) (.of_forall fun _ => trivial)
      fun _ _ => ⟨hp.legible hne, hprim⟩

theorem Field.eventually_legible : ∀ {fields : List Field}, Field.AllWellFormed fields →
    ∀ᶠ room in atTop, Field.AllLegible room fields
  | [], _ => .of_forall fun _ => trivial
  | .mk _ _ :: _, ⟨⟨hn, ht⟩, hfields⟩ =>
    ((TypeExpr.eventually_legible ht).and (Field.eventually_legible hfields)).mono
      fun _ ⟨ht, hfields⟩ => ⟨⟨hn.member, ht⟩, hfields⟩

end

mutual

theorem Declaration.eventually_legible : ∀ {d : Declaration}, d.WellFormed →
    ∀ᶠ room in atTop, d.Legible room
  | .space _ _ _, ⟨⟨hne, hp⟩, hds⟩ =>
    eventually_of_succ (Declaration.eventually_allLegible hds) fun _ hds => ⟨hp.legible hne, hds⟩
  | .type _ _ _, ⟨hn, hbody⟩ => by
    have hbody := (tendsto_add_atTop_nat 1).eventually (TypeExpr.eventually_legible hbody)
    exact eventually_of_succ hbody fun _ hbody => ⟨hn, hbody⟩

theorem Declaration.eventually_allLegible : ∀ {ds : List Declaration},
    Declaration.AllWellFormed ds → ∀ᶠ room in atTop, Declaration.AllLegible room ds
  | [], _ => .of_forall fun _ => trivial
  | _ :: _, ⟨hd, hds⟩ =>
    (Declaration.eventually_legible hd).and (Declaration.eventually_allLegible hds)

end

theorem Block.eventually_legible_optional {body : Option Block}
    (h : ∀ b ∈ body, Block.WellFormed b) :
    ∀ᶠ room in atTop, ∀ b ∈ body.map Block.parenthesized, Block.Legible room b := by
  cases body with
  | none => simp
  | some body => simpa using Block.eventually_legible (h body rfl)

theorem Item.WellFormed.eventually_legible : ∀ {i : Item}, i.WellFormed →
    ∀ᶠ room in atTop, i.parenthesized.Legible room
  | .procedure _, h => by
    have hall := (Block.eventually_legible_optional h.preconditions).and
      ((Block.eventually_legible h.main).and (Block.eventually_legible_optional h.confirmation))
    exact hall.mono fun _ ⟨hpre, hmain, hconf⟩ => ⟨h.name, hpre, hmain, hconf⟩
  | .declaration _, h => (tendsto_add_atTop_nat 1).eventually (Declaration.eventually_legible h)

/-- With its parentheses a well-formed file can be read with enough levels. -/
theorem SourceFile.WellFormed.eventually_legible {f : SourceFile} (h : f.WellFormed) :
    ∀ᶠ room in atTop, f.parenthesized.Legible room := by
  obtain ⟨is⟩ := f
  induction is with
  | nil => exact .of_forall fun _ _ hi => by cases hi
  | cons i is ih =>
    obtain ⟨hi, his⟩ := List.forall_mem_cons.1 h
    refine (Item.WellFormed.eventually_legible hi |>.and (ih his)).mono fun _ ⟨hi, his⟩ => ?_
    exact List.forall_mem_cons.2 ⟨hi, his⟩

/-! ## Reading the text -/

open Grammar Reader

/-- The text of a well-formed file is read as that file with the parentheses that its
expressions need, but for the lines, unless it nests too deep. -/
theorem parseSource_text_of_wellFormed {f : SourceFile} (h : f.WellFormed) :
    (∃ g, parseSource f.text = .accepted g ∧ g.unlined = f.parenthesized.unlined) ∨
      ∃ s : Stream, parseSource f.text = .refused s.tooDeep := by
  obtain ⟨room, hroom, hleg⟩ := ((eventually_ge_atTop maxNesting).and h.eventually_legible).exists
  obtain ⟨us, e, htext, hus, hfused, he⟩ := SourceFile.tokenize_text hleg
  rw [f.text_parenthesized] at htext
  have hparse : parseSource f.text = ((many (fileRoundAt maxNesting)
      (.ofTokens (us ++ [e]))).map SourceFile.mk).verdict := by
    rw [parseSource, ofText, htext, ← fileRound_outcome]
    exact parseFile_eq _
  rw [hparse]
  obtain heq | ⟨s, hdeep⟩ := many_fileRoundAt_restricts hroom (.ofTokens (us ++ [e]))
  · have hend : Stream.token ⟨e, []⟩ = .eof := he
    have hrow : us ++ [e] = us ++ Stream.row ⟨e, []⟩ := rfl
    obtain ⟨js, hrun, hjs⟩ := yields_items hleg hus hfused hend
    refine .inl ⟨⟨js⟩, ?_, congrArg SourceFile.mk hjs⟩
    rw [heq, hrow, Stream.ofTokens_append_row, hrun]
    rfl
  · exact .inr ⟨s, by rw [hdeep]; rfl⟩

/-- A sign that begins a line of its own, a call behind `confirm`, and an operand that needs
parentheses, in the branch of a conditional behind a declaration. -/
theorem parseSource_text_of_wellFormed_adjacent :
    let body : Block :=
      [.activity .initiate ⟨["a"]⟩ [] 0,
        .expr (.unary .neg (.binary .add (.name "a") (.name "b"))) 0,
        .check (.call ⟨["a"]⟩ []) 0]
    let f : SourceFile :=
      ⟨[.declaration (.type "b" (.struct [.mk "m" (.named ⟨["a", "m"]⟩)]) 0),
        .procedure ⟨"a", none, [.conditional [.mk (.name "b") body] none 0], none, 0⟩]⟩
    f.WellFormed ∧
      ((∃ g, parseSource f.text = .accepted g ∧ g.unlined = f.parenthesized.unlined) ∨
        ∃ s : Stream, parseSource f.text = .refused s.tooDeep) := by
  intro body f
  have ha : IsName "a" := .of_isWord rfl rfl (by decide) rfl
  have hb : IsName "b" := .of_isWord rfl rfl (by decide) rfl
  have hm : IsMemberName "m" := .inr (by decide)
  have hpath : Path.WellFormed ⟨["a"]⟩ := ⟨ha, by simp⟩
  have hbody : Block.WellFormed body :=
    ⟨⟨⟨by decide, hpath⟩, trivial⟩, ⟨ha, hb⟩, ⟨⟨by decide, hpath⟩, trivial⟩, trivial⟩
  have htype : Field.AllWellFormed [.mk "m" (.named ⟨["a", "m"]⟩)] :=
    ⟨⟨hm, ⟨⟨by decide, ha, by simpa using hm⟩, by simp⟩⟩, trivial⟩
  have hf : f.WellFormed := by
    intro i hi
    simp only [f, List.mem_cons, List.not_mem_nil, or_false] at hi
    obtain rfl | rfl := hi
    · exact ⟨hb, htype⟩
    · exact ⟨ha, by simp, ⟨⟨by decide, hb, hbody, trivial⟩, trivial⟩, by simp⟩
  exact ⟨hf, parseSource_text_of_wellFormed hf⟩

end OpsLang
