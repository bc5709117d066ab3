import OpsLang.Proofs.Rereading.File

/-!
# Heights of trees

The reader opens at most `maxNesting` levels inside one another, which bounds the trees it
builds by everything but left operands. A row of operators that groups to the left is read in a
loop : each of them puts the tree so far under its left side without opening a level.

`Expr.chain left` is the number of nodes on a longest way down a tree, where the step to a left
operand counts `left`. With left operands at the level of their operators, every chain of a file
that was read is short (`chain_le_of_parseSource`). Counted as any other step, they make the
height of the tree (`SourceFile.height`), and for that there is no bound : a sum of ones is read
however long it is (`parseSource_sumFile`).
-/

namespace OpsLang

/-! ## Chains -/

mutual

/-- The number of nodes on a longest way down the expression, where a left operand stands `left`
nodes below its operator. -/
def Expr.chain (left : Nat) : Expr → Nat
  | .call _ as => Argument.allChain left as + 1
  | .binary _ l r => max (l.chain left + left) (r.chain left + 1)
  | .unary _ e | .parens e => e.chain left + 1
  | _ => 1

/-- The number of nodes on a longest way down one of the arguments. -/
def Argument.allChain (left : Nat) : List Argument → Nat
  | [] => 0
  | .positional v :: as | .named _ v :: as => max (v.chain left + 1) (Argument.allChain left as)

end

mutual

/-- The number of nodes on a longest way down the statement. -/
def Statement.chain (left : Nat) : Statement → Nat
  | .activity _ _ as _ => Argument.allChain left as + 1
  | .check e _ | .wait e _ | .assign _ e _ | .expr e _ => e.chain left + 1
  | .conditional branches none _ => Branch.allChain left branches + 1
  | .conditional branches (some body) _ =>
    max (Branch.allChain left branches) (Block.chain left body) + 1
  | .whileLoop e body _ | .forLoop _ e body _ => max (e.chain left) (Block.chain left body) + 1

/-- The number of nodes on a longest way down a block, itself the first. -/
def Block.chain (left : Nat) : List Statement → Nat
  | [] => 1
  | st :: rest => max (st.chain left + 1) (Block.chain left rest)

/-- The number of nodes on a longest way down a condition or a block of the branches. -/
def Branch.allChain (left : Nat) : List Branch → Nat
  | [] => 0
  | .mk c body :: rest =>
    max (max (c.chain left) (Block.chain left body)) (Branch.allChain left rest)

end

mutual

/-- The number of nodes on a longest way down the type. -/
def TypeExpr.chain : TypeExpr → Nat
  | .array element _ => element.chain + 1
  | .struct fields => Field.allChain fields + 1
  | .primitive _ | .named _ => 1

/-- The number of nodes on a longest way down the type of one of the fields. -/
def Field.allChain : List Field → Nat
  | [] => 0
  | .mk _ t :: fields => max t.chain (Field.allChain fields)

end

mutual

/-- The number of nodes on a longest way down the declaration. -/
def Declaration.chain : Declaration → Nat
  | .space _ ds _ => Declaration.allChain ds + 1
  | .type _ body _ => body.type.chain + 1

/-- The number of nodes on a longest way down one of the declarations. -/
def Declaration.allChain : List Declaration → Nat
  | [] => 0
  | d :: ds => max d.chain (Declaration.allChain ds)

end

/-- The number of nodes on a longest way down a section that may be missing. -/
def optionalChain (left : Nat) : Option Block → Nat
  | some body => Block.chain left body
  | none => 0

/-- The number of nodes on a longest way down the item. -/
def Item.chain (left : Nat) : Item → Nat
  | .procedure p =>
    max (optionalChain left p.preconditions)
      (max (Block.chain left p.main) (optionalChain left p.confirmation)) + 1
  | .declaration d => d.chain

/-- The number of nodes on a longest way down from an item of the file. -/
def SourceFile.chain (left : Nat) (f : SourceFile) : Nat :=
  (f.items.map (Item.chain left)).foldr max 0

/-- The number of items, blocks, statements, expressions, arguments and types on a longest way
down the file. -/
def SourceFile.height (f : SourceFile) : Nat :=
  f.chain 1

theorem SourceFile.chain_le_iff {left n : Nat} {f : SourceFile} :
    f.chain left ≤ n ↔ ∀ i ∈ f.items, i.chain left ≤ n := by
  obtain ⟨is⟩ := f
  induction is with
  | nil => simp [chain]
  | cons i is ih =>
    simp only [chain, List.map_cons, List.foldr_cons, Nat.max_le, List.forall_mem_cons] at ih ⊢
    rw [ih]

/-! ## The bound without left operands -/

mutual

/-- Each level that reading an expression opens makes at most two nodes, an argument and its
value. -/
theorem Expr.chain_le : ∀ e : Expr, e.chain 0 ≤ 2 * e.depth + 1
  | .call _ as => by
    have has := Argument.allChain_le as
    simp only [Expr.chain, Expr.depth]
    omega
  | .binary _ l r => by
    have hl := Expr.chain_le l
    have hr := Expr.chain_le r
    simp only [Expr.chain, Expr.depth]
    omega
  | .unary _ e | .parens e => by
    have he := Expr.chain_le e
    simp only [Expr.chain, Expr.depth]
    omega
  | .name _ | .number _ | .measure _ _ | .string _ | .truth _ | .property _ => by
    simp [Expr.chain]

theorem Argument.allChain_le : ∀ as : List Argument,
    Argument.allChain 0 as ≤ 2 * Argument.allDepth as
  | [] => Nat.le_refl 0
  | .positional v :: as | .named _ v :: as => by
    have hv := Expr.chain_le v
    have has := Argument.allChain_le as
    simp only [Argument.allChain, Argument.allDepth, Argument.depth]
    omega

end

theorem Expr.Legible.chain_lt {room : Nat} {e : Expr} (h : e.Legible room) :
    e.chain 0 < 2 * room := by
  have hchain := e.chain_le
  have hdepth := h.fits.2
  omega

theorem Argument.AllLegible.chain_le {room : Nat} {as : List Argument}
    (h : Argument.AllLegible room as) : Argument.allChain 0 as ≤ 2 * room := by
  have hchain := Argument.allChain_le as
  have hdepth := Argument.allDepth_le_iff.2 fun a ha => (h.fits a ha).2
  omega

mutual

/-- Each level of blocks makes two nodes, the block and a statement of it. -/
theorem Statement.Legible.chain_le : ∀ {room : Nat} {st : Statement}, st.Legible room →
    st.chain 0 ≤ 2 * room + 1
  | _, .activity _ _ _ _, ⟨_, has⟩ => Nat.succ_le_succ has.chain_le
  | _, .check _ _, ⟨hc, _⟩ => Nat.succ_le_succ hc.chain_lt.le
  | _, .wait e _, h | _, .expr e _, h => Nat.succ_le_succ (Expr.Legible.chain_lt (e := e) h).le
  | _, .assign _ _ _, ⟨_, hv⟩ => Nat.succ_le_succ hv.chain_lt.le
  | _, .conditional _ none _, ⟨_, hbranches⟩ => Nat.succ_le_succ (Branch.allChain_le hbranches)
  | _, .conditional _ (some _) _, ⟨_, hbranches, hbody⟩ =>
    Nat.succ_le_succ (Nat.max_le.2 ⟨Branch.allChain_le hbranches, Block.chain_le hbody⟩)
  | _, .whileLoop _ _ _, ⟨he, hbody⟩ | _, .forLoop _ _ _ _, ⟨_, he, hbody⟩ =>
    Nat.succ_le_succ (Nat.max_le.2 ⟨he.chain_lt.le, Block.chain_le hbody⟩)

theorem Block.chain_le : ∀ {room : Nat} {body : List Statement}, Block.Legible room body →
    Block.chain 0 body ≤ 2 * room
  | 0, _, h => absurd h Block.not_legible_zero
  | _ + 1, [], _ => by
    simp only [Block.chain]
    omega
  | _ + 1, _ :: _, ⟨hst, hrest⟩ =>
    Nat.max_le.2 ⟨Nat.succ_le_succ hst.chain_le, Block.chain_le hrest⟩

theorem Branch.allChain_le : ∀ {room : Nat} {branches : List Branch},
    Branch.AllLegible room branches → Branch.allChain 0 branches ≤ 2 * room
  | _, [], _ => Nat.zero_le _
  | _, .mk _ _ :: _, ⟨hc, hbody, hrest⟩ =>
    Nat.max_le.2
      ⟨Nat.max_le.2 ⟨hc.chain_lt.le, Block.chain_le hbody⟩, Branch.allChain_le hrest⟩

end

mutual

theorem TypeExpr.Legible.chain_le : ∀ {room : Nat} {t : TypeExpr}, t.Legible room →
    t.chain ≤ room
  | 0, _, h => absurd h TypeExpr.not_legible_zero
  | _ + 1, .primitive _, _ | _ + 1, .named _, _ => Nat.succ_le_succ (Nat.zero_le _)
  | _ + 1, .array element _, h => Nat.succ_le_succ (TypeExpr.Legible.chain_le (t := element) h)
  | _ + 1, .struct fields, h =>
    Nat.succ_le_succ (Field.allChain_le (show Field.AllLegible _ fields from h))

theorem Field.allChain_le : ∀ {room : Nat} {fields : List Field}, Field.AllLegible room fields →
    Field.allChain fields ≤ room
  | _, [], _ => Nat.zero_le _
  | _, .mk _ _ :: _, ⟨⟨_, ht⟩, hrest⟩ => Nat.max_le.2 ⟨ht.chain_le, Field.allChain_le hrest⟩

end

mutual

theorem Declaration.Legible.chain_le : ∀ {room : Nat} {d : Declaration}, d.Legible room →
    d.chain ≤ room + 1
  | 0, _, h => absurd h Declaration.not_legible_zero
  | _ + 1, .space _ _ _, ⟨_, hds⟩ => Nat.succ_le_succ (Declaration.allChain_le hds)
  | _ + 1, .type _ _ _, ⟨_, hbody⟩ => Nat.succ_le_succ hbody.chain_le

theorem Declaration.allChain_le : ∀ {room : Nat} {ds : List Declaration},
    Declaration.AllLegible room ds → Declaration.allChain ds ≤ room + 1
  | _, [], _ => Nat.zero_le _
  | _, _ :: _, ⟨hd, hds⟩ => Nat.max_le.2 ⟨hd.chain_le, Declaration.allChain_le hds⟩

end

theorem optionalChain_le {room : Nat} {body : Option Block}
    (h : ∀ b ∈ body, Block.Legible room b) : optionalChain 0 body ≤ 2 * room := by
  cases body with
  | none => exact Nat.zero_le _
  | some body => exact Block.chain_le (h body rfl)

theorem Item.Legible.chain_le {room : Nat} (hroom : 0 < room) {i : Item} (h : i.Legible room) :
    i.chain 0 ≤ 2 * room + 1 := by
  cases i with
  | procedure p =>
    have hp : p.Legible room := h
    exact Nat.succ_le_succ (Nat.max_le.2 ⟨optionalChain_le hp.preconditions,
      Nat.max_le.2 ⟨Block.chain_le hp.main, optionalChain_le hp.confirmation⟩⟩)
  | declaration d =>
    have hd : d.chain ≤ room + 1 + 1 := Declaration.Legible.chain_le h
    simp only [Item.chain]
    omega

/-- In a file that was read no chain is longer than two nodes for each level and the item itself,
if left operands stand at the level of their operators. -/
theorem chain_le_of_parseSource {text : String} {f : SourceFile}
    (h : parseSource text = .accepted f) : f.chain 0 ≤ 2 * maxNesting + 1 := by
  obtain ⟨us, e, -, he, hw, hfile⟩ := exists_row_of_parseSource h
  have hleg := (parseFile_read he hw hfile).2
  exact SourceFile.chain_le_iff.2 fun i hi => (hleg i hi).chain_le (by decide)

/-- A condition of calls inside each other. -/
theorem chain_le_of_parseSource_calls :
    let f : SourceFile := ⟨[.procedure ⟨"p", none,
      [.check (.parens (.call ⟨["f"]⟩ [.positional (.call ⟨["b"]⟩ [])])) 1], none, 1⟩]⟩
    parseSource "procedure p main confirm (f(b())) end main end procedure" = .accepted f ∧
      f.chain 0 ≤ 2 * maxNesting + 1 := by
  intro f
  have h : parseSource "procedure p main confirm (f(b())) end main end procedure" =
      .accepted f := by cbv
  exact ⟨h, chain_le_of_parseSource h⟩

/-! ## Lines make no difference -/

mutual

theorem Statement.chain_unlined (left : Nat) : ∀ st : Statement,
    st.unlined.chain left = st.chain left
  | .activity _ _ _ _ | .check _ _ | .wait _ _ | .assign _ _ _ | .expr _ _ => rfl
  | .conditional branches none _ => by
    simp only [Statement.unlined, Statement.chain, Branch.allChain_unlined left branches]
  | .conditional branches (some body) _ => by
    simp only [Statement.unlined, Statement.chain, Branch.allChain_unlined left branches,
      Block.chain_unlined left body]
  | .whileLoop _ body _ | .forLoop _ _ body _ => by
    simp only [Statement.unlined, Statement.chain, Block.chain_unlined left body]

theorem Block.chain_unlined (left : Nat) : ∀ body : List Statement,
    Block.chain left (Block.unlined body) = Block.chain left body
  | [] => rfl
  | st :: rest => by
    simp only [Block.unlined, Block.chain, Statement.chain_unlined left st,
      Block.chain_unlined left rest]

theorem Branch.allChain_unlined (left : Nat) : ∀ branches : List Branch,
    Branch.allChain left (Branch.allUnlined branches) = Branch.allChain left branches
  | [] => rfl
  | .mk _ body :: rest => by
    simp only [Branch.allUnlined, Branch.allChain, Block.chain_unlined left body,
      Branch.allChain_unlined left rest]

end

mutual

theorem Declaration.chain_unlined : ∀ d : Declaration, d.unlined.chain = d.chain
  | .space _ ds _ => by
    simp only [Declaration.unlined, Declaration.chain, Declaration.allChain_unlined ds]
  | .type _ _ _ => rfl

theorem Declaration.allChain_unlined : ∀ ds : List Declaration,
    Declaration.allChain (Declaration.allUnlined ds) = Declaration.allChain ds
  | [] => rfl
  | d :: ds => by
    simp only [Declaration.allUnlined, Declaration.allChain, Declaration.chain_unlined d,
      Declaration.allChain_unlined ds]

end

theorem optionalChain_unlined (left : Nat) (body : Option Block) :
    optionalChain left (body.map Block.unlined) = optionalChain left body := by
  cases body with
  | none => rfl
  | some body => exact Block.chain_unlined left body

theorem Item.chain_unlined (left : Nat) (i : Item) : i.unlined.chain left = i.chain left := by
  cases i with
  | procedure p =>
    simp only [Item.unlined, Item.chain, Procedure.unlined, optionalChain_unlined,
      Block.chain_unlined]
  | declaration d => exact Declaration.chain_unlined d

theorem SourceFile.chain_unlined (left : Nat) (f : SourceFile) :
    f.unlined.chain left = f.chain left := by
  simp [chain, unlined, Item.chain_unlined, Function.comp_def]

/-! ## Sums of any length -/

/-- One, plus one as many times as told. -/
def sumOfOnes : Nat → Expr
  | 0 => .number (.ofLexeme "1")
  | n + 1 => .binary .add (sumOfOnes n) (.number (.ofLexeme "1"))

/-- A procedure that does nothing but evaluate a sum. -/
def sumFile (n : Nat) : SourceFile :=
  ⟨[.procedure ⟨"P", none, [.expr (sumOfOnes n) 0], none, 0⟩]⟩

theorem chain_sumOfOnes (n : Nat) : (sumOfOnes n).chain 1 = n + 1 := by
  induction n with
  | zero => rfl
  | succ n ih =>
    have hone : (Expr.number (.ofLexeme "1")).chain 1 = 1 := rfl
    rw [sumOfOnes, Expr.chain, ih, hone]
    omega

/-- A sum opens one level, whatever its length : that of its right operands. -/
theorem legible_sumOfOnes (room n : Nat) : (sumOfOnes n).Legible (room + 2) := by
  have hone : (Expr.number (.ofLexeme "1")).Legible (room + 1) := by
    have hdigits : IsDigits ['1'] := ⟨by simp, by simp⟩
    refine ⟨by simp, rfl, ?_⟩
    simpa [Expr.tokens, Token.Written] using IsNumber.decimal hdigits .none .none
  induction n with
  | zero =>
    refine ⟨by simp [sumOfOnes], hone.spells, hone.written⟩
  | succ n ih =>
    have hbare : (sumOfOnes n).bindsBelow BinaryOp.add.leftFloor = false := by
      cases n <;> rfl
    refine ⟨Expr.fits_binary.2 ⟨⟨hbare, rfl⟩, ih.fits, hone.fits⟩,
      ⟨_, _, ih.spells, hone.spells, rfl⟩, ?_⟩
    rw [sumOfOnes, Expr.tokens, List.forall_mem_append, List.forall_mem_cons]
    exact ⟨ih.written, trivial, hone.written⟩

theorem legible_sumFile (n : Nat) : (sumFile n).Legible maxNesting := by
  have hname : IsName "P" := .of_isWord rfl rfl (by decide) rfl
  have hblock : Block.Legible maxNesting [.expr (sumOfOnes n) 0] :=
    ⟨legible_sumOfOnes 125 n, trivial⟩
  intro i hi
  obtain rfl := List.mem_singleton.1 hi
  exact ⟨hname, by simp, hblock, by simp⟩

/-- A sum of any length is read, and its tree is as high as it is long. -/
theorem parseSource_sumFile (n : Nat) :
    ∃ f, parseSource (sumFile n).text = .accepted f ∧ f.height = n + 4 := by
  obtain ⟨us, e, htext, hus, hfused, he⟩ := SourceFile.tokenize_text (legible_sumFile n)
  obtain ⟨g, hg, hunlined⟩ := parseFile_of_legible (legible_sumFile n) he hus hfused
  refine ⟨g, by rw [parseSource, ofText, htext]; exact hg, ?_⟩
  rw [SourceFile.height, ← SourceFile.chain_unlined, hunlined, SourceFile.chain_unlined]
  have hsum := chain_sumOfOnes n
  simp only [SourceFile.chain, sumFile, List.map_cons, List.map_nil, List.foldr_cons,
    List.foldr_nil, Item.chain, optionalChain, Block.chain, Statement.chain, hsum]
  omega

/-- A sum of 513 ones makes a tree that is higher than four nodes for each level. -/
theorem parseSource_sumFile_higher :
    ∃ f, parseSource (sumFile 512).text = .accepted f ∧ 4 * maxNesting < f.height := by
  obtain ⟨f, hf, hheight⟩ := parseSource_sumFile 512
  refine ⟨f, hf, ?_⟩
  rw [hheight]
  decide

end OpsLang
