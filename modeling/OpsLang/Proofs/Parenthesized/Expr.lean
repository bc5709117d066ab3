import OpsLang.Proofs.Canonical.Expr
import OpsLang.Proofs.NestingLimit
import OpsLang.Proofs.Unambiguity

/-!
# Texts of trees that no reader built

The text of a tree puts parentheses around operands that would otherwise be grouped in
another way, so what is read back is the tree with these parentheses (`Expr.parenthesized`).
It has the same text (`Expr.text_parenthesized`) and groups by precedence
(`Expr.WellFormed.every_parenthesized`), so `readsBack_expression` applies to it, with as many
levels as it needs.

The reader has only `maxNesting` levels. Inside these it reads as with more, or finds the tree
too deep (`expression_restricts`). The parentheses at most double the levels of a tree
(`Expr.depth_parenthesized_le`), so a tree of height sixty is never too deep
(`parseExpr_text`).
-/

namespace OpsLang

/-! ## Well-formed trees -/

/-- The word can stand behind a dot : a name, or a unit spelling that is a word. -/
def IsMemberName (n : String) : Prop :=
  IsName n ∨ n ∈ unitSpellings ∧ '/' ∉ n.toList ∧ '%' ∉ n.toList

/-- The first segment is a name, and the others can stand behind dots. -/
def Path.WellFormed (p : Path) : Prop :=
  match p.segments with
  | [] => True
  | n :: ns => IsName n ∧ ∀ m ∈ ns, IsMemberName m

/-- The spelling is read as one number, which is of the kind of the numeral. -/
structure Numeral.WellFormed (v : Numeral) : Prop where
  lexeme : ∃ ts, tokenize v.lexeme = .ok ts ∧ words ts = [.number v.lexeme, .eof]
  kind : v = .ofLexeme v.lexeme

/-- The spelling is that of a unit of the quantity. -/
def UnitTag.WellFormed (u : UnitTag) : Prop :=
  Quantity.ofUnit? u.spelling = some u.quantity

mutual

/-- The names and spellings in the expression can be read as such, and no dotted name has too
few segments. -/
def Expr.WellFormed : Expr → Prop
  | .name n => IsName n
  | .number v => v.WellFormed
  | .measure v u => v.WellFormed ∧ u.WellFormed
  | .string _ | .truth _ => True
  | .property p => 2 ≤ p.segments.length ∧ p.WellFormed
  | .call p as => (1 ≤ p.segments.length ∧ p.WellFormed) ∧ Argument.AllWellFormed as
  | .binary _ l r => l.WellFormed ∧ r.WellFormed
  | .unary _ e | .parens e => e.WellFormed

/-- The name and the value of the argument are well formed. -/
def Argument.WellFormed : Argument → Prop
  | .positional v => v.WellFormed
  | .named n v => IsName n ∧ v.WellFormed

/-- The arguments are well formed. -/
def Argument.AllWellFormed : List Argument → Prop
  | [] => True
  | a :: as => a.WellFormed ∧ Argument.AllWellFormed as

end

/-! ## Parentheses where they are needed -/

/-- The operation `o` may be the left operand of `op` without parentheses : it binds tighter,
or equally where `op` groups from the left. -/
def BinaryOp.bareLeft (op o : BinaryOp) : Bool :=
  op.precedence < o.precedence || (op.precedence == o.precedence && !op.isRightAssoc)

/-- The operation `o` may be the right operand of `op` without parentheses : it binds tighter,
or equally where `op` groups from the right. -/
def BinaryOp.bareRight (op o : BinaryOp) : Bool :=
  op.precedence < o.precedence || (op.precedence == o.precedence && op.isRightAssoc)

/-- The expression as an operand, in parentheses if it is an operation that may not be bare. -/
def Expr.asOperand (bare : BinaryOp → Bool) : Expr → Expr
  | .binary op l r => if bare op then .binary op l r else .parens (.binary op l r)
  | e => e

mutual

/-- The expression with parentheses around the operations that need them as operands. -/
def Expr.parenthesized : Expr → Expr
  | .call p as => .call p (Argument.allParenthesized as)
  | .binary op l r =>
    .binary op (l.parenthesized.asOperand op.bareLeft) (r.parenthesized.asOperand op.bareRight)
  | .unary op e => .unary op (e.parenthesized.asOperand fun _ => false)
  | .parens e => .parens e.parenthesized
  | e => e

/-- The argument with parentheses around the operations that need them as operands. -/
def Argument.parenthesized : Argument → Argument
  | .positional v => .positional v.parenthesized
  | .named n v => .named n v.parenthesized

/-- The arguments with parentheses around the operations that need them as operands. -/
def Argument.allParenthesized : List Argument → List Argument
  | [] => []
  | a :: as => a.parenthesized :: Argument.allParenthesized as

end

mutual

/-- The number of steps from the root of the tree to the farthest leaf. -/
def Expr.height : Expr → Nat
  | .call _ as => Argument.allHeight as
  | .binary _ l r => max l.height r.height + 1
  | .unary _ e | .parens e => e.height + 1
  | _ => 0

/-- The number of steps from a call to the farthest leaf of its arguments. -/
def Argument.allHeight : List Argument → Nat
  | [] => 0
  | .positional v :: as | .named _ v :: as => max (v.height + 1) (Argument.allHeight as)

end

/-- The floor of the left side is the least precedence of an operation that may be bare
there. -/
theorem BinaryOp.bareLeft_eq_false (op o : BinaryOp) :
    op.bareLeft o = false ↔ o.precedence < op.leftFloor := by
  unfold bareLeft leftFloor
  cases op.isRightAssoc
  · simp
    omega
  · simp

/-- The floor of the right side is the least precedence of an operation that may be bare
there. -/
theorem BinaryOp.bareRight_eq_false (op o : BinaryOp) :
    op.bareRight o = false ↔ o.precedence < op.rightFloor := by
  unfold bareRight rightFloor
  cases op.isRightAssoc
  · simp
  · simp
    omega

namespace Expr

variable {bare : BinaryOp → Bool} {floor : Nat} {e : Expr}

theorem asOperand_binary (bare : BinaryOp → Bool) (op : BinaryOp) (l r : Expr) :
    (binary op l r).asOperand bare =
      if bare op then binary op l r else parens (binary op l r) := rfl

theorem asOperand_cases (bare : BinaryOp → Bool) (e : Expr) :
    e.asOperand bare = e ∨ e.asOperand bare = parens e := by
  cases e with
  | binary op l r =>
    rw [asOperand_binary]
    split
    · exact .inl rfl
    · exact .inr rfl
  | _ => exact .inl rfl

theorem bindsBelow_asOperand (h : ∀ o, bare o = false ↔ o.precedence < floor) (e : Expr) :
    (e.asOperand bare).bindsBelow floor = false := by
  cases e with
  | binary op l r =>
    rw [asOperand_binary]
    split
    · next hb => simp [bindsBelow, ← h op, hb]
    · rfl
  | _ => rfl

theorem text_asOperand (h : ∀ o, bare o = false ↔ o.precedence < floor) (e : Expr) :
    (e.asOperand bare).text = inParens (e.bindsBelow floor) e.text := by
  cases e with
  | binary op l r =>
    rw [asOperand_binary]
    split
    · next hb => simp [bindsBelow, ← h op, hb, inParens]
    · next hb => simp [bindsBelow, ← h op, hb, Expr.text]
  | _ => rfl

theorem asOperand_of_bindsBelow (h : ∀ o, bare o = false ↔ o.precedence < floor)
    (he : e.bindsBelow floor = false) : e.asOperand bare = e := by
  cases e with
  | binary op l r =>
    have hge : ¬op.precedence < floor := by simpa [bindsBelow] using he
    have hbare : bare op = true := by simpa [← h op] using hge
    rw [asOperand_binary, if_pos hbare]
  | _ => rfl

theorem asOperand_of_isBinary (he : e.isBinary = false) : e.asOperand bare = e := by
  cases e <;> first | rfl | cases he

theorem isBinary_asOperand (e : Expr) : (e.asOperand fun _ => false).isBinary = false := by
  cases e <;> rfl

theorem text_asOperand_unary (e : Expr) :
    (e.asOperand fun _ => false).text = inParens e.isBinary e.text := by
  cases e with
  | binary op l r => simp [asOperand_binary, isBinary, Expr.text]
  | _ => rfl

theorem depth_asOperand_le (bare : BinaryOp → Bool) (e : Expr) :
    (e.asOperand bare).depth ≤ e.depth + 1 := by
  obtain h | h := asOperand_cases bare e <;> rw [h]
  · exact Nat.le_succ _
  · exact Nat.le_refl _

theorem every_asOperand {p : Expr → Prop} (hp : ∀ e, p (.parens e)) (h : e.Every p) :
    (e.asOperand bare).Every p := by
  obtain heq | heq := asOperand_cases bare e <;> rw [heq]
  · exact h
  · exact ⟨hp e, h⟩

theorem WellFormed.asOperand (h : e.WellFormed) : (e.asOperand bare).WellFormed := by
  obtain heq | heq := asOperand_cases bare e <;> rw [heq] <;> exact h

theorem bindsBelow_parenthesized (e : Expr) :
    e.parenthesized.bindsBelow floor = e.bindsBelow floor := by
  cases e <;> simp only [parenthesized, bindsBelow]

theorem isBinary_parenthesized (e : Expr) : e.parenthesized.isBinary = e.isBinary := by
  cases e <;> simp only [parenthesized, isBinary]

end Expr

mutual

/-- The parentheses are those that the text has anyway. -/
theorem Expr.text_parenthesized : ∀ e : Expr, e.parenthesized.text = e.text
  | .call p as => by
    simp only [Expr.parenthesized, Expr.text, Argument.texts_parenthesized as]
  | .binary op l r => by
    have hl := op.bareLeft_eq_false
    have hr := op.bareRight_eq_false
    simp only [Expr.parenthesized, Expr.text, Expr.bindsBelow_asOperand hl,
      Expr.bindsBelow_asOperand hr, Expr.text_asOperand hl, Expr.text_asOperand hr,
      Expr.bindsBelow_parenthesized, Expr.text_parenthesized l, Expr.text_parenthesized r]
    rfl
  | .unary op e => by
    simp only [Expr.parenthesized, Expr.text, Expr.isBinary_asOperand, Expr.text_asOperand_unary,
      Expr.isBinary_parenthesized, Expr.text_parenthesized e]
    rfl
  | .parens e => by
    simp only [Expr.parenthesized, Expr.text, Expr.text_parenthesized e]
  | .name _ | .number _ | .measure _ _ | .string _ | .truth _ | .property _ => by
    simp only [Expr.parenthesized]

theorem Argument.texts_parenthesized : ∀ as : List Argument,
    Argument.texts (Argument.allParenthesized as) = Argument.texts as
  | [] => rfl
  | .positional v :: as => by
    simp only [Argument.allParenthesized, Argument.parenthesized, Argument.texts, Argument.text,
      Expr.text_parenthesized v, Argument.texts_parenthesized as]
  | .named _ v :: as => by
    simp only [Argument.allParenthesized, Argument.parenthesized, Argument.texts, Argument.text,
      Expr.text_parenthesized v, Argument.texts_parenthesized as]

end

mutual

/-- A tree that groups by precedence needs no more parentheses. -/
theorem Expr.parenthesized_of_grouped : ∀ {e : Expr}, e.Grouped → e.parenthesized = e
  | .call _ as, ⟨_, has⟩ => by
    rw [Expr.parenthesized, Argument.parenthesized_of_grouped has]
  | .binary op l r, ⟨hgroup, hl, hr⟩ => by
    obtain ⟨hlfloor, hrfloor⟩ := Expr.groupsAt_binary_iff.1 hgroup
    rw [Expr.parenthesized, Expr.parenthesized_of_grouped hl, Expr.parenthesized_of_grouped hr,
      Expr.asOperand_of_bindsBelow op.bareLeft_eq_false hlfloor,
      Expr.asOperand_of_bindsBelow op.bareRight_eq_false hrfloor]
  | .unary _ e, ⟨hgroup, he⟩ => by
    rw [Expr.parenthesized, Expr.parenthesized_of_grouped he, Expr.asOperand_of_isBinary hgroup]
  | .parens e, ⟨_, he⟩ => by
    rw [Expr.parenthesized, Expr.parenthesized_of_grouped he]
  | .name _, _ | .number _, _ | .measure _ _, _ | .string _, _ | .truth _, _ | .property _, _ => by
    rw [Expr.parenthesized] <;> simp

theorem Argument.parenthesized_of_grouped : ∀ {as : List Argument},
    Argument.AllEvery Expr.GroupsAt as → Argument.allParenthesized as = as
  | [], _ => rfl
  | .positional v :: as, ⟨hv, has⟩ => by
    rw [Argument.allParenthesized, Argument.parenthesized,
      Expr.parenthesized_of_grouped (e := v) hv, Argument.parenthesized_of_grouped has]
  | .named _ v :: as, ⟨hv, has⟩ => by
    rw [Argument.allParenthesized, Argument.parenthesized,
      Expr.parenthesized_of_grouped (e := v) hv, Argument.parenthesized_of_grouped has]

end

mutual

/-- Each step down the tree opens two levels at most : one for the operand, and one for
parentheses around it. -/
theorem Expr.depth_parenthesized_le : ∀ e : Expr, e.parenthesized.depth ≤ 2 * e.height
  | .call p as => by
    simp only [Expr.parenthesized, Expr.depth, Expr.height]
    exact Argument.allDepth_parenthesized_le as
  | .binary op l r => by
    have hl := Expr.depth_asOperand_le op.bareLeft l.parenthesized
    have hr := Expr.depth_asOperand_le op.bareRight r.parenthesized
    have ihl := Expr.depth_parenthesized_le l
    have ihr := Expr.depth_parenthesized_le r
    simp only [Expr.parenthesized, Expr.depth, Expr.height]
    omega
  | .unary op e => by
    have he := Expr.depth_asOperand_le (fun _ => false) e.parenthesized
    have ih := Expr.depth_parenthesized_le e
    simp only [Expr.parenthesized, Expr.depth, Expr.height]
    omega
  | .parens e => by
    have ih := Expr.depth_parenthesized_le e
    simp only [Expr.parenthesized, Expr.depth, Expr.height]
    omega
  | .name _ | .number _ | .measure _ _ | .string _ | .truth _ | .property _ => by
    simp only [Expr.parenthesized, Expr.depth, Expr.height, Nat.mul_zero, Nat.le_refl]

theorem Argument.allDepth_parenthesized_le : ∀ as : List Argument,
    Argument.allDepth (Argument.allParenthesized as) ≤ 2 * Argument.allHeight as
  | [] => Nat.le_refl 0
  | .positional v :: as | .named _ v :: as => by
    have ihv := Expr.depth_parenthesized_le v
    have ih := Argument.allDepth_parenthesized_le as
    simp only [Argument.allParenthesized, Argument.parenthesized, Argument.allDepth,
      Argument.depth, Argument.allHeight]
    omega

end

mutual

theorem Expr.WellFormed.parenthesized : ∀ {e : Expr}, e.WellFormed → e.parenthesized.WellFormed
  | .call _ _, ⟨hp, has⟩ => ⟨hp, Argument.wellFormed_parenthesized has⟩
  | .binary _ _ _, ⟨hl, hr⟩ =>
    ⟨hl.parenthesized.asOperand, hr.parenthesized.asOperand⟩
  | .unary _ e, h => (Expr.WellFormed.parenthesized (e := e) h).asOperand
  | .parens e, h => Expr.WellFormed.parenthesized (e := e) h
  | .name _, h | .number _, h | .measure _ _, h | .string _, h | .truth _, h
  | .property _, h => h

theorem Argument.wellFormed_parenthesized : ∀ {as : List Argument}, Argument.AllWellFormed as →
    Argument.AllWellFormed (Argument.allParenthesized as)
  | [], _ => trivial
  | .positional v :: _, ⟨hv, has⟩ =>
    ⟨Expr.WellFormed.parenthesized (e := v) hv, Argument.wellFormed_parenthesized has⟩
  | .named _ _ :: _, ⟨⟨hn, hv⟩, has⟩ =>
    ⟨⟨hn, hv.parenthesized⟩, Argument.wellFormed_parenthesized has⟩

end

mutual

/-- With its parentheses a well-formed tree groups by precedence and shows all its data. -/
theorem Expr.WellFormed.every_parenthesized : ∀ {e : Expr}, e.WellFormed →
    e.parenthesized.Every fun e => e.GroupsAt ∧ e.ProperAt
  | .call _ as, ⟨hp, has⟩ => ⟨⟨trivial, hp.1⟩, Argument.every_parenthesized has⟩
  | .binary op l r, ⟨hl, hr⟩ => by
    have hgroup := Expr.groupsAt_binary_iff.2
      ⟨Expr.bindsBelow_asOperand op.bareLeft_eq_false l.parenthesized,
        Expr.bindsBelow_asOperand op.bareRight_eq_false r.parenthesized⟩
    exact ⟨⟨hgroup, trivial⟩,
      Expr.every_asOperand (fun _ => ⟨trivial, trivial⟩) hl.every_parenthesized,
      Expr.every_asOperand (fun _ => ⟨trivial, trivial⟩) hr.every_parenthesized⟩
  | .unary op e, h =>
    ⟨⟨Expr.isBinary_asOperand _, trivial⟩, Expr.every_asOperand (fun _ => ⟨trivial, trivial⟩)
      (Expr.WellFormed.every_parenthesized (e := e) h)⟩
  | .parens e, h => ⟨⟨trivial, trivial⟩, Expr.WellFormed.every_parenthesized (e := e) h⟩
  | .name _, _ | .string _, _ | .truth _, _ => ⟨trivial, trivial⟩
  | .number _, h => ⟨trivial, Numeral.WellFormed.kind h⟩
  | .measure _ _, ⟨hv, hu⟩ => ⟨trivial, hv.kind, hu⟩
  | .property _, ⟨hp, _⟩ => ⟨trivial, hp⟩

theorem Argument.every_parenthesized : ∀ {as : List Argument}, Argument.AllWellFormed as →
    Argument.AllEvery (fun e => e.GroupsAt ∧ e.ProperAt) (Argument.allParenthesized as)
  | [], _ => trivial
  | .positional v :: _, ⟨hv, has⟩ =>
    ⟨Expr.WellFormed.every_parenthesized (e := v) hv, Argument.every_parenthesized has⟩
  | .named _ _ :: _, ⟨⟨_, hv⟩, has⟩ =>
    ⟨hv.every_parenthesized, Argument.every_parenthesized has⟩

end

/-! ## Tokens of well-formed trees -/

theorem IsMemberName.member {n : String} (h : IsMemberName n) :
    (Token.member n).IsMember n ∧ (Token.member n).Written := by
  obtain h | ⟨hunit, hslash, hpercent⟩ := h
  · rw [Token.member, if_neg (by simp [h.unit])]
    exact ⟨.inl rfl, h⟩
  · rw [Token.member, if_pos (isUnit_iff.2 hunit)]
    refine ⟨.inr ⟨rfl, List.all_eq_true.2 fun c hc => ?_⟩, hunit⟩
    obtain rfl | ⟨⟨-, -, hchars⟩, -⟩ := unitSpellings_shape n hunit
    · exact absurd (by decide) hpercent
    · obtain hword | rfl := hchars c hc
      · exact hword
      · exact absurd hc hslash

theorem membersSpell_memberTokens : ∀ {ns : List String}, (∀ n ∈ ns, IsMemberName n) →
    MembersSpell ns (memberTokens ns) ∧ ∀ t ∈ memberTokens ns, t.Written
  | [], _ => ⟨rfl, by simp [memberTokens]⟩
  | n :: ns, h => by
    obtain ⟨hn, hns⟩ := List.forall_mem_cons.1 h
    obtain ⟨hspell, hw⟩ := membersSpell_memberTokens hns
    refine ⟨⟨_, _, hn.member.1, hspell, rfl⟩, ?_⟩
    simp only [memberTokens, List.forall_mem_cons]
    exact ⟨trivial, hn.member.2, hw⟩

theorem Path.WellFormed.spells {p : Path} (h : p.WellFormed) :
    p.Spells p.tokens ∧ ∀ t ∈ p.tokens, t.Written := by
  obtain ⟨_ | ⟨n, ns⟩⟩ := p
  · exact ⟨rfl, by simp [Path.tokens]⟩
  · obtain ⟨hn, hns⟩ := h
    obtain ⟨hspell, hw⟩ := membersSpell_memberTokens hns
    exact ⟨⟨_, hspell, rfl⟩, List.forall_mem_cons.2 ⟨hn, hw⟩⟩

theorem Path.WellFormed.legible {p : Path} (h : p.WellFormed) (hne : p.segments ≠ []) :
    p.Legible :=
  ⟨hne, h.spells.1, h.spells.2⟩

theorem Numeral.WellFormed.isNumber {v : Numeral} (h : v.WellFormed) :
    IsNumber v.lexeme.toList := by
  obtain ⟨ts, hts, hwords⟩ := h.lexeme
  obtain ⟨us, e, rfl, he, hw⟩ := tokenize_spec hts
  have hmem : Token.number v.lexeme ∈ words (us ++ [e]) := by simp [hwords]
  obtain ⟨u, hu, htoken⟩ := List.mem_map.1 hmem
  obtain hu | hu := List.mem_append.1 hu
  · have hnumber := hw u hu
    rwa [htoken] at hnumber
  · obtain rfl := List.mem_singleton.1 hu
    rw [he] at htoken
    cases htoken

theorem UnitTag.WellFormed.mem {u : UnitTag} (h : u.WellFormed) : u.spelling ∈ unitSpellings := by
  refine isUnit_iff.1 ?_
  rw [isUnit, show Quantity.ofUnit? u.spelling = some u.quantity from h]
  rfl

mutual

/-- The canonical tokens of a well-formed tree spell it and can be written. -/
theorem Expr.WellFormed.spells : ∀ {e : Expr}, e.WellFormed →
    e.Spells e.tokens ∧ ∀ t ∈ e.tokens, t.Written
  | .name n, h => by
    have hn : IsName n := h
    exact ⟨rfl, by simpa [Expr.tokens, Token.Written] using hn⟩
  | .number v, h => by
    have hv : IsNumber v.lexeme.toList := Numeral.WellFormed.isNumber h
    exact ⟨rfl, by simpa [Expr.tokens, Token.Written] using hv⟩
  | .measure _ _, ⟨hv, hu⟩ =>
    ⟨rfl, by simpa [Expr.tokens, Token.Written] using ⟨hv.isNumber, hu.mem⟩⟩
  | .string _, _ | .truth _, _ => ⟨rfl, by simp [Expr.tokens, Token.Written]⟩
  | .property _, ⟨_, hp⟩ => hp.spells
  | .call _ as, ⟨⟨_, hp⟩, has⟩ => by
    obtain ⟨hpath, hpw⟩ := hp.spells
    obtain ⟨hargs, haw⟩ := Argument.spells_of_wellFormed has
    refine ⟨⟨_, _, hpath, hargs, rfl⟩, ?_⟩
    simp only [Expr.tokens, List.forall_mem_append, List.forall_mem_cons]
    exact ⟨hpw, trivial, haw, trivial, by simp⟩
  | .binary op _ _, ⟨hl, hr⟩ => by
    obtain ⟨hleft, hlw⟩ := hl.spells
    obtain ⟨hright, hrw⟩ := hr.spells
    refine ⟨⟨_, _, hleft, hright, rfl⟩, ?_⟩
    simp only [Expr.tokens, List.forall_mem_append, List.forall_mem_cons]
    exact ⟨hlw, op.written_token, hrw⟩
  | .unary op e, h => by
    obtain ⟨he, hw⟩ := Expr.WellFormed.spells (e := e) h
    exact ⟨⟨_, he, rfl⟩, List.forall_mem_cons.2 ⟨by cases op <;> trivial, hw⟩⟩
  | .parens e, h => by
    obtain ⟨he, hw⟩ := Expr.WellFormed.spells (e := e) h
    refine ⟨⟨_, he, rfl⟩, ?_⟩
    simp only [Expr.tokens, List.forall_mem_append, List.forall_mem_cons]
    exact ⟨trivial, hw, trivial, by simp⟩

theorem Argument.spells_of_wellFormed : ∀ {as : List Argument}, Argument.AllWellFormed as →
    Argument.AllSpell as (Argument.allTokens as) ∧ ∀ t ∈ Argument.allTokens as, t.Written
  | [], _ => ⟨rfl, by simp [Argument.allTokens]⟩
  | a :: as, ⟨ha, has⟩ => by
    obtain ⟨hrest, hrw⟩ := Argument.spells_of_wellFormed has
    have hfirst : a.Spells a.tokens ∧ ∀ t ∈ a.tokens, t.Written := by
      cases a with
      | positional v => exact Expr.WellFormed.spells (e := v) ha
      | named n v =>
        obtain ⟨hn, hv⟩ := ha
        obtain ⟨hvalue, hvw⟩ := hv.spells
        refine ⟨⟨_, hvalue, rfl⟩, ?_⟩
        simp only [Argument.tokens, List.forall_mem_cons]
        exact ⟨hn, trivial, hvw⟩
    cases as with
    | nil =>
      refine ⟨⟨_, [], hfirst.1, rfl, .inl ⟨rfl, rfl⟩⟩, ?_⟩
      simpa [Argument.allTokens] using hfirst.2
    | cons b as =>
      refine ⟨⟨_, _, hfirst.1, rfl, .inr ⟨_, hrest, rfl⟩⟩, ?_⟩
      rw [Argument.allTokens]
      simp only [List.isEmpty_cons, Bool.false_eq_true, if_false, List.forall_mem_append,
        List.forall_mem_cons]
      exact ⟨hfirst.2, trivial, hrw⟩

end

/-- With its parentheses a well-formed tree is read inside any number of levels above its
depth. -/
theorem Expr.WellFormed.legible {e : Expr} (h : e.WellFormed) {room : Nat}
    (hroom : e.parenthesized.depth < room) : e.parenthesized.Legible room :=
  ⟨⟨h.every_parenthesized, hroom⟩, h.parenthesized.spells.1, h.parenthesized.spells.2⟩

/-! ## Reading the text -/

open Grammar Reader

/-- A text on one line is read as its tokens and the end of the text. -/
theorem Writes.tokenize_eq {text : String} {ts : List Token} (h : Writes text ts) :
    ∃ (us : List Located) (e : Located), tokenize text = .ok (us ++ [e]) ∧ words us = ts ∧
      Fused us ∧ e.token = .eof := by
  obtain ⟨us, hus, hline, hscan⟩ := h.scan .origin [] (clearBehind_end ts)
  rw [List.append_nil, tokensFrom] at hscan
  exact ⟨us, _, hscan, hus, .of_line hline, rfl⟩

/-- The text of a well-formed tree is read as the tokens of the tree with its parentheses. -/
theorem Expr.WellFormed.tokenize_text {e : Expr} (h : e.WellFormed) :
    ∃ (us : List Located) (t : Located), tokenize e.text = .ok (us ++ [t]) ∧
      words us = e.parenthesized.tokens ∧ Fused us ∧ t.token = .eof := by
  have hleg := h.legible (Nat.lt_succ_self e.parenthesized.depth)
  have hwrites : Writes e.text e.parenthesized.tokens := by
    rw [← e.text_parenthesized]
    exact Expr.writes (Expr.fits_iff.1 hleg.fits).1.1 hleg.written
  exact hwrites.tokenize_eq

end OpsLang
