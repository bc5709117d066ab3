import OpsLang.Proofs.Parenthesized.Expr

/-!
# The fewest parentheses

No text of a tree has fewer opening parentheses than the one that is written for it. A text that is
read as the tree, but for parentheses of its own, groups its operators by precedence with these
parentheses in it (`Expr.Grouped`). Where the written text has parentheses around an operand, the
operand would be grouped in another way without them, so it stands in parentheses in every such
text (`Expr.openings_asOperand_le`). What a text has besides are the parentheses of calls, which the
tree has too (`Expr.Spells.count_eq`).
-/

namespace OpsLang

/-! ## Parentheses in trees -/

mutual

/-- The expression without the parentheses in it. -/
def Expr.stripped : Expr → Expr
  | .call p as => .call p (Argument.allStripped as)
  | .binary op l r => .binary op l.stripped r.stripped
  | .unary op e => .unary op e.stripped
  | .parens e => e.stripped
  | e => e

/-- The argument without the parentheses in it. -/
def Argument.stripped : Argument → Argument
  | .positional v => .positional v.stripped
  | .named n v => .named n v.stripped

/-- The arguments without the parentheses in them. -/
def Argument.allStripped : List Argument → List Argument
  | [] => []
  | a :: as => a.stripped :: Argument.allStripped as

end

mutual

/-- The number of opening parentheses in a spelling of the expression. -/
def Expr.openings : Expr → Nat
  | .call _ as => Argument.allOpenings as + 1
  | .binary _ l r => l.openings + r.openings
  | .unary _ e => e.openings
  | .parens e => e.openings + 1
  | _ => 0

/-- The number of opening parentheses in a spelling of the argument. -/
def Argument.openings : Argument → Nat
  | .positional v | .named _ v => v.openings

/-- The number of opening parentheses in a spelling of the arguments. -/
def Argument.allOpenings : List Argument → Nat
  | [] => 0
  | a :: as => a.openings + Argument.allOpenings as

end

/-! ## Parentheses in spellings -/

section Counting

theorem Token.IsMember.ne_symbol {n : String} {t : Token} (h : t.IsMember n) (y : Symbol) :
    t ≠ .symbol y := by
  obtain rfl | ⟨rfl, -⟩ := h <;> simp

theorem MembersSpell.count_eq_zero : ∀ {ns : List String} {ts : List Token},
    MembersSpell ns ts → ts.count (.symbol .leftParen) = 0
  | [], _, h => by
    obtain rfl : _ = [] := h
    rfl
  | n :: ns, _, h => by
    obtain ⟨t, us, ht, hns, rfl⟩ := h
    simp [hns.count_eq_zero, ht.ne_symbol]

theorem Path.Spells.count_eq_zero {p : Path} {ts : List Token} (h : p.Spells ts) :
    ts.count (.symbol .leftParen) = 0 := by
  obtain ⟨_ | ⟨n, ns⟩⟩ := p
  · obtain rfl : ts = [] := h
    rfl
  · obtain ⟨us, hns, rfl⟩ := h
    simp [hns.count_eq_zero]

theorem BinaryOp.token_ne_leftParen (op : BinaryOp) : op.token ≠ .symbol .leftParen := by
  cases op <;> simp [BinaryOp.token]

theorem UnaryOp.token_ne_leftParen (op : UnaryOp) : op.token ≠ .symbol .leftParen := by
  cases op <;> simp [UnaryOp.token]

mutual

/-- A spelling has the opening parentheses of the expression. -/
theorem Expr.Spells.count_eq : ∀ {e : Expr} {ts : List Token}, e.Spells ts →
    ts.count (.symbol .leftParen) = e.openings
  | .name _, _, h | .number _, _, h | .string _, _, h | .truth _, _, h | .measure _ _, _, h => by
    obtain rfl : _ = _ := h
    rfl
  | .property _, _, h => Path.Spells.count_eq_zero h
  | .call _ as, _, h => by
    obtain ⟨us, vs, hp, has, rfl⟩ := h
    simp [Expr.openings, hp.count_eq_zero, Argument.count_eq_of_allSpell has]
  | .binary op _ _, _, h => by
    obtain ⟨us, vs, hl, hr, rfl⟩ := h
    simp [Expr.openings, hl.count_eq, hr.count_eq, op.token_ne_leftParen]
  | .unary op e, _, h => by
    obtain ⟨us, he, rfl⟩ := h
    simp [Expr.openings, Expr.Spells.count_eq he, op.token_ne_leftParen]
  | .parens e, _, h => by
    obtain ⟨us, he, rfl⟩ := h
    simp [Expr.openings, Expr.Spells.count_eq he]

theorem Argument.count_eq_of_allSpell : ∀ {as : List Argument} {ts : List Token},
    Argument.AllSpell as ts → ts.count (.symbol .leftParen) = Argument.allOpenings as
  | [], _, h => by
    obtain rfl : _ = [] := h
    rfl
  | a :: as, _, h => by
    obtain ⟨us, vs, ha, rfl, hvs⟩ := h
    have hfirst : us.count (.symbol .leftParen) = a.openings := by
      cases a with
      | positional v => exact Expr.Spells.count_eq (e := v) ha
      | named n v =>
        obtain ⟨ws, hv, rfl⟩ := ha
        simp [Argument.openings, hv.count_eq]
    obtain ⟨rfl, rfl⟩ | ⟨ws, has, rfl⟩ := hvs
    · simp [Argument.allOpenings, hfirst]
    · simp [Argument.allOpenings, hfirst, Argument.count_eq_of_allSpell has]

end

end Counting

/-! ## Parentheses that are needed -/

theorem Expr.openings_asOperand_le_succ (bare : BinaryOp → Bool) (e : Expr) :
    (e.asOperand bare).openings ≤ e.openings + 1 := by
  obtain h | h := Expr.asOperand_cases bare e <;> rw [h]
  · exact Nat.le_succ _
  · exact Nat.le_refl _

/-- The expression stands in parentheses. -/
def Expr.isParens : Expr → Bool
  | .parens _ => true
  | _ => false

theorem Expr.bindsBelow_stripped {e : Expr} (h : e.isParens = false) (floor : Nat) :
    e.stripped.bindsBelow floor = e.bindsBelow floor := by
  cases e <;> first | rfl | cases h

theorem Expr.isBinary_stripped {e : Expr} (h : e.isParens = false) :
    e.stripped.isBinary = e.isBinary := by
  cases e <;> first | rfl | cases h

/-- An operand is written with no more parentheses than it has, if it has some around it where they
are needed. -/
theorem Expr.openings_asOperand_le {e x : Expr} {bare : BinaryOp → Bool}
    (h : x.openings + e.isParens.toNat ≤ e.openings)
    (hbare : e.isParens = false → x.asOperand bare = x) :
    (x.asOperand bare).openings ≤ e.openings := by
  cases he : e.isParens with
  | true =>
    rw [he] at h
    exact (openings_asOperand_le_succ bare x).trans h
  | false =>
    rw [he] at h
    rw [hbare he]
    exact h

mutual

/-- A tree that groups by precedence has no fewer parentheses than are written for it without its
own, and if it stands in parentheses itself, it has one pair more. -/
theorem Expr.openings_parenthesized_le : ∀ {e : Expr}, e.Grouped →
    e.stripped.parenthesized.openings + e.isParens.toNat ≤ e.openings
  | .call _ as, ⟨_, has⟩ => by
    have hargs := Argument.allOpenings_parenthesized_le has
    simpa [Expr.stripped, Expr.parenthesized, Expr.openings, Expr.isParens] using hargs
  | .binary op l r, ⟨hgroup, hl, hr⟩ => by
    obtain ⟨hlfloor, hrfloor⟩ := Expr.groupsAt_binary_iff.1 hgroup
    have hleft := Expr.openings_asOperand_le (Expr.openings_parenthesized_le hl) fun hparens =>
      Expr.asOperand_of_bindsBelow op.bareLeft_eq_false (by
        rw [Expr.bindsBelow_parenthesized, Expr.bindsBelow_stripped hparens, hlfloor])
    have hright := Expr.openings_asOperand_le (Expr.openings_parenthesized_le hr) fun hparens =>
      Expr.asOperand_of_bindsBelow op.bareRight_eq_false (by
        rw [Expr.bindsBelow_parenthesized, Expr.bindsBelow_stripped hparens, hrfloor])
    simp only [Expr.stripped, Expr.parenthesized, Expr.openings, Expr.isParens, Bool.toNat_false,
      Nat.add_zero]
    exact Nat.add_le_add hleft hright
  | .unary op e, ⟨hgroup, he⟩ => by
    have hinner : (e.stripped.parenthesized.asOperand fun _ => false).openings ≤ e.openings :=
      Expr.openings_asOperand_le (Expr.openings_parenthesized_le he) fun hparens =>
        Expr.asOperand_of_isBinary (by
          rw [Expr.isBinary_parenthesized, Expr.isBinary_stripped hparens]
          exact hgroup)
    simpa only [Expr.stripped, Expr.parenthesized, Expr.openings, Expr.isParens, Bool.toNat_false,
      Nat.add_zero] using hinner
  | .parens e, ⟨_, he⟩ => by
    have hinner := Expr.openings_parenthesized_le he
    simp only [Expr.stripped, Expr.openings, Expr.isParens, Bool.toNat_true]
    omega
  | .name _, _ | .number _, _ | .measure _ _, _ | .string _, _ | .truth _, _ | .property _, _ => by
    simp [Expr.stripped, Expr.parenthesized, Expr.openings, Expr.isParens]

theorem Argument.allOpenings_parenthesized_le : ∀ {as : List Argument},
    Argument.AllEvery Expr.GroupsAt as →
      Argument.allOpenings (Argument.allParenthesized (Argument.allStripped as)) ≤
        Argument.allOpenings as
  | [], _ => Nat.le_refl 0
  | .positional v :: as, ⟨hv, has⟩ | .named _ v :: as, ⟨hv, has⟩ => by
    have hvalue := Expr.openings_parenthesized_le (e := v) hv
    have hrest := Argument.allOpenings_parenthesized_le has
    simp only [Argument.allStripped, Argument.stripped, Argument.allParenthesized,
      Argument.parenthesized, Argument.allOpenings, Argument.openings]
    omega

end

/-! ## Parentheses in texts -/

open Grammar Reader

/-- The text of a tree has the fewest opening parentheses of all texts that are read as the tree,
but for parentheses of their own. -/
theorem text_fewest_openings {e e' : Expr} {s : String} (he : e.WellFormed)
    (hread : ofText parseExpr s = .accepted e') (hstripped : e'.stripped = e) :
    ∃ ts ts', tokenize e.text = .ok ts ∧ tokenize s = .ok ts' ∧
      (words ts).count (.symbol .leftParen) ≤ (words ts').count (.symbol .leftParen) := by
  obtain ⟨us, t, htext, hus, -, ht⟩ := he.tokenize_text
  obtain ⟨ts', hts', hparse⟩ : ∃ ts', tokenize s = .ok ts' ∧ parseExpr ts' = .accepted e' := by
    unfold ofText at hread
    split at hread
    · next ts' hts' => exact ⟨ts', hts', hread⟩
    · cases hread
  obtain ⟨hspells, hfit⟩ := spells_of_parseExpr (endsOnce_of_tokenize hts') hparse
  have hfewest := Expr.openings_parenthesized_le (Expr.fits_iff.1 hfit).1.1
  refine ⟨_, ts', htext, hts', ?_⟩
  calc (words (us ++ [t])).count (.symbol .leftParen)
      = e.parenthesized.openings := by
        rw [words_append, List.count_append, hus, he.parenthesized.spells.1.count_eq]
        simp [ht]
    _ ≤ e'.openings := by
        rw [← hstripped]
        omega
    _ = (words ts'.dropLast).count (.symbol .leftParen) := hspells.count_eq.symm
    _ ≤ (words ts').count (.symbol .leftParen) :=
        ((List.dropLast_sublist ts').map _).count_le _

/-- More parentheses than a difference on the right of a difference needs. -/
theorem text_fewest_openings_sub :
    let e : Expr := .binary .sub (.name "a") (.binary .sub (.call ⟨["f"]⟩ []) (.name "b"))
    let e' : Expr := .binary .sub (.parens (.name "a"))
      (.parens (.binary .sub (.call ⟨["f"]⟩ []) (.name "b")))
    e.WellFormed ∧ ofText parseExpr "(a) - (f() - b)" = .accepted e' ∧ e'.stripped = e ∧
      ∃ ts ts', tokenize e.text = .ok ts ∧ tokenize "(a) - (f() - b)" = .ok ts' ∧
        (words ts).count (.symbol .leftParen) ≤ (words ts').count (.symbol .leftParen) := by
  intro e e'
  have hname : ∀ n, n = "a" ∨ n = "b" ∨ n = "f" → IsName n := by
    rintro n (rfl | rfl | rfl) <;> exact .of_isWord rfl rfl (by decide) rfl
  have he : e.WellFormed :=
    ⟨hname _ (by simp), ⟨⟨by decide, hname _ (by simp), by simp⟩, trivial⟩, hname _ (by simp)⟩
  have hread : ofText parseExpr "(a) - (f() - b)" = .accepted e' := by cbv
  have hstripped : e'.stripped = e := rfl
  exact ⟨he, hread, hstripped, text_fewest_openings he hread hstripped⟩

end OpsLang
