import OpsLang.Proofs.Spelling.File

/-!
# Where spellings end

A tree has many spellings, but none of them is the beginning of another (`PrefixFree`), so the
tree tells how far the tokens of a row go that are its own. What a spelling leaves open stands
before a token that decides it : a comma behind the last argument before the parenthesis, and the
parentheses of an activity without arguments before the token behind it
(`Statement.Spells.eq_of_append`).
-/

namespace OpsLang

/-- No row with the property is the beginning of another one. -/
def PrefixFree (S : List Token → Prop) : Prop :=
  ∀ ⦃us vs xs ys : List Token⦄, S us → S vs → us ++ xs = vs ++ ys → us = vs

/-! ## Expressions -/

theorem prefixFree_members : ∀ ns : List String, PrefixFree (MembersSpell ns)
  | [], _, _, _, _, h, h', _ => h.trans h'.symm
  | n :: ns, _, _, _, _, ⟨t, us, _, hns, hus⟩, ⟨t', us', _, hns', hus'⟩, h => by
    subst hus hus'
    simp only [List.cons_append, List.cons.injEq, true_and] at h
    obtain ⟨rfl, h⟩ := h
    rw [prefixFree_members ns hns hns' h]

theorem Path.prefixFree (p : Path) : PrefixFree p.Spells := by
  intro us vs xs ys hus hvs h
  obtain ⟨_ | ⟨n, ns⟩⟩ := p
  · exact Eq.trans hus (Eq.symm hvs)
  · obtain ⟨us, hns, rfl⟩ := hus
    obtain ⟨vs, hns', rfl⟩ := hvs
    rw [prefixFree_members ns hns hns' (List.cons.inj h).2]

mutual

theorem Expr.prefixFree : ∀ e : Expr, PrefixFree e.Spells
  | .name _, _, _, _, _, h, h', _ => Eq.trans h (Eq.symm h')
  | .number _, _, _, _, _, h, h', _ => Eq.trans h (Eq.symm h')
  | .measure _ _, _, _, _, _, h, h', _ => Eq.trans h (Eq.symm h')
  | .string _, _, _, _, _, h, h', _ => Eq.trans h (Eq.symm h')
  | .truth _, _, _, _, _, h, h', _ => Eq.trans h (Eq.symm h')
  | .property p, _, _, _, _, h, h', heq => p.prefixFree h h' heq
  | .call p as, _, _, xs, ys, ⟨us, vs, hp, has, hus⟩, ⟨us', vs', hp', has', hus'⟩, h => by
    subst hus hus'
    simp only [List.append_assoc, List.cons_append, List.nil_append] at h
    obtain rfl := p.prefixFree hp hp' h
    obtain ⟨-, h⟩ := List.cons.inj (List.append_cancel_left h)
    rw [Argument.AllSpell.eq_of_append has has' h]
  | .binary op l r, _, _, xs, ys, ⟨us, vs, hl, hr, hus⟩, ⟨us', vs', hl', hr', hus'⟩, h => by
    subst hus hus'
    simp only [List.append_assoc, List.cons_append] at h
    obtain rfl := l.prefixFree hl hl' h
    rw [r.prefixFree hr hr' (List.cons.inj (List.append_cancel_left h)).2]
  | .unary op e, _, _, xs, ys, ⟨us, he, hus⟩, ⟨us', he', hus'⟩, h => by
    subst hus hus'
    rw [e.prefixFree he he' (List.cons.inj h).2]
  | .parens e, _, _, xs, ys, ⟨us, he, hus⟩, ⟨us', he', hus'⟩, h => by
    subst hus hus'
    simp only [List.cons_append, List.append_assoc] at h
    rw [e.prefixFree he he' (List.cons.inj h).2]

theorem Argument.prefixFree : ∀ a : Argument, PrefixFree a.Spells
  | .positional v => v.prefixFree
  | .named n v => by
    rintro _ _ xs ys ⟨us, hv, rfl⟩ ⟨us', hv', rfl⟩ h
    rw [v.prefixFree hv hv' (List.cons.inj (List.cons.inj h).2).2]

/-- Arguments end before a parenthesis. -/
theorem Argument.AllSpell.eq_of_append : ∀ {as : List Argument} {us vs xs ys : List Token},
    Argument.AllSpell as us → Argument.AllSpell as vs →
      us ++ .symbol .rightParen :: xs = vs ++ .symbol .rightParen :: ys → us = vs
  | [], _, _, _, _, h, h', _ => Eq.trans h (Eq.symm h')
  | a :: as, _, _, xs, ys, ⟨us, ws, ha, hus, hws⟩, ⟨us', ws', ha', hus', hws'⟩, h => by
    subst hus hus'
    rw [List.append_assoc, List.append_assoc] at h
    obtain rfl := a.prefixFree ha ha' h
    replace h := List.append_cancel_left h
    obtain ⟨-, rfl⟩ | ⟨zs, has, rfl⟩ := hws <;> obtain ⟨-, rfl⟩ | ⟨zs', has', rfl⟩ := hws'
    · rfl
    · cases h
    · cases h
    · rw [Argument.AllSpell.eq_of_append has has' (List.cons.inj h).2]

end

/-- No expression begins with a semicolon. -/
theorem Expr.Spells.head_ne_semicolon {t : Token} {ts : List Token} :
    ∀ {e : Expr}, e.Spells (t :: ts) → t ≠ .symbol .semicolon
  | .name _, h | .number _, h | .measure _ _, h | .string _, h | .truth _, h => by
    cases h
    simp
  | .property ⟨[]⟩, h => by cases h
  | .property ⟨n :: ns⟩, ⟨us, _, h⟩ => by
    cases h
    simp
  | .call ⟨[]⟩ as, ⟨us, vs, hp, _, h⟩ => by
    cases hp
    cases h
    simp
  | .call ⟨n :: ns⟩ as, ⟨_, vs, ⟨us, _, rfl⟩, _, h⟩ => by
    cases h
    simp
  | .binary op l r, ⟨us, vs, hl, _, h⟩ => by
    cases us with
    | nil =>
      cases h
      cases op <;> simp [BinaryOp.token]
    | cons u us =>
      cases h
      exact Expr.Spells.head_ne_semicolon hl
  | .unary op e, ⟨us, _, h⟩ => by
    cases h
    cases op <;> simp [UnaryOp.token]
  | .parens e, ⟨us, _, h⟩ => by
    cases h
    simp

/-! ## Statements without blocks -/

/-- There are blocks in the statement. -/
def Statement.hasBlocks : Statement → Bool
  | .conditional _ _ _ | .whileLoop _ _ _ | .forLoop _ _ _ _ => true
  | _ => false

/-- An activity without arguments ends before a parenthesis only if it has parentheses itself. -/
theorem Grammar.ReferenceSpells.eq_of_append {t t' : Token} {p : Path} {as : List Argument}
    {us vs xs ys : List Token} (h : ReferenceSpells t p as us) (h' : ReferenceSpells t' p as vs)
    (heq : us ++ t :: xs = vs ++ t' :: ys) : us = vs := by
  obtain ⟨us, hp, hus⟩ := h
  obtain ⟨vs, hp', hvs⟩ := h'
  obtain ⟨rfl, rfl, ht⟩ | ⟨ws, has, rfl⟩ := hus <;> obtain ⟨-, rfl, ht'⟩ | ⟨ws', has', rfl⟩ := hvs
  · exact p.prefixFree hp hp' heq
  all_goals
    simp only [List.append_assoc, List.cons_append, List.nil_append] at heq
    obtain rfl := p.prefixFree hp hp' heq
    obtain ⟨hparen, heq⟩ := List.cons.inj (List.append_cancel_left heq)
  · exact absurd hparen ht
  · exact absurd hparen.symm ht'
  · rw [has.eq_of_append has' heq]

/-- A statement without blocks ends where the token behind it says. -/
theorem Statement.Spells.eq_of_append {t t' : Token} {st : Statement} (hst : st.hasBlocks = false)
    {us vs xs ys : List Token} (h : st.Spells t us) (h' : st.Spells t' vs)
    (heq : us ++ t :: xs = vs ++ t' :: ys) : us = vs := by
  cases st with
  | activity mode p as n =>
    obtain ⟨us, rfl, hus, -⟩ := h
    obtain ⟨vs, rfl, hvs, -⟩ := h'
    rw [List.append_assoc, List.append_assoc] at heq
    rw [hus.eq_of_append hvs (List.append_cancel_left heq)]
  | check c n =>
    obtain ⟨us, rfl, hus, -⟩ := h
    obtain ⟨vs, rfl, hvs, -⟩ := h'
    rw [c.prefixFree hus hvs (List.cons.inj heq).2]
  | wait c n =>
    obtain ⟨us, rfl, hus, -⟩ := h
    obtain ⟨vs, rfl, hvs, -⟩ := h'
    rw [c.prefixFree hus hvs (List.cons.inj (List.cons.inj heq).2).2]
  | assign x v n =>
    obtain ⟨us, rfl, hus, -⟩ := h
    obtain ⟨vs, rfl, hvs, -⟩ := h'
    rw [v.prefixFree hus hvs (List.cons.inj (List.cons.inj heq).2).2]
  | expr v n => exact v.prefixFree h.1 h'.1 heq
  | conditional branches otherwise n => cases hst
  | whileLoop c body n => cases hst
  | forLoop x e body n => cases hst

/-- No statement begins with a semicolon. -/
theorem Statement.Spells.head_ne_semicolon {next t : Token} {ts : List Token} {st : Statement}
    (h : st.Spells next (t :: ts)) : t ≠ .symbol .semicolon := by
  cases st with
  | activity mode p as n =>
    obtain ⟨us, h, -⟩ := h
    cases mode <;> cases h <;> simp
  | check c n =>
    obtain ⟨us, h, -⟩ := h
    cases h
    simp
  | wait c n =>
    obtain ⟨us, h, -⟩ := h
    cases h
    simp
  | assign x v n =>
    obtain ⟨us, h, -⟩ := h
    cases h
    simp
  | expr v n => exact h.1.head_ne_semicolon
  | conditional branches otherwise n =>
    cases otherwise with
    | none =>
      obtain ⟨us, h, -⟩ := h
      cases h
      simp
    | some body =>
      obtain ⟨us, vs, h, -⟩ := h
      cases h
      simp
  | whileLoop c body n =>
    obtain ⟨us, vs, h, -⟩ := h
    cases h
    simp
  | forLoop x e body n =>
    obtain ⟨us, vs, h, -⟩ := h
    cases h
    simp

/-! ## Types -/

mutual

theorem TypeExpr.prefixFree : ∀ t : TypeExpr, PrefixFree t.Spells
  | .primitive _, _, _, _, _, h, h', _ => Eq.trans h (Eq.symm h')
  | .array element size, _, _, xs, ys, ⟨us, x, hus, he, _⟩, ⟨us', x', hus', he', _⟩, h => by
    subst hus hus'
    simp only [List.cons_append, List.append_assoc, List.nil_append] at h
    obtain ⟨-, h⟩ := List.cons.inj h
    obtain rfl := element.prefixFree he he' h
    obtain ⟨-, h⟩ := List.cons.inj (List.append_cancel_left h)
    rw [(List.cons.inj h).1]
  | .struct fields, _, _, xs, ys, ⟨us, hus, hf⟩, ⟨us', hus', hf'⟩, h => by
    subst hus hus'
    simp only [List.cons_append, List.append_assoc, List.nil_append] at h
    rw [Field.AllSpell.eq_of_append hf hf' (List.cons.inj (List.cons.inj h).2).2]
  | .named p, _, _, _, _, h, h', heq => p.prefixFree h h' heq

/-- Fields end before a brace. -/
theorem Field.AllSpell.eq_of_append : ∀ {fs : List Field} {us vs xs ys : List Token},
    Field.AllSpell fs us → Field.AllSpell fs vs →
      us ++ .symbol .rightBrace :: xs = vs ++ .symbol .rightBrace :: ys → us = vs
  | [], _, _, _, _, h, h', _ => Eq.trans h (Eq.symm h')
  | .mk n t :: fs, _, _, xs, ys, ⟨u, us, ws, hus, _, ht, hws⟩, ⟨u', us', ws', hus', _, ht', hws'⟩,
      h => by
    subst hus hus'
    simp only [List.cons_append, List.append_assoc, List.cons.injEq, true_and] at h
    obtain ⟨rfl, h⟩ := h
    obtain rfl := t.prefixFree ht ht' h
    replace h := List.append_cancel_left h
    obtain ⟨-, rfl⟩ | ⟨zs, rfl, hfs⟩ := hws <;> obtain ⟨-, rfl⟩ | ⟨zs', rfl, hfs'⟩ := hws'
    · rfl
    · cases h
    · cases h
    · rw [Field.AllSpell.eq_of_append hfs hfs' (List.cons.inj h).2]

end

theorem Declaration.prefixFree_type (n : String) (body : TypeBody) (line : Nat) :
    PrefixFree (Declaration.type n body line).Spells := by
  rintro _ _ xs ys ⟨us, rfl, hus⟩ ⟨vs, rfl, hvs⟩ h
  rw [body.type.prefixFree hus hvs (List.cons.inj (List.cons.inj h).2).2]

end OpsLang
