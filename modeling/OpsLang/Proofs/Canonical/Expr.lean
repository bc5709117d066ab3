import OpsLang.Proofs.Scanning

/-!
# The tokens of an expression's text

`Expr.tokens` are the tokens that `Expr.text` is read as (`Expr.writes`). They spell the
tree, without a comma behind the last argument, and the tokens of any spelling that was read
from a text can be written, so those can be written too (`Expr.Spells.canonical`).
-/

namespace OpsLang

/-! ## Canonical tokens -/

/-- The token of a member : a unit spelling is read as a unit there too. -/
def Token.member (n : String) : Token :=
  if isUnit n then .unit n else .name n

/-- The tokens of members, each behind its dot. -/
def memberTokens : List String → List Token
  | [] => []
  | n :: ns => .symbol .dot :: .member n :: memberTokens ns

/-- The tokens of a dotted name. -/
def Path.tokens (p : Path) : List Token :=
  match p.segments with
  | [] => []
  | n :: ns => .name n :: memberTokens ns

mutual

/-- The tokens of an expression. -/
def Expr.tokens : Expr → List Token
  | .name n => [.name n]
  | .number v => [.number v.lexeme]
  | .measure v u => [.number v.lexeme, .unit u.spelling]
  | .string s => [.string s]
  | .truth b => [.truth b]
  | .property p => p.tokens
  | .call p as => p.tokens ++ .symbol .leftParen :: (Argument.allTokens as ++ [.symbol .rightParen])
  | .binary op l r => l.tokens ++ op.token :: r.tokens
  | .unary op e => op.token :: e.tokens
  | .parens e => .symbol .leftParen :: (e.tokens ++ [.symbol .rightParen])

/-- The tokens of an argument. -/
def Argument.tokens : Argument → List Token
  | .positional v => v.tokens
  | .named n v => .name n :: .symbol .assign :: v.tokens

/-- The tokens of arguments with commas between them. -/
def Argument.allTokens : List Argument → List Token
  | [] => []
  | a :: as => a.tokens ++ if as.isEmpty then [] else .symbol .comma :: Argument.allTokens as

end

/-! ## Spellings read from texts -/

section Canonical

variable {ts : List Token}

theorem Token.IsMember.eq_member {n : String} {t : Token} (h : t.IsMember n) (ht : t.Written) :
    t = .member n := by
  rcases h with rfl | ⟨rfl, -⟩
  · have hunit : isUnit n = false := IsName.unit ht
    simp [member, hunit]
  · have hunit : isUnit n = true := isUnit_iff.2 ht
    simp [member, hunit]

theorem MembersSpell.eq_memberTokens : ∀ {ns : List String} {ts : List Token},
    MembersSpell ns ts → (∀ t ∈ ts, t.Written) → ts = memberTokens ns
  | [], _, h, _ => h
  | n :: ns, _, h, hw => by
    obtain ⟨t, us, ht, hns, rfl⟩ := h
    obtain ⟨-, htw, hw⟩ : _ ∧ t.Written ∧ ∀ t ∈ us, t.Written := by simpa using hw
    rw [memberTokens, ← ht.eq_member htw, hns.eq_memberTokens hw]

/-- A dotted name has one spelling that can be written. -/
theorem Path.Spells.eq_tokens {p : Path} (h : p.Spells ts) (hw : ∀ t ∈ ts, t.Written) :
    ts = p.tokens := by
  obtain ⟨_ | ⟨n, ns⟩⟩ := p
  · exact h
  · obtain ⟨us, hns, rfl⟩ := h
    rw [MembersSpell.eq_memberTokens hns (List.forall_mem_cons.1 hw).2]
    rfl

theorem BinaryOp.written_token (op : BinaryOp) : op.token.Written := by
  cases op <;> trivial

mutual

/-- With the tokens of any spelling those of the canonical one can be written. -/
theorem Expr.Spells.canonical : ∀ {e : Expr} {ts : List Token}, e.Spells ts →
    (∀ t ∈ ts, t.Written) → e.Spells e.tokens ∧ ∀ t ∈ e.tokens, t.Written
  | .name _, _, h, hw | .number _, _, h, hw | .measure _ _, _, h, hw | .string _, _, h, hw
  | .truth _, _, h, hw => by
    obtain rfl := h
    exact ⟨rfl, hw⟩
  | .property p, _, h, hw => by
    have heq := Path.Spells.eq_tokens (p := p) h hw
    subst heq
    exact ⟨h, hw⟩
  | .call p as, _, h, hw => by
    obtain ⟨us, vs, hp, has, rfl⟩ := h
    simp only [List.forall_mem_append, List.forall_mem_cons] at hw
    obtain ⟨hus, hopen, hvs, hclose, -⟩ := hw
    obtain ⟨has', hvs'⟩ := Argument.AllSpell.canonical has hvs
    have heq := hp.eq_tokens hus
    subst heq
    refine ⟨⟨_, _, hp, has', rfl⟩, ?_⟩
    simp only [Expr.tokens, List.forall_mem_append, List.forall_mem_cons]
    exact ⟨hus, hopen, hvs', hclose, by simp⟩
  | .binary op l r, _, h, hw => by
    obtain ⟨us, vs, hl, hr, rfl⟩ := h
    simp only [List.forall_mem_append, List.forall_mem_cons] at hw
    obtain ⟨hl', hus⟩ := hl.canonical hw.1
    obtain ⟨hr', hvs⟩ := hr.canonical hw.2.2
    refine ⟨⟨_, _, hl', hr', rfl⟩, ?_⟩
    simp only [Expr.tokens, List.forall_mem_append, List.forall_mem_cons]
    exact ⟨hus, hw.2.1, hvs⟩
  | .unary op e, _, h, hw => by
    obtain ⟨us, he, rfl⟩ := h
    obtain ⟨hop, hus⟩ := List.forall_mem_cons.1 hw
    obtain ⟨he', hus'⟩ := he.canonical hus
    exact ⟨⟨_, he', rfl⟩, List.forall_mem_cons.2 ⟨hop, hus'⟩⟩
  | .parens e, _, h, hw => by
    obtain ⟨us, he, rfl⟩ := h
    simp only [List.forall_mem_append, List.forall_mem_cons] at hw
    obtain ⟨hopen, hus, hclose, -⟩ := hw
    obtain ⟨he', hus'⟩ := he.canonical hus
    refine ⟨⟨_, he', rfl⟩, ?_⟩
    simp only [Expr.tokens, List.forall_mem_append, List.forall_mem_cons]
    exact ⟨hopen, hus', hclose, by simp⟩

theorem Argument.Spells.canonical : ∀ {a : Argument} {ts : List Token}, a.Spells ts →
    (∀ t ∈ ts, t.Written) → a.Spells a.tokens ∧ ∀ t ∈ a.tokens, t.Written
  | .positional v, _, h, hw => Expr.Spells.canonical (e := v) h hw
  | .named n v, _, h, hw => by
    obtain ⟨us, hv, rfl⟩ := h
    simp only [List.forall_mem_cons] at hw
    obtain ⟨hn, heq, hus⟩ := hw
    obtain ⟨hv', hus'⟩ := hv.canonical hus
    refine ⟨⟨_, hv', rfl⟩, ?_⟩
    simp only [Argument.tokens, List.forall_mem_cons]
    exact ⟨hn, heq, hus'⟩

theorem Argument.AllSpell.canonical : ∀ {as : List Argument} {ts : List Token},
    Argument.AllSpell as ts → (∀ t ∈ ts, t.Written) →
      Argument.AllSpell as (Argument.allTokens as) ∧ ∀ t ∈ Argument.allTokens as, t.Written
  | [], _, _, _ => ⟨rfl, by simp [Argument.allTokens]⟩
  | a :: as, _, h, hw => by
    obtain ⟨us, vs, ha, rfl, hrest⟩ := h
    obtain ⟨hus, hvs⟩ := List.forall_mem_append.1 hw
    obtain ⟨ha', hus'⟩ := ha.canonical hus
    have hrest' : Argument.AllSpell as (Argument.allTokens as) ∧
        ∀ t ∈ Argument.allTokens as, t.Written := by
      obtain ⟨rfl, -⟩ | ⟨ws, hws, rfl⟩ := hrest
      · exact ⟨rfl, by simp [Argument.allTokens]⟩
      · exact Argument.AllSpell.canonical hws (List.forall_mem_cons.1 hvs).2
    rw [Argument.allTokens]
    cases as with
    | nil => exact ⟨⟨_, [], ha', rfl, .inl ⟨rfl, rfl⟩⟩, by simpa using hus'⟩
    | cons b as =>
      refine ⟨⟨_, _, ha', rfl, .inr ⟨_, hrest'.1, rfl⟩⟩, ?_⟩
      simp only [List.isEmpty_cons, Bool.false_eq_true, if_false, List.forall_mem_append,
        List.forall_mem_cons]
      exact ⟨hus', trivial, hrest'.2⟩

end

end Canonical

/-! ## Legible trees -/

/-- The canonical tokens of a dotted name spell it and can be written. -/
structure Path.Legible (p : Path) : Prop where
  ne_nil : p.segments ≠ []
  spells : p.Spells p.tokens
  written : ∀ t ∈ p.tokens, t.Written

/-- The tree is one that is read inside `room` levels, and its canonical tokens spell it and
can be written. -/
structure Expr.Legible (room : Nat) (e : Expr) : Prop where
  fits : e.Fits room
  spells : e.Spells e.tokens
  written : ∀ t ∈ e.tokens, t.Written

/-- The arguments are read inside `room` levels, and their canonical tokens spell them and can
be written. -/
structure Argument.AllLegible (room : Nat) (as : List Argument) : Prop where
  fits : ∀ a ∈ as, a.Fits room
  spells : Argument.AllSpell as (Argument.allTokens as)
  written : ∀ t ∈ Argument.allTokens as, t.Written

theorem Path.Spells.legible {p : Path} {ts : List Token} (h : p.Spells ts)
    (hp : p.segments ≠ []) (hw : ∀ t ∈ ts, t.Written) : p.Legible := by
  obtain rfl := h.eq_tokens hw
  exact ⟨hp, h, hw⟩

theorem Expr.Spells.legible {e : Expr} {ts : List Token} {room : Nat} (h : e.Spells ts)
    (hfit : e.Fits room) (hw : ∀ t ∈ ts, t.Written) : e.Legible room :=
  ⟨hfit, (h.canonical hw).1, (h.canonical hw).2⟩

theorem Argument.AllSpell.legible {as : List Argument} {ts : List Token} {room : Nat}
    (h : Argument.AllSpell as ts) (hfit : ∀ a ∈ as, a.Fits room) (hw : ∀ t ∈ ts, t.Written) :
    Argument.AllLegible room as :=
  ⟨hfit, (h.canonical hw).1, (h.canonical hw).2⟩

theorem Expr.Legible.proper {e : Expr} {room : Nat} (h : e.Legible room) :
    e.Every Expr.ProperAt :=
  (Expr.fits_iff.1 h.fits).1.2

theorem Argument.AllLegible.proper {as : List Argument} {room : Nat}
    (h : Argument.AllLegible room as) : Argument.AllEvery Expr.ProperAt as :=
  ((Argument.allEvery_and as).1 (Argument.allEvery_iff.2 fun a ha => (h.fits a ha).1)).2

theorem Expr.Legible.begins {e : Expr} {room : Nat} (h : e.Legible room) :
    ∃ t ts, e.tokens = t :: ts ∧ t.beginsExpr = true :=
  h.spells.begins h.fits

/-! ## Reading the text -/

namespace Writes

variable {s s' : String} {ts ts' : List Token}

/-- Two texts with a blank between them. -/
theorem spaced (h : Writes s ts) (h' : Writes s' ts') : Writes (s ++ " " ++ s') (ts ++ ts') := by
  rw [String.append_assoc]
  exact h.append_closed (c := ' ') (space.append h' (clearBehind_nil _)) (by simp) rfl

/-- Two texts with a comma between them. -/
theorem listed (h : Writes s ts) (h' : Writes s' ts') :
    Writes (s ++ ", " ++ s') (ts ++ .symbol .comma :: ts') := by
  have hcomma : Writes ("," ++ " " ++ s') ([Token.symbol .comma] ++ ts') :=
    (symbol .comma).spaced h'
  rw [String.append_assoc]
  exact h.append_closed (c := ',') hcomma (by simp) rfl

/-- A text between parentheses. -/
theorem inParens (h : Writes s ts) :
    Writes ("(" ++ s ++ ")") (.symbol .leftParen :: (ts ++ [Token.symbol .rightParen])) := by
  have hopen : Writes ("(" ++ s) (.symbol .leftParen :: ts) :=
    append_open .leftParen h fun _ => rfl
  exact hopen.append_closed (symbol .rightParen) rfl rfl

end Writes

theorem Token.writes_member {n : String} (h : (member n).Written) : Writes n [.member n] := by
  unfold member at h ⊢
  split
  · next hu => exact .unit (isUnit_iff.1 hu)
  · next hu =>
    rw [if_neg hu] at h
    exact .name h

theorem Token.clear_member_dot (n : String) : (member n).clear '.' = true := by
  unfold member
  split <;> rfl

theorem intercalate_dot (n : String) (ns : List String) :
    ".".intercalate (n :: ns) = n ++ String.join (ns.map ("." ++ ·)) := by
  induction ns generalizing n with
  | nil => simp
  | cons n' ns ih =>
    rw [String.intercalate_cons_cons, ih, List.map_cons, String.join_cons]
    simp only [String.append_assoc]

theorem writes_members : ∀ {ns : List String}, (∀ t ∈ memberTokens ns, t.Written) →
    Writes (String.join (ns.map ("." ++ ·))) (memberTokens ns)
  | [], _ => .empty
  | n :: ns, hw => by
    simp only [memberTokens, List.forall_mem_cons] at hw
    obtain ⟨-, hn, hns⟩ := hw
    have hmember : Writes ("." ++ n) [.symbol .dot, .member n] :=
      Writes.append_open .dot (Token.writes_member hn) fun _ => rfl
    rw [List.map_cons, String.join_cons]
    refine hmember.append (writes_members hns) fun t ht c hc => ?_
    cases ht
    cases ns with
    | nil => cases hc
    | cons n' ns =>
      rw [List.map_cons, String.join_cons, String.append_assoc, String.toList_append] at hc
      cases hc
      exact Token.clear_member_dot n

theorem Path.writes {p : Path} (hw : ∀ t ∈ p.tokens, t.Written) : Writes p.text p.tokens := by
  obtain ⟨_ | ⟨n, ns⟩⟩ := p
  · exact .empty
  · obtain ⟨hn, hns⟩ := List.forall_mem_cons.1 hw
    rw [Path.text, intercalate_dot]
    refine (Writes.name hn).append (writes_members hns) fun t ht c hc => ?_
    cases ht
    cases ns with
    | nil => cases hc
    | cons n' ns =>
      rw [List.map_cons, String.join_cons, String.append_assoc, String.toList_append] at hc
      cases hc
      rfl

theorem BinaryOp.writes (op : BinaryOp) : Writes op.text [op.token] := by
  have htext : op.token.text = op.text := by cases op <;> rfl
  have hflat : '\n' ∉ op.token.text.toList := by cases op <;> decide
  rw [← htext]
  exact .token op.written_token hflat

/-- A sign may stand directly before its operand. -/
theorem UnaryOp.writes (op : UnaryOp) {s : String} {ts : List Token} (h : Writes s ts) :
    Writes (op.text ++ op.gap ++ s) (op.token :: ts) := by
  cases op with
  | not => exact (Writes.keyword .not).spaced h
  | neg => exact Writes.append_open .minus h fun _ => rfl
  | plus => exact Writes.append_open .plus h fun _ => rfl

mutual

/-- The text of a tree that groups by precedence is read as its tokens : no parentheses are
put in. -/
theorem Expr.writes : ∀ {e : Expr}, e.Grouped → (∀ t ∈ e.tokens, t.Written) →
    Writes e.text e.tokens
  | .name n, _, hw => .name (hw (.name n) List.mem_cons_self)
  | .number v, _, hw => .number (hw (.number v.lexeme) List.mem_cons_self)
  | .measure v u, _, hw => by
    simp only [Expr.tokens, List.forall_mem_cons] at hw
    exact (Writes.number hw.1).spaced (.unit hw.2.1)
  | .string s, _, _ => .string s
  | .truth b, _, _ => .truth b
  | .property p, _, hw => Path.writes (p := p) hw
  | .call p as, hg, hw => by
    simp only [Expr.tokens, List.forall_mem_append, List.forall_mem_cons] at hw
    have hlist := (Argument.writes_list hg.2 hw.2.2.1).inParens
    have hcall := (Path.writes hw.1).append_closed (c := '(') hlist (by simp) rfl
    exact hcall
  | .binary op l r, hg, hw => by
    obtain ⟨hgroup, hl, hr⟩ := hg
    obtain ⟨hlfloor, hrfloor⟩ := Expr.groupsAt_binary_iff.1 hgroup
    simp only [Expr.tokens, List.forall_mem_append, List.forall_mem_cons] at hw
    have hleft := (Expr.writes hl hw.1).spaced op.writes
    have hboth := hleft.spaced (Expr.writes hr hw.2.2)
    simpa [Expr.text, OpsLang.inParens, hlfloor, hrfloor, Expr.tokens] using hboth
  | .unary op e, hg, hw => by
    have hnb : e.isBinary = false := hg.1
    have hoperand := op.writes (Expr.writes hg.2 (List.forall_mem_cons.1 hw).2)
    simpa [Expr.text, OpsLang.inParens, hnb, Expr.tokens] using hoperand
  | .parens e, hg, hw => by
    simp only [Expr.tokens, List.forall_mem_append, List.forall_mem_cons] at hw
    exact (Expr.writes hg.2 hw.2.1).inParens

theorem Argument.writes : ∀ {a : Argument}, a.Every Expr.GroupsAt → (∀ t ∈ a.tokens, t.Written) →
    Writes a.text a.tokens
  | .positional v, hg, hw => Expr.writes (e := v) hg hw
  | .named n v, hg, hw => by
    simp only [Argument.tokens, List.forall_mem_cons] at hw
    have hassign := (Writes.name hw.1).spaced (.symbol .assign)
    have hvalue := hassign.spaced (Expr.writes (e := v) hg hw.2.2)
    have htext : n ++ " " ++ Symbol.assign.text ++ " " ++ v.text = n ++ " = " ++ v.text := by
      simp only [String.append_assoc]
      rfl
    rwa [htext] at hvalue

theorem Argument.writes_list : ∀ {as : List Argument}, Argument.AllEvery Expr.GroupsAt as →
    (∀ t ∈ Argument.allTokens as, t.Written) →
      Writes (", ".intercalate (Argument.texts as)) (Argument.allTokens as)
  | [], _, _ => .empty
  | [a], hg, hw => by
    simp only [Argument.allTokens, List.isEmpty_nil, if_true, List.append_nil] at hw ⊢
    exact Argument.writes hg.1 hw
  | a :: b :: as, hg, hw => by
    rw [Argument.allTokens] at hw ⊢
    simp only [List.isEmpty_cons, Bool.false_eq_true, if_false, List.forall_mem_append,
      List.forall_mem_cons] at hw ⊢
    simp only [Argument.texts, String.intercalate_cons_cons]
    exact (Argument.writes hg.1 hw.1).listed (Argument.writes_list hg.2 hw.2.2)

end

end OpsLang
