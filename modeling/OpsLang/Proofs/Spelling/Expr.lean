import Mathlib.Data.List.Chain
import OpsLang.Layout.Expr
import OpsLang.Proofs.Reading

/-!
# Spellings of expressions

The grammar that expressions are read by, as a relation. `Expr.Spells e ts` says that the
tokens `ts`, from left to right, are those of the tree `e`, and leaves open only whether a
comma stands behind the last argument of a call. The relation knows nothing of precedence :
`Expr.Grouped` says which trees group their operators as precedence wants, and
`Expr.Proper` which trees hold no data that a spelling could not show.

`BinaryOp.leftFloor_le_iff` is the one fact about the table of precedences that grouping
rests on : an operator may stand outermost in the left operand of another exactly if it
would not take that other into its own right operand.
-/

namespace OpsLang

/-- The tokens of a row, without their places. -/
def words (us : List Located) : List Token :=
  us.map Located.token

section Words

variable {us vs : List Located} {u : Located} {ts ts' : List Token} {t : Token}

@[simp]
theorem words_nil : words [] = [] := rfl

@[simp]
theorem words_cons : words (u :: us) = u.token :: words us := rfl

@[simp]
theorem words_append : words (us ++ vs) = words us ++ words vs :=
  List.map_append

theorem words_eq_nil : words us = [] ↔ us = [] :=
  List.map_eq_nil_iff

theorem words_eq_cons :
    words us = t :: ts ↔ ∃ u us', us = u :: us' ∧ u.token = t ∧ words us' = ts :=
  List.map_eq_cons_iff

theorem words_eq_append :
    words us = ts ++ ts' ↔ ∃ vs vs', us = vs ++ vs' ∧ words vs = ts ∧ words vs' = ts' :=
  List.map_eq_append_iff

theorem words_eq_singleton : words us = [t] ↔ ∃ u, us = [u] ∧ u.token = t :=
  List.map_eq_singleton_iff

theorem forall_mem_words {p : Token → Prop} : (∀ t ∈ words us, p t) ↔ ∀ u ∈ us, p u.token :=
  List.forall_mem_map

end Words

/-- A unit stands on the line of the token before it. -/
def Fused (us : List Located) : Prop :=
  us.IsChain fun t u => ∀ v, u.token = .unit v → u.line = t.line

namespace Fused

variable {us vs : List Located} {u : Located}

theorem left (h : Fused (us ++ vs)) : Fused us :=
  h.left_of_append

theorem right (h : Fused (us ++ vs)) : Fused vs :=
  h.right_of_append

theorem tail (h : Fused (u :: us)) : Fused us :=
  List.IsChain.tail h

theorem append (h : Fused us) (h' : Fused vs)
    (hv : ∀ v ∈ vs.head?, ∀ x, v.token ≠ .unit x) : Fused (us ++ vs) :=
  List.isChain_append.2 ⟨h, h', fun _ _ v hmem x hx => absurd hx (hv v hmem x)⟩

theorem of_line {n : Nat} (h : ∀ u ∈ us, u.line = n) : Fused us := by
  induction us with
  | nil => exact .nil
  | cons u us ih =>
    obtain ⟨hu, hus⟩ := List.forall_mem_cons.1 h
    cases us with
    | nil => exact .singleton u
    | cons v us =>
      exact .cons_cons (fun _ _ => (hus v List.mem_cons_self).trans hu.symm) (ih hus)

end Fused

/-! ## Operators -/

/-- The token of a binary operator. -/
def BinaryOp.token : BinaryOp → Token
  | or => .keyword .or
  | and => .keyword .and
  | equal => .symbol .equal
  | notEqual => .symbol .notEqual
  | lessGreater => .symbol .lessGreater
  | less => .symbol .less
  | lessEqual => .symbol .lessEqual
  | greater => .symbol .greater
  | greaterEqual => .symbol .greaterEqual
  | add => .symbol .plus
  | sub => .symbol .minus
  | mul => .symbol .star
  | div => .symbol .slash
  | mod => .keyword .mod
  | pow => .symbol .starStar

/-- The token of a unary operator. -/
def UnaryOp.token : UnaryOp → Token
  | not => .keyword .not
  | neg => .symbol .minus
  | plus => .symbol .plus

namespace BinaryOp

variable (op op' : BinaryOp)

@[simp]
theorem ofToken?_token : ofToken? op.token = some op := by
  cases op <;> rfl

theorem ofToken?_eq_some {t : Token} {op : BinaryOp} : ofToken? t = some op ↔ t = op.token := by
  constructor
  · intro h
    unfold ofToken? at h
    split at h <;> cases h <;> rfl
  · rintro rfl
    exact ofToken?_token op

theorem one_le_precedence : 1 ≤ op.precedence := by
  cases op <;> decide

theorem precedence_le_rightFloor : op.precedence ≤ op.rightFloor := by
  unfold rightFloor
  split <;> omega

theorem precedence_le_leftFloor : op.precedence ≤ op.leftFloor := by
  unfold leftFloor
  split <;> omega

theorem precedence_le_of_ne_pow {op : BinaryOp} (h : op ≠ pow) : op.precedence ≤ 6 := by
  cases op <;> first | decide | contradiction

theorem leftFloor_of_ne_pow {op : BinaryOp} (h : op ≠ pow) : op.leftFloor = op.precedence := by
  simp [leftFloor, isRightAssoc, h]

theorem rightFloor_of_ne_pow {op : BinaryOp} (h : op ≠ pow) :
    op.rightFloor = op.precedence + 1 := by
  simp [rightFloor, isRightAssoc, h]

/-- An operator may stand outermost in the left operand of `op` exactly if it would not take
`op` into its own right operand. -/
theorem leftFloor_le_iff :
    op.leftFloor ≤ op'.precedence ↔ op.precedence < op'.rightFloor := by
  by_cases h : op = pow
  · subst h
    by_cases h' : op' = pow
    · subst h'
      decide
    · have hle := precedence_le_of_ne_pow h'
      have hl : pow.leftFloor = 8 := rfl
      have hp : pow.precedence = 7 := rfl
      rw [rightFloor_of_ne_pow h', hl, hp]
      omega
  · rw [leftFloor_of_ne_pow h]
    by_cases h' : op' = pow
    · subst h'
      have hle := precedence_le_of_ne_pow h
      have hr : pow.rightFloor = 7 := rfl
      have hp : pow.precedence = 7 := rfl
      omega
    · rw [rightFloor_of_ne_pow h']
      omega

end BinaryOp

namespace UnaryOp

@[simp]
theorem ofToken?_token (op : UnaryOp) : ofToken? op.token = some op := by
  cases op <;> rfl

theorem ofToken?_eq_some {t : Token} {op : UnaryOp} : ofToken? t = some op ↔ t = op.token := by
  constructor
  · intro h
    unfold ofToken? at h
    split at h <;> cases h <;> rfl
  · rintro rfl
    exact ofToken?_token op

end UnaryOp

@[simp]
theorem Numeral.lexeme_ofLexeme (x : String) : (ofLexeme x).lexeme = x := by
  simp only [ofLexeme]
  split <;> rfl

/-! ## Spellings -/

/-- The tokens are the members `ns`, each behind its dot. -/
def MembersSpell : List String → List Token → Prop
  | [], ts => ts = []
  | n :: ns, ts => ∃ t us, t.IsMember n ∧ MembersSpell ns us ∧ ts = .symbol .dot :: t :: us

/-- The tokens are a dotted name. -/
def Path.Spells (p : Path) (ts : List Token) : Prop :=
  match p.segments with
  | [] => ts = []
  | n :: ns => ∃ us, MembersSpell ns us ∧ ts = .name n :: us

mutual

/-- The tokens, from left to right, are those of the expression. -/
def Expr.Spells : Expr → List Token → Prop
  | .name n, ts => ts = [.name n]
  | .number v, ts => ts = [.number v.lexeme]
  | .measure v u, ts => ts = [.number v.lexeme, .unit u.spelling]
  | .string s, ts => ts = [.string s]
  | .truth b, ts => ts = [.truth b]
  | .property p, ts => p.Spells ts
  | .call p as, ts =>
    ∃ us vs, p.Spells us ∧ Argument.AllSpell as vs ∧
      ts = us ++ .symbol .leftParen :: (vs ++ [.symbol .rightParen])
  | .binary op l r, ts => ∃ us vs, l.Spells us ∧ r.Spells vs ∧ ts = us ++ op.token :: vs
  | .unary op e, ts => ∃ us, e.Spells us ∧ ts = op.token :: us
  | .parens e, ts => ∃ us, e.Spells us ∧ ts = .symbol .leftParen :: (us ++ [.symbol .rightParen])

/-- The tokens are those of the argument. -/
def Argument.Spells : Argument → List Token → Prop
  | .positional v, ts => v.Spells ts
  | .named n v, ts => ∃ us, v.Spells us ∧ ts = .name n :: .symbol .assign :: us

/-- The tokens are those of the arguments with commas between them. One more comma may stand
behind the last argument. -/
def Argument.AllSpell : List Argument → List Token → Prop
  | [], ts => ts = []
  | a :: as, ts =>
    ∃ us vs, a.Spells us ∧ ts = us ++ vs ∧
      (as = [] ∧ vs = [] ∨ ∃ ws, Argument.AllSpell as ws ∧ vs = .symbol .comma :: ws)

end

/-! ## Properties of all nodes -/

mutual

/-- The property holds at every node of the expression. -/
def Expr.Every (p : Expr → Prop) : Expr → Prop
  | .call q as => p (.call q as) ∧ Argument.AllEvery p as
  | .binary op l r => p (.binary op l r) ∧ l.Every p ∧ r.Every p
  | .unary op e => p (.unary op e) ∧ e.Every p
  | .parens e => p (.parens e) ∧ e.Every p
  | .name n => p (.name n)
  | .number v => p (.number v)
  | .measure v u => p (.measure v u)
  | .string s => p (.string s)
  | .truth b => p (.truth b)
  | .property q => p (.property q)

/-- The property holds at every node of the argument. -/
def Argument.Every (p : Expr → Prop) : Argument → Prop
  | .positional v | .named _ v => v.Every p

/-- The property holds at every node of the arguments. -/
def Argument.AllEvery (p : Expr → Prop) : List Argument → Prop
  | [] => True
  | a :: as => a.Every p ∧ Argument.AllEvery p as

end

/-- If the expression is an operation, its operator has the property. -/
def Expr.Outermost (p : BinaryOp → Prop) : Expr → Prop
  | .binary op _ _ => p op
  | _ => True

/-- The operands of the expression are no operations that bind looser than it does. Those
that bind equally stand to the left, and to the right of `**`. -/
def Expr.GroupsAt : Expr → Prop
  | .binary op l r =>
    l.Outermost (fun o =>
        if op = .pow then op.precedence < o.precedence else op.precedence ≤ o.precedence) ∧
      r.Outermost fun o =>
        if op = .pow then op.precedence ≤ o.precedence else op.precedence < o.precedence
  | .unary _ e => e.isBinary = false
  | _ => True

/-- The expression groups its operators by precedence. -/
def Expr.Grouped (e : Expr) : Prop :=
  e.Every Expr.GroupsAt

/-- The data of the node are those that its spelling shows. -/
def Expr.ProperAt : Expr → Prop
  | .number v => v = .ofLexeme v.lexeme
  | .measure v u => v = .ofLexeme v.lexeme ∧ Quantity.ofUnit? u.spelling = some u.quantity
  | .property p => 2 ≤ p.segments.length
  | .call p _ => 1 ≤ p.segments.length
  | _ => True

/-- The data of all nodes are those that the spelling shows. -/
def Expr.Proper (e : Expr) : Prop :=
  e.Every Expr.ProperAt

mutual

/-- The number of levels that reading the expression opens inside its own. -/
def Expr.depth : Expr → Nat
  | .call _ as => Argument.allDepth as
  | .binary _ l r => max l.depth (r.depth + 1)
  | .unary _ e | .parens e => e.depth + 1
  | _ => 0

/-- The number of levels that reading an argument opens. -/
def Argument.depth : Argument → Nat
  | .positional v | .named _ v => v.depth + 1

/-- The number of levels that reading arguments opens. -/
def Argument.allDepth : List Argument → Nat
  | [] => 0
  | a :: as => max a.depth (Argument.allDepth as)

end

mutual

theorem Expr.every_and {p q : Expr → Prop} :
    ∀ e : Expr, e.Every (fun e => p e ∧ q e) ↔ e.Every p ∧ e.Every q
  | .call _ as => by
    simp only [Expr.Every, Argument.allEvery_and as]
    exact and_and_and_comm
  | .binary _ l r => by
    simp only [Expr.Every, Expr.every_and l, Expr.every_and r, and_and_and_comm]
  | .unary _ e => by
    simp only [Expr.Every, Expr.every_and e, and_and_and_comm]
  | .parens e => by
    simp only [Expr.Every, Expr.every_and e, and_and_and_comm]
  | .name _ | .number _ | .measure _ _ | .string _ | .truth _ | .property _ => Iff.rfl

theorem Argument.allEvery_and {p q : Expr → Prop} : ∀ as : List Argument,
    Argument.AllEvery (fun e => p e ∧ q e) as ↔ Argument.AllEvery p as ∧ Argument.AllEvery q as
  | [] => by simp only [Argument.AllEvery, and_self]
  | .positional v :: as => by
    simp only [Argument.AllEvery, Argument.Every, Expr.every_and v, Argument.allEvery_and as,
      and_and_and_comm]
  | .named _ v :: as => by
    simp only [Argument.AllEvery, Argument.Every, Expr.every_and v, Argument.allEvery_and as,
      and_and_and_comm]

end

/-- Grouping by precedence, in the terms that reading and writing use : no operand binds
below the floor of its side. -/
theorem Expr.groupsAt_binary_iff {op : BinaryOp} {l r : Expr} :
    (Expr.binary op l r).GroupsAt ↔
      l.bindsBelow op.leftFloor = false ∧ r.bindsBelow op.rightFloor = false := by
  have hl : ∀ e : Expr, e.Outermost (fun o =>
      if op = .pow then op.precedence < o.precedence else op.precedence ≤ o.precedence) ↔
        e.bindsBelow op.leftFloor = false := by
    intro e
    cases e <;> simp only [Outermost, bindsBelow]
    simp only [BinaryOp.leftFloor, BinaryOp.isRightAssoc, beq_iff_eq, decide_eq_false_iff_not,
      Nat.not_lt]
    split <;> rfl
  have hr : ∀ e : Expr, e.Outermost (fun o =>
      if op = .pow then op.precedence ≤ o.precedence else op.precedence < o.precedence) ↔
        e.bindsBelow op.rightFloor = false := by
    intro e
    cases e <;> simp only [Outermost, bindsBelow]
    simp only [BinaryOp.rightFloor, BinaryOp.isRightAssoc, beq_iff_eq, decide_eq_false_iff_not,
      Nat.not_lt]
    split <;> rfl
  exact and_congr (hl l) (hr r)

/-! ## Trees that can be read -/

/-- The tree groups by precedence, shows all its data, and is read inside `room` levels. -/
def Expr.Fits (room : Nat) (e : Expr) : Prop :=
  e.Every (fun e => e.GroupsAt ∧ e.ProperAt) ∧ e.depth < room

/-- The argument is read inside `room` levels. -/
def Argument.Fits (room : Nat) (a : Argument) : Prop :=
  a.Every (fun e => e.GroupsAt ∧ e.ProperAt) ∧ a.depth ≤ room

theorem Argument.allEvery_iff {p : Expr → Prop} {as : List Argument} :
    Argument.AllEvery p as ↔ ∀ a ∈ as, a.Every p := by
  induction as with
  | nil => simp [Argument.AllEvery]
  | cons a as ih => simp [Argument.AllEvery, ih]

theorem Argument.allDepth_le_iff {n : Nat} {as : List Argument} :
    Argument.allDepth as ≤ n ↔ ∀ a ∈ as, a.depth ≤ n := by
  induction as with
  | nil => simp [Argument.allDepth]
  | cons a as ih => simp only [Argument.allDepth, Nat.max_le, ih, List.forall_mem_cons]

namespace Expr

variable {room : Nat}

theorem fits_iff {e : Expr} : e.Fits room ↔ (e.Grouped ∧ e.Proper) ∧ e.depth < room :=
  and_congr_left fun _ => every_and e

theorem not_fits_zero {e : Expr} : ¬e.Fits 0 :=
  fun h => absurd h.2 (Nat.not_lt_zero _)

section Nodes

attribute [local simp] Every GroupsAt ProperAt depth

@[simp]
theorem fits_name {n : String} : (name n).Fits room ↔ 0 < room := by
  simp [Fits]

@[simp]
theorem fits_number {v : Numeral} :
    (number v).Fits room ↔ v = .ofLexeme v.lexeme ∧ 0 < room := by
  simp [Fits]

@[simp]
theorem fits_measure {v : Numeral} {u : UnitTag} :
    (measure v u).Fits room ↔
      (v = .ofLexeme v.lexeme ∧ Quantity.ofUnit? u.spelling = some u.quantity) ∧ 0 < room := by
  simp [Fits]

@[simp]
theorem fits_string {s : String} : (string s).Fits room ↔ 0 < room := by
  simp [Fits]

@[simp]
theorem fits_truth {b : Bool} : (truth b).Fits room ↔ 0 < room := by
  simp [Fits]

@[simp]
theorem fits_property {p : Path} :
    (property p).Fits room ↔ 2 ≤ p.segments.length ∧ 0 < room := by
  simp [Fits]

@[simp]
theorem fits_call {p : Path} {as : List Argument} :
    (call p as).Fits (room + 1) ↔
      1 ≤ p.segments.length ∧ ∀ a ∈ as, a.Fits room := by
  simp only [Fits, Every, GroupsAt, ProperAt, depth, true_and, Argument.allEvery_iff,
    Nat.lt_succ_iff, Argument.allDepth_le_iff, Argument.Fits]
  constructor
  · rintro ⟨⟨hp, has⟩, hd⟩
    exact ⟨hp, fun a ha => ⟨has a ha, hd a ha⟩⟩
  · rintro ⟨hp, has⟩
    exact ⟨⟨hp, fun a ha => (has a ha).1⟩, fun a ha => (has a ha).2⟩

@[simp]
theorem fits_binary {op : BinaryOp} {l r : Expr} :
    (binary op l r).Fits (room + 1) ↔
      (l.bindsBelow op.leftFloor = false ∧ r.bindsBelow op.rightFloor = false) ∧
        l.Fits (room + 1) ∧ r.Fits room := by
  simp only [Fits, Every, groupsAt_binary_iff, ProperAt, depth, and_true, Nat.max_lt,
    Nat.add_lt_add_iff_right]
  constructor
  · rintro ⟨⟨h, hl, hr⟩, hdl, hdr⟩
    exact ⟨h, ⟨hl, hdl⟩, hr, hdr⟩
  · rintro ⟨h, ⟨hl, hdl⟩, hr, hdr⟩
    exact ⟨⟨h, hl, hr⟩, hdl, hdr⟩

@[simp]
theorem fits_unary {op : UnaryOp} {e : Expr} :
    (unary op e).Fits (room + 1) ↔ e.isBinary = false ∧ e.Fits room := by
  simp [Fits, and_assoc]

@[simp]
theorem fits_parens {e : Expr} : (parens e).Fits (room + 1) ↔ e.Fits room := by
  simp [Fits]

end Nodes

end Expr

namespace Argument

variable {room : Nat}

@[simp]
theorem fits_positional {v : Expr} : (positional v).Fits room ↔ v.Fits room :=
  and_congr_right fun _ => Nat.lt_iff_add_one_le.symm

@[simp]
theorem fits_named {n : String} {v : Expr} : (named n v).Fits room ↔ v.Fits room :=
  and_congr_right fun _ => Nat.lt_iff_add_one_le.symm

end Argument

theorem Expr.bindsBelow_of_not_isBinary {e : Expr} (h : e.isBinary = false) (floor : Nat) :
    e.bindsBelow floor = false := by
  cases e <;> first | rfl | cases h

/-! ## Tokens that begin or end an expression -/

/-- No operand goes on with the token. -/
def Token.endsOperand : Token → Bool
  | .symbol .dot | .symbol .leftParen | .unit _ => false
  | _ => true

theorem BinaryOp.endsOperand_token (op : BinaryOp) : op.token.endsOperand = true := by
  cases op <;> rfl

/-- An expression may begin with the token. -/
def Token.beginsExpr : Token → Bool
  | .name _ | .number _ | .string _ | .truth _ => true
  | .symbol .leftParen | .symbol .minus | .symbol .plus | .keyword .not => true
  | _ => false

theorem Path.Spells.begins {p : Path} (hp : 1 ≤ p.segments.length) {ts : List Token}
    (h : p.Spells ts) : ∃ n us, ts = .name n :: us := by
  obtain ⟨_ | ⟨n, ns⟩⟩ := p
  · cases hp
  · obtain ⟨us, -, rfl⟩ := h
    exact ⟨n, us, rfl⟩

theorem Expr.Spells.begins : ∀ {e : Expr} {room : Nat} {ts : List Token}, e.Spells ts →
    e.Fits room → ∃ t us, ts = t :: us ∧ t.beginsExpr = true
  | _, 0, _, _, hfit => absurd hfit Expr.not_fits_zero
  | .name n, _, _, h, _ => ⟨.name n, [], h, rfl⟩
  | .number v, _, _, h, _ => ⟨.number v.lexeme, [], h, rfl⟩
  | .measure v u, _, _, h, _ => ⟨.number v.lexeme, [.unit u.spelling], h, rfl⟩
  | .string s, _, _, h, _ => ⟨.string s, [], h, rfl⟩
  | .truth b, _, _, h, _ => ⟨.truth b, [], h, rfl⟩
  | .property p, room + 1, _, h, hfit => by
    obtain ⟨n, us, rfl⟩ := Path.Spells.begins (p := p)
      (Nat.le_of_succ_le (Expr.fits_property.1 hfit).1) h
    exact ⟨_, us, rfl, rfl⟩
  | .call p as, room + 1, _, h, hfit => by
    obtain ⟨us, vs, hp, -, rfl⟩ := h
    obtain ⟨n, us, rfl⟩ := Path.Spells.begins (p := p) (Expr.fits_call.1 hfit).1 hp
    exact ⟨_, _, rfl, rfl⟩
  | .binary op l r, room + 1, _, h, hfit => by
    obtain ⟨us, vs, hl, -, rfl⟩ := h
    obtain ⟨t, us, rfl, ht⟩ := hl.begins (Expr.fits_binary.1 hfit).2.1
    exact ⟨t, _, rfl, ht⟩
  | .unary op e, room + 1, _, h, _ => by
    obtain ⟨us, -, rfl⟩ := h
    exact ⟨_, us, rfl, by cases op <;> rfl⟩
  | .parens e, room + 1, _, h, _ => by
    obtain ⟨us, -, rfl⟩ := h
    exact ⟨_, _, rfl, rfl⟩

theorem Argument.Spells.begins {a : Argument} {room : Nat} {ts : List Token} (h : a.Spells ts)
    (hfit : a.Fits room) : ∃ t us, ts = t :: us ∧ t.beginsExpr = true := by
  cases a with
  | positional v => exact Expr.Spells.begins (e := v) h (Argument.fits_positional.1 hfit)
  | named n v =>
    obtain ⟨us, -, rfl⟩ := h
    exact ⟨_, _, rfl, rfl⟩

theorem Argument.AllSpell.begins {a : Argument} {as : List Argument} {room : Nat}
    {ts : List Token} (h : Argument.AllSpell (a :: as) ts) (hfit : ∀ b ∈ a :: as, b.Fits room) :
    ∃ t us, ts = t :: us ∧ t.beginsExpr = true := by
  obtain ⟨us, vs, ha, rfl, -⟩ := h
  obtain ⟨t, us, rfl, ht⟩ := ha.begins (hfit a List.mem_cons_self)
  exact ⟨t, us ++ vs, rfl, ht⟩

end OpsLang
