import Mathlib
import OpsLang.Proofs.Precedence

/-!
# One tree for each spelling

A tree that groups its operators by precedence is read back from every spelling of it
(`readsBack_expression`). The proof goes by recursion on the tree : `climb` goes down the left
side to the first operand and comes back up one operator at a time, so a binary tree on the
way is told by what is left to read once it is there (`Climbs`), and any other tree is read at
once (`ReadsAsOperand`).

Two trees with a spelling in common are therefore equal (`Expr.Spells.unique`), and the tree
that a row is accepted as is the only one with that spelling (`parseExpr_grouping`).
-/

namespace OpsLang

/-! ## What may stand behind an operand -/

theorem Expr.bindsBelow_mono {e : Expr} {m n : Nat} (hmn : m ≤ n)
    (h : e.bindsBelow n = false) : e.bindsBelow m = false := by
  cases e with
  | binary op l r =>
    simp only [bindsBelow, decide_eq_false_iff_not, Nat.not_lt] at h ⊢
    exact Nat.le_trans hmn h
  | _ => rfl

/-- An operator looser than all that stands outermost can take the tree as its left
operand. -/
theorem Expr.bindsBelow_leftFloor_of_lt {e : Expr} {op : BinaryOp} {n : Nat}
    (hlt : op.precedence < n) (h : e.bindsBelow n = false) :
    e.bindsBelow op.leftFloor = false := by
  cases e with
  | binary op' l r =>
    simp only [bindsBelow, decide_eq_false_iff_not, Nat.not_lt] at h ⊢
    have := op'.precedence_le_rightFloor
    exact (BinaryOp.leftFloor_le_iff op op').2 (by omega)
  | _ => rfl

theorem Outcome.map_map {α β γ : Type} (f : α → β) (g : β → γ) (o : Outcome α) :
    (o.map f).map g = o.map (g ∘ f) := by
  cases o <;> rfl

theorem MembersSpell.head_ne {ns : List String} {ts : List Token} (h : MembersSpell ns ts) :
    ts.head? ≠ some (.symbol .assign) := by
  cases ns with
  | nil =>
    obtain rfl := h
    simp
  | cons n ns =>
    obtain ⟨t, us, -, -, rfl⟩ := h
    simp

theorem Path.Spells.second_ne_assign {p : Path} {n : String} {ts : List Token}
    (h : p.Spells (.name n :: ts)) : ts.head? ≠ some (.symbol .assign) := by
  obtain ⟨_ | ⟨n', ns⟩⟩ := p
  · cases h
  · obtain ⟨us, hns, heq⟩ := h
    cases heq
    exact hns.head_ne

/-- No expression begins as a named argument does. -/
theorem Expr.Spells.second_ne_assign {n : String} :
    ∀ {e : Expr} {ts : List Token}, e.Spells (.name n :: ts) →
      ts.head? ≠ some (.symbol .assign)
  | .name _, _, h => by
    cases h
    simp
  | .property p, _, h => Path.Spells.second_ne_assign (p := p) h
  | .call p as, _, h => by
    obtain ⟨_ | ⟨t, us⟩, vs, hp, -, heq⟩ := h
    · cases heq
    · cases heq
      have := Path.Spells.second_ne_assign (p := p) hp
      cases us with
      | nil => simp
      | cons u us => simpa using this
  | .binary op l r, _, h => by
    obtain ⟨_ | ⟨t, us⟩, vs, hl, -, heq⟩ := h
    · cases op <;> cases heq
    · cases heq
      have := Expr.Spells.second_ne_assign hl
      cases us with
      | nil => cases op <;> simp [BinaryOp.token]
      | cons u us => simpa using this
  | .unary op e, _, h => by
    obtain ⟨us, -, heq⟩ := h
    cases op <;> cases heq
  | .parens e, _, h => by
    obtain ⟨us, -, heq⟩ := h
    cases heq
  | .number _, _, h => by cases h
  | .measure _ _, _, h => by cases h
  | .string _, _, h => by cases h
  | .truth _, _, h => by cases h

theorem Expr.Spells.next_ne_assign {e : Expr} {n : String} {u : Located} {us : List Located}
    {s : Stream} (h : e.Spells (words (u :: us))) (hu : u.token = .name n)
    (hs : s.token ≠ .symbol .assign) : (s.behind us).token ≠ .symbol .assign := by
  cases us with
  | nil => exact hs
  | cons u' us =>
    rw [words_cons, hu] at h
    intro hassign
    exact h.second_ne_assign (congrArg some hassign)

namespace Grammar

open Reader

variable {s : Stream} {us : List Located}

/-! ## Names and numbers -/

theorem many_memberRound_of_spells (hs : s.token ≠ .symbol .dot) :
    ∀ {ns : List String} {us : List Located}, MembersSpell ns (words us) →
      many memberRound (s.behind us) = .ok ns s
  | [], us, h => by
    obtain rfl := words_eq_nil.1 h
    refine many_stop ?_
    rw [memberRound, bind_run, eat_run]
    simp [hs]
  | n :: ns, us, h => by
    obtain ⟨t, ts, ht, hns, heq⟩ := h
    obtain ⟨d, _, rfl, hd, h'⟩ := words_eq_cons.1 heq
    obtain ⟨u, us, rfl, rfl, rfl⟩ := words_eq_cons.1 h'
    have hround : memberRound (s.behind (d :: u :: us)) = .ok (.item n) (s.behind us) := by
      have hm : member "identifier after '.'" (s.behind (u :: us)) = .ok n (s.behind us) :=
        member_eq_ok.2 ⟨ht, Stream.advance_behind_cons⟩
      rw [memberRound, bind_run, eat_run]
      simp [hd, hm]
    rw [many_item hround (by simp only [Stream.size_behind, List.length_cons]; omega),
      many_memberRound_of_spells hs hns, Outcome.map_ok]

theorem path_of_spells (hs : s.token ≠ .symbol .dot) {p : Path} (hp : p.segments ≠ [])
    (h : p.Spells (words us)) : path (s.behind us) = .ok p s := by
  obtain ⟨_ | ⟨n, ns⟩⟩ := p
  · exact absurd rfl hp
  · obtain ⟨ts, hns, heq⟩ := h
    obtain ⟨u, us, rfl, hu, rfl⟩ := words_eq_cons.1 heq
    have hn : name "identifier" (s.behind (u :: us)) = .ok n (s.behind us) :=
      name_eq_ok.2 ⟨hu, Stream.advance_behind_cons⟩
    rw [path_run, hn, Outcome.andThen_ok, many_memberRound_of_spells hs hns, Outcome.map_ok]

/-- A dotted name begins with a name. -/
theorem token_of_path_spells {p : Path} (hp : p.segments ≠ []) (h : p.Spells (words us)) :
    ∃ n, (s.behind us).token = .name n := by
  obtain ⟨_ | ⟨n, ns⟩⟩ := p
  · exact absurd rfl hp
  · obtain ⟨ts, -, heq⟩ := h
    obtain ⟨u, us, rfl, hu, -⟩ := words_eq_cons.1 heq
    exact ⟨n, hu⟩

/-! ## Arguments -/

/-- The reader reads the tree back from its spellings. -/
def ReadsBack (value : Reader Expr) (e : Expr) : Prop :=
  ∀ {us s}, e.Spells (words us) → Fused us → s.token.endsOperand = true →
    BinaryOp.ofToken? s.token = none → value (s.behind us) = .ok e s

section Arguments

variable {value : Reader Expr}

theorem argument_of_spells {a : Argument} (h : ReadsBack value a.value)
    (ha : a.Spells (words us)) (hf : Fused us) (hs : s.token = .symbol .comma ∨
      s.token = .symbol .rightParen) : argument value (s.behind us) = .ok a s := by
  have hend : s.token.endsOperand = true := by
    rcases hs with hs | hs <;> simp [hs, Token.endsOperand]
  have hop : BinaryOp.ofToken? s.token = none := by
    rcases hs with hs | hs <;> simp [hs, BinaryOp.ofToken?]
  rw [argument_run]
  cases a with
  | named n v =>
    obtain ⟨ts, hv, heq⟩ := ha
    obtain ⟨u, _, rfl, hu, h'⟩ := words_eq_cons.1 heq
    obtain ⟨u', us, rfl, hu', rfl⟩ := words_eq_cons.1 h'
    simp only [Stream.token_behind_cons, Stream.next_behind_cons, Stream.advance_behind_cons, hu,
      hu']
    rw [h hv hf.tail.tail hend hop]
    rfl
  | positional v =>
    split
    · next n hn hassign =>
      exfalso
      cases us with
      | nil =>
        rw [Stream.behind_nil] at hn
        rcases hs with hs | hs <;> simp [hs] at hn
      | cons u us =>
        rw [Stream.next_behind_cons] at hassign
        refine Expr.Spells.next_ne_assign (e := v) ha hn ?_ hassign
        rcases hs with hs | hs <;> simp [hs]
    · rw [h ha hf hend hop]
      rfl

theorem arguments_of_spells {room : Nat} (hs : s.token = .symbol .rightParen) :
    ∀ {as : List Argument} {us : List Located}, (∀ a ∈ as, a.Fits room) →
      (∀ a ∈ as, ReadsBack value a.value) → Argument.AllSpell as (words us) → Fused us →
        many (argumentRound value) (s.behind us) = .ok as s
  | [], us, _, _, h, _ => by
    obtain rfl := words_eq_nil.1 h
    refine many_stop ?_
    rw [Stream.behind_nil, argumentRound_run, if_pos hs]
  | a :: as, us, hfits, hvals, h, hf => by
    obtain ⟨ts, ts', ha, heq, hrest⟩ := h
    obtain ⟨vs, vs', rfl, rfl, rfl⟩ := words_eq_append.1 heq
    obtain ⟨hfit, hfits⟩ := List.forall_mem_cons.1 hfits
    obtain ⟨hval, hvals⟩ := List.forall_mem_cons.1 hvals
    have hne : ((s.behind vs').behind vs).token ≠ .symbol .rightParen := by
      obtain ⟨t, ts, heq, ht⟩ := ha.begins hfit
      obtain ⟨u, vs, rfl, rfl, -⟩ := words_eq_cons.1 heq
      intro h
      rw [Stream.token_behind_cons] at h
      simp [h, Token.beginsExpr] at ht
    rw [Stream.behind_append]
    obtain ⟨rfl, hvs'⟩ | ⟨ws, hws, hvs'⟩ := hrest
    · obtain rfl := words_eq_nil.1 hvs'
      rw [Stream.behind_nil] at hne ⊢
      refine many_last ?_
      rw [argumentRound_run, if_neg hne, argument_of_spells hval ha hf.left (.inr hs)]
      simp [hs]
    · obtain ⟨c, vs', rfl, hc, rfl⟩ := words_eq_cons.1 hvs'
      have hround : argumentRound value ((s.behind (c :: vs')).behind vs) =
          .ok (.item a) (s.behind vs') := by
        have harg := argument_of_spells (s := s.behind (c :: vs')) hval ha hf.left (.inl hc)
        rw [argumentRound_run, if_neg hne, harg]
        simp [hc]
      rw [many_item hround (by simp only [Stream.size_behind, List.length_cons]; omega),
        arguments_of_spells hs hfits hvals hws hf.right.tail, Outcome.map_ok]

end Arguments

/-! ## Operands -/

/-- An operand is read back from its spellings, `room` levels being left inside its own. -/
def ReadsAsOperand (room : Nat) (e : Expr) : Prop :=
  ∀ ⦃us s⦄, e.Spells (words us) → Fused us → s.token.endsOperand = true →
    operand (unaryAt room) (binaryAt room 1) (s.behind us) = .ok e s

/-- The loop over operators reads the tree first and goes on from there, unless an operator
ahead would rather belong to a right operand of the tree. -/
def Climbs (room : Nat) (e : Expr) : Prop :=
  ∀ ⦃us s⦄, e.Spells (words us) → Fused us → s.token.endsOperand = true →
    ∀ floor, e.bindsBelow floor = false →
      (∀ op, BinaryOp.ofToken? s.token = some op → e.bindsBelow op.leftFloor = false) →
        climb floor (operand (unaryAt room) (binaryAt room 1)) (binaryAt room) (s.behind us) =
          (many (operation floor (binaryAt room)) s).map (applyAll e)

theorem ReadsAsOperand.climbs {room : Nat} {e : Expr} (h : ReadsAsOperand room e) :
    Climbs room e := by
  intro us s hsp hf hend floor _ _
  rw [climb, bind_run, h hsp hf hend, Outcome.andThen_ok]
  rfl

theorem many_operation_of_stops {floor : Nat} {right : Nat → Reader Expr} {s : Stream}
    (hs : ∀ op, BinaryOp.ofToken? s.token = some op → op.precedence < floor) :
    many (operation floor right) s = .ok [] s := by
  refine many_stop ?_
  rw [operation_run]
  split
  · next op hop => rw [if_pos (hs op hop)]
  · rfl

theorem Climbs.binaryAt_eq {room floor : Nat} {e : Expr} (h : Climbs room e)
    (hsp : e.Spells (words us)) (hf : Fused us) (hend : s.token.endsOperand = true)
    (hfloor : e.bindsBelow floor = false)
    (hs : ∀ op, BinaryOp.ofToken? s.token = some op → op.precedence < floor) :
    binaryAt (room + 1) floor (s.behind us) = .ok e s := by
  rw [binaryAt, h hsp hf hend floor hfloor
    fun op hop => Expr.bindsBelow_leftFloor_of_lt (hs op hop) hfloor, many_operation_of_stops hs]
  rfl

theorem Climbs.readsBack {room : Nat} {e : Expr} (h : Climbs room e) :
    ReadsBack (binaryAt (room + 1) 1) e := by
  intro us s hsp hf hend hop
  refine h.binaryAt_eq hsp hf hend ?_ fun op hop' => by simp [hop] at hop'
  cases e with
  | binary op l r => simpa [Expr.bindsBelow] using Nat.ne_of_gt op.one_le_precedence
  | _ => rfl

theorem Climbs.binary {room : Nat} {op : BinaryOp} {l r : Expr}
    (hl : Climbs (room + 1) l) (hr : Climbs room r)
    (hlfloor : l.bindsBelow op.leftFloor = false) (hrfloor : r.bindsBelow op.rightFloor = false) :
    Climbs (room + 1) (.binary op l r) := by
  intro us s hsp hf hend floor hfloor hnext
  obtain ⟨ts, ts', hspl, hspr, heq⟩ := hsp
  obtain ⟨vs, _, rfl, rfl, h'⟩ := words_eq_append.1 heq
  obtain ⟨o, ws, rfl, ho, rfl⟩ := words_eq_cons.1 h'
  have hop : BinaryOp.ofToken? (s.behind (o :: ws)).token = some op := by
    rw [Stream.token_behind_cons, ho, BinaryOp.ofToken?_token]
  have hge : floor ≤ op.precedence := by simpa [Expr.bindsBelow] using hfloor
  have hlow := Expr.bindsBelow_mono (Nat.le_trans hge op.precedence_le_leftFloor) hlfloor
  have hleft := hl (s := s.behind (o :: ws)) hspl hf.left
    (by rw [Stream.token_behind_cons, ho, op.endsOperand_token]) floor hlow
    fun op' hop' => by rwa [← Option.some.inj (hop.symm.trans hop')]
  have hright : binaryAt (room + 1) op.rightFloor (s.behind ws) = .ok r s := by
    refine hr.binaryAt_eq hspr hf.right.tail hend hrfloor fun op' hop' => ?_
    have hle := hnext op' hop'
    simp only [Expr.bindsBelow, decide_eq_false_iff_not, Nat.not_lt] at hle
    exact (BinaryOp.leftFloor_le_iff op' op).1 hle
  have hround : operation floor (binaryAt (room + 1)) (s.behind (o :: ws)) =
      .ok (.item (op, r)) s := by
    rw [operation_run, hop]
    simp [Nat.not_lt.2 hge, hright]
  rw [Stream.behind_append, hleft,
    many_item hround (by simp only [Stream.size_behind, List.length_cons]; omega),
    Outcome.map_map]
  rfl

/-! ### Operands by their first token -/

variable {room : Nat}

theorem readsAsOperand_name (n : String) : ReadsAsOperand room (.name n) := by
  intro us s hsp hf hend
  have hdot : s.token ≠ .symbol .dot := fun h => by simp [h, Token.endsOperand] at hend
  have hparen : s.token ≠ .symbol .leftParen := fun h => by simp [h, Token.endsOperand] at hend
  have hpath : (Path.single n).Spells (words us) := ⟨[], rfl, hsp⟩
  obtain ⟨u, rfl, hu⟩ := words_eq_singleton.1 hsp
  rw [operand_of_name (s := s.behind [u]) hu, nameOrCall_run,
    path_of_spells hdot (by simp [Path.single]) hpath]
  simp [hparen, Path.single]

theorem readsAsOperand_property {p : Path} (hp : 2 ≤ p.segments.length) :
    ReadsAsOperand room (.property p) := by
  intro us s hsp hf hend
  have hdot : s.token ≠ .symbol .dot := fun h => by simp [h, Token.endsOperand] at hend
  have hparen : s.token ≠ .symbol .leftParen := fun h => by simp [h, Token.endsOperand] at hend
  have hne : p.segments ≠ [] := fun h => by simp [h] at hp
  obtain ⟨n, hn⟩ := token_of_path_spells (s := s) hne hsp
  rw [operand_of_name hn, nameOrCall_run, path_of_spells hdot hne hsp, Outcome.andThen_ok,
    if_neg hparen]
  split
  · next n hn => simp [hn] at hp
  · rfl

theorem readsAsOperand_call {p : Path} {as : List Argument} (hp : 1 ≤ p.segments.length)
    (hfits : ∀ a ∈ as, a.Fits room) (hvals : ∀ a ∈ as, ReadsBack (binaryAt room 1) a.value) :
    ReadsAsOperand room (.call p as) := by
  intro us s hsp hf hend
  obtain ⟨ts, ts', hpath, has, heq⟩ := hsp
  obtain ⟨vs, _, rfl, rfl, h'⟩ := words_eq_append.1 heq
  obtain ⟨o, _, rfl, ho, h'⟩ := words_eq_cons.1 h'
  obtain ⟨ws, _, rfl, rfl, hclose⟩ := words_eq_append.1 h'
  obtain ⟨c, rfl, hc⟩ := words_eq_singleton.1 hclose
  have hne : p.segments ≠ [] := List.length_pos_iff.1 hp
  obtain ⟨n, hn⟩ := token_of_path_spells (s := s.behind (o :: (ws ++ [c]))) hne hpath
  have hargs : arguments (binaryAt room 1) (s.behind (o :: (ws ++ [c]))) = .ok as s := by
    have hopen : symbol .leftParen (s.behind (o :: (ws ++ [c]))) = .ok () (s.behind (ws ++ [c])) :=
      symbol_eq_ok.2 ⟨ho, Stream.advance_behind_cons⟩
    have hclose : symbol .rightParen (s.behind [c]) = .ok () s :=
      symbol_eq_ok.2 ⟨hc, Stream.advance_behind_cons⟩
    have hmany := arguments_of_spells (s := s.behind [c]) hc hfits hvals has hf.right.tail.left
    rw [arguments_run, hopen, Outcome.andThen_ok, Stream.behind_append, hmany, Outcome.andThen_ok,
      hclose, Outcome.map_ok]
  have hdot : (s.behind (o :: (ws ++ [c]))).token ≠ .symbol .dot := by
    rw [Stream.token_behind_cons, ho]
    simp
  rw [Stream.behind_append, operand_of_name hn, nameOrCall_run, path_of_spells hdot hne hpath,
    Outcome.andThen_ok, if_pos (by exact ho), hargs]
  rfl

theorem readsAsOperand_number {v : Numeral} (hv : v = .ofLexeme v.lexeme) :
    ReadsAsOperand room (.number v) := by
  intro us s hsp hf hend
  obtain ⟨u, rfl, hu⟩ := words_eq_singleton.1 hsp
  rw [operand_run, Stream.token_behind_cons, hu]
  simp only [UnaryOp.ofToken?]
  rw [primary_run, Stream.token_behind_cons, hu]
  simp only
  rw [number_run, Stream.advance_behind_cons, Stream.behind_nil]
  split
  · next u hunit => simp [hunit, Token.endsOperand] at hend
  · rw [← hv]

theorem readsAsOperand_measure {v : Numeral} {u : UnitTag} (hv : v = .ofLexeme v.lexeme)
    (hu : Quantity.ofUnit? u.spelling = some u.quantity) :
    ReadsAsOperand room (.measure v u) := by
  intro us s hsp hf hend
  obtain ⟨x, _, rfl, hx, h'⟩ := words_eq_cons.1 hsp
  obtain ⟨y, rfl, hy⟩ := words_eq_singleton.1 h'
  have hline : y.line = x.line := List.isChain_pair.1 hf u.spelling hy
  rw [operand_run, Stream.token_behind_cons, hx]
  simp only [UnaryOp.ofToken?]
  rw [primary_run, Stream.token_behind_cons, hx]
  simp only
  rw [number_run]
  simp [hy, hline, hu, ← hv]

theorem readsAsOperand_string (content : String) : ReadsAsOperand room (.string content) := by
  intro us s hsp _ _
  obtain ⟨u, rfl, hu⟩ := words_eq_singleton.1 hsp
  simp [operand_run, primary_run, hu, UnaryOp.ofToken?]

theorem readsAsOperand_truth (b : Bool) : ReadsAsOperand room (.truth b) := by
  intro us s hsp _ _
  obtain ⟨u, rfl, hu⟩ := words_eq_singleton.1 hsp
  simp [operand_run, primary_run, hu, UnaryOp.ofToken?]

theorem readsAsOperand_unary {op : UnaryOp} {e : Expr} (h : ReadsAsOperand room e) :
    ReadsAsOperand (room + 1) (.unary op e) := by
  intro us s hsp hf hend
  obtain ⟨ts, he, heq⟩ := hsp
  obtain ⟨u, us, rfl, hu, rfl⟩ := words_eq_cons.1 heq
  have hbehind : unaryAt (room + 1) (s.behind us) = .ok e s := h he hf.tail hend
  rw [operand_run, Stream.token_behind_cons, hu, UnaryOp.ofToken?_token]
  simp [hbehind]

theorem readsAsOperand_parens {e : Expr} (h : ReadsBack (binaryAt room 1) e) :
    ReadsAsOperand room (.parens e) := by
  intro us s hsp hf hend
  obtain ⟨ts, he, heq⟩ := hsp
  obtain ⟨o, _, rfl, ho, h'⟩ := words_eq_cons.1 heq
  obtain ⟨vs, _, rfl, rfl, hclose⟩ := words_eq_append.1 h'
  obtain ⟨c, rfl, hc⟩ := words_eq_singleton.1 hclose
  have hinside : binaryAt room 1 ((s.behind [c]).behind vs) = .ok e (s.behind [c]) :=
    h he hf.tail.left (by simp [hc, Token.endsOperand]) (by simp [hc, BinaryOp.ofToken?])
  have hclose : symbol .rightParen (s.behind [c]) = .ok () s :=
    symbol_eq_ok.2 ⟨hc, Stream.advance_behind_cons⟩
  rw [operand_run, Stream.token_behind_cons, ho]
  simp only [UnaryOp.ofToken?]
  rw [primary_run, Stream.token_behind_cons, ho]
  simp only
  rw [Stream.advance_behind_cons, Stream.behind_append, hinside, Outcome.andThen_ok, hclose]
  rfl

/-! ## Every tree is read back -/

theorem ReadsAsOperand.both {e : Expr} (h : ReadsAsOperand room e) :
    (e.isBinary = false → ReadsAsOperand room e) ∧ Climbs room e :=
  ⟨fun _ => h, h.climbs⟩

mutual

/-- A tree that groups by precedence is read back from its spellings. -/
theorem climbs_of_fits : ∀ {room : Nat} (e : Expr), e.Fits (room + 1) →
    (e.isBinary = false → ReadsAsOperand room e) ∧ Climbs room e
  | _, .name n, _ => (readsAsOperand_name n).both
  | _, .number _, h => (readsAsOperand_number (Expr.fits_number.1 h).1).both
  | _, .measure _ _, h =>
    have hu := (Expr.fits_measure.1 h).1
    (readsAsOperand_measure hu.1 hu.2).both
  | _, .string content, _ => (readsAsOperand_string content).both
  | _, .truth b, _ => (readsAsOperand_truth b).both
  | _, .property _, h => (readsAsOperand_property (Expr.fits_property.1 h).1).both
  | _, .call _ as, h =>
    have hcall := Expr.fits_call.1 h
    (readsAsOperand_call hcall.1 hcall.2 (readsBack_of_fits as hcall.2)).both
  | 0, .binary _ _ _, h => absurd (Expr.fits_binary.1 h).2.2 Expr.not_fits_zero
  | room + 1, .binary _ l r, h => by
    obtain ⟨⟨hlfloor, hrfloor⟩, hl, hr⟩ := Expr.fits_binary.1 h
    refine ⟨(fun hb => by cases hb), ?_⟩
    exact (climbs_of_fits l hl).2.binary (climbs_of_fits r hr).2 hlfloor hrfloor
  | 0, .unary _ _, h => absurd (Expr.fits_unary.1 h).2 Expr.not_fits_zero
  | room + 1, .unary _ e, h =>
    have hun := Expr.fits_unary.1 h
    (readsAsOperand_unary ((climbs_of_fits e hun.2).1 hun.1)).both
  | 0, .parens _, h => absurd (Expr.fits_parens.1 h) Expr.not_fits_zero
  | room + 1, .parens e, h =>
    (readsAsOperand_parens (climbs_of_fits e (Expr.fits_parens.1 h)).2.readsBack).both

theorem readsBack_of_fits : ∀ {room : Nat} (as : List Argument), (∀ a ∈ as, a.Fits room) →
    ∀ a ∈ as, ReadsBack (binaryAt room 1) a.value
  | _, [], _, _, h => by cases h
  | 0, .positional _ :: _, h, _, _ =>
    absurd (Argument.fits_positional.1 (List.forall_mem_cons.1 h).1) Expr.not_fits_zero
  | 0, .named _ _ :: _, h, _, _ =>
    absurd (Argument.fits_named.1 (List.forall_mem_cons.1 h).1) Expr.not_fits_zero
  | room + 1, .positional v :: as, h, a, ha => by
    obtain ⟨hv, has⟩ := List.forall_mem_cons.1 h
    obtain rfl | ha := List.mem_cons.1 ha
    · exact (climbs_of_fits v (Argument.fits_positional.1 hv)).2.readsBack
    · exact readsBack_of_fits as has a ha
  | room + 1, .named _ v :: as, h, a, ha => by
    obtain ⟨hv, has⟩ := List.forall_mem_cons.1 h
    obtain rfl | ha := List.mem_cons.1 ha
    · exact (climbs_of_fits v (Argument.fits_named.1 hv)).2.readsBack
    · exact readsBack_of_fits as has a ha

end

theorem readsBack_expression {room : Nat} {e : Expr} (h : e.Fits room) :
    ReadsBack (expression room) e := by
  cases room with
  | zero => exact absurd h Expr.not_fits_zero
  | succ room => exact (climbs_of_fits e h).2.readsBack

end Grammar

open Grammar Reader

/-- An expression that fills the whole row. -/
theorem parseExpr_eq_accepted {ts : List Located} {e : Expr} :
    parseExpr ts = .accepted e ↔
      ∃ s, expression maxNesting (.ofTokens ts) = .ok e s ∧ s.token = .eof := by
  have h : parseExpr ts = ((expression maxNesting (.ofTokens ts)).andThen fun e s =>
      (endOfInput s).map fun _ => e).verdict := rfl
  rw [h]
  cases expression maxNesting (.ofTokens ts) with
  | ok e' s =>
    have hend : endOfInput s =
        if s.token = .eof then .ok () s else .fail (s.expecting ["end of input"]) s := by
      rw [endOfInput, bind_run, peek_run, Outcome.andThen_ok, ite_run]
      rfl
    rw [Outcome.andThen_ok, hend]
    constructor
    · intro h
      split at h
      · next hs =>
        cases h
        exact ⟨s, rfl, hs⟩
      · cases h
    · rintro ⟨s', heq, hs⟩
      obtain ⟨rfl, rfl⟩ := Outcome.ok.inj heq
      rw [if_pos hs]
      rfl
  | fail d s => simp [Outcome.verdict]
  | endless => simp [Outcome.verdict]

/-- The tokens as a row on one line. -/
def onOneLine (ts : List Token) : List Located :=
  ts.map fun t => ⟨t, Place.origin.to Place.origin⟩

theorem words_onOneLine (ts : List Token) : words (onOneLine ts) = ts := by
  simp [words, onOneLine, Function.comp_def]

theorem fused_onOneLine (ts : List Token) : Fused (onOneLine ts) := by
  refine .of_line (n := 1) fun u hu => ?_
  obtain ⟨t, -, rfl⟩ := List.mem_map.1 hu
  rfl

/-- Two trees with a spelling in common are equal if both group by precedence. -/
theorem Expr.Spells.unique {e e' : Expr} {ts : List Token} (h : e.Spells ts) (h' : e'.Spells ts)
    (hg : e.Grouped) (hp : e.Proper) (hg' : e'.Grouped) (hp' : e'.Proper) : e' = e := by
  have hfit : e.Fits (max e.depth e'.depth + 1) :=
    Expr.fits_iff.2 ⟨⟨hg, hp⟩, Nat.lt_succ_of_le (Nat.le_max_left _ _)⟩
  have hfit' : e'.Fits (max e.depth e'.depth + 1) :=
    Expr.fits_iff.2 ⟨⟨hg', hp'⟩, Nat.lt_succ_of_le (Nat.le_max_right _ _)⟩
  rw [← words_onOneLine ts] at h h'
  have hs : (Stream.ofTokens []).token = .eof := rfl
  have hread := readsBack_expression hfit h (fused_onOneLine ts) (s := .ofTokens [])
    (by simp [hs, Token.endsOperand]) (by simp [hs, BinaryOp.ofToken?])
  have hread' := readsBack_expression hfit' h' (fused_onOneLine ts) (s := .ofTokens [])
    (by simp [hs, Token.endsOperand]) (by simp [hs, BinaryOp.ofToken?])
  exact (Outcome.ok.inj (hread'.symm.trans hread)).1

/-- A spelling of a tree that groups by precedence is accepted as that tree. -/
theorem parseExpr_of_spells {e : Expr} {us : List Located} {t : Located} (ht : t.token = .eof)
    (h : e.Spells (words us)) (hfit : e.Fits maxNesting) (hf : Fused us) :
    parseExpr (us ++ [t]) = .accepted e := by
  refine parseExpr_eq_accepted.2 ⟨⟨t, []⟩, ?_, ht⟩
  have hrow : us ++ [t] = us ++ Stream.row ⟨t, []⟩ := rfl
  have htok : Stream.token ⟨t, []⟩ = .eof := ht
  rw [hrow, Stream.ofTokens_append_row]
  exact readsBack_expression hfit h hf (by simp [htok, Token.endsOperand])
    (by simp [htok, BinaryOp.ofToken?])

/-- An accepted row, without its end, spells the expression. -/
theorem spells_of_parseExpr {ts : List Located} (hts : EndsOnce ts) {e : Expr}
    (h : parseExpr ts = .accepted e) : e.Spells (words ts.dropLast) ∧ e.Fits maxNesting := by
  obtain ⟨s, hread, hs⟩ := parseExpr_eq_accepted.1 h
  have hends : (Stream.ofTokens ts).Ends := Stream.ends_ofTokens hts
  obtain ⟨us, hus, hspells, hfit⟩ := takes_expression maxNesting hends hread
  have hdrop : ts.dropLast = us := by
    have hrow : (Stream.ofTokens ts).row = us ++ s.row := by rw [hus, Stream.row_behind]
    rw [hus] at hends
    rw [Stream.row_ofTokens hts, hends.of_behind.row_of_eof hs] at hrow
    rw [hrow, List.dropLast_concat]
  rw [hdrop]
  exact ⟨hspells, hfit⟩

/-- An accepted row, without its end, spells the expression, whose operators are grouped by
precedence, and it spells no other such tree. -/
theorem parseExpr_grouping {ts : List Located} (hts : EndsOnce ts) {e : Expr}
    (h : parseExpr ts = .accepted e) :
    e.Spells (words ts.dropLast) ∧ e.Grouped ∧ e.Proper ∧
      ∀ e' : Expr, e'.Spells (words ts.dropLast) → e'.Grouped → e'.Proper → e' = e := by
  obtain ⟨hspells, hfit⟩ := spells_of_parseExpr hts h
  obtain ⟨⟨hg, hp⟩, -⟩ := Expr.fits_iff.1 hfit
  exact ⟨hspells, hg, hp, fun e' h' hg' hp' => hspells.unique h' hg hp hg' hp'⟩

/-- `-a ** f(1, x = b,) + c`, with a comma behind the last argument. -/
theorem parseExpr_grouping_trailing_comma :
    let ts : List Located := [.symbol .minus, .name "a", .symbol .starStar, .name "f",
      .symbol .leftParen, .number "1", .symbol .comma, .name "x", .symbol .assign, .name "b",
      .symbol .comma, .symbol .rightParen, .symbol .plus, .name "c", .eof].zipIdx.map
        fun (t, i) => ⟨t, ⟨i, i + 1, 1, i + 1⟩⟩
    let e : Expr := .binary .add (.binary .pow (.unary .neg (.name "a"))
      (.call ⟨["f"]⟩ [.positional (.number ⟨"1", .integer⟩), .named "x" (.name "b")])) (.name "c")
    (EndsOnce ts ∧ parseExpr ts = .accepted e) ∧
      e.Spells (words ts.dropLast) ∧ e.Grouped ∧ e.Proper ∧
        ∀ e' : Expr, e'.Spells (words ts.dropLast) → e'.Grouped → e'.Proper → e' = e := by
  intro ts e
  have hts : EndsOnce ts := by simp [ts, EndsOnce]
  have he : parseExpr ts = .accepted e := by cbv
  exact ⟨⟨hts, he⟩, parseExpr_grouping hts he⟩

end OpsLang
