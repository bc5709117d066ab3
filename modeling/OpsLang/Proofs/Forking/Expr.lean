import OpsLang.Proofs.Forking.Reader

/-!
# Expressions that fork

An expression that ends at `x` ends at `y` as well, if the token there stops it
(`forksAt_expression`). So none of these readers needs to know how the second reading might go on.

In front of `x` an expression is begun, or one is listed as wanted, unless no level is left
(`begins_expression`). The readers that look two tokens ahead, for a name and `=`, do not see more
of `y` since no `=` stands there (`forksAt_of_assigns`).
-/

namespace OpsLang

namespace Stream.Stops

variable {y : Stream} (hy : y.Stops)

include hy

theorem ne_of_not_stops {t : Token} (ht : t.stops = false) : y.token ≠ t := by
  rintro rfl
  exact Bool.false_ne_true (ht.symm.trans hy.stops)

theorem binaryOp_eq_none : BinaryOp.ofToken? y.token = none := by
  have hstops := hy.stops
  unfold Token.stops at hstops
  split at hstops <;> simp_all

end Stream.Stops

namespace Grammar

open Reader

variable {x y : Stream} {L : Prop} {us : List Located}

/-! ## Names -/

theorem lands_memberRound : memberRound.Lands :=
  Marks.lands <| (marks_eat _).bind fun _ =>
    ((marks_member blames_of_explains _).bind fun _ => marks_pure _).ite (marks_pure _)

theorem passes_path {s : Stream} {n : String} (hn : s.token = .name n) (hs : s.Closed) :
    (path s).Passes s := by
  have hname : (name "identifier" s).Passes s :=
    (takesOne_name .plain).passes (a := n) (by rw [hn]; rfl)
  rw [path_eq]
  exact hname.andThen hs fun n => lands_memberRound.many.bind fun _ => lands_pure _

theorem argument_of_plain (value : Reader Expr) {s : Stream} (h : ∀ n, ¬AssignsAhead n s) :
    argument value s = (value s).map .positional := by
  rw [argument_run]
  split
  · next n hn ha => exact absurd ⟨hn, ha⟩ (h n)
  · rfl

/-! ## Beginnings -/

theorem passes_number {s : Stream} {lexeme : String} (hs : s.token = .number lexeme) :
    (number lexeme s).Passes s := by
  have ht : s.token ≠ .eof := by simp [hs]
  rw [number_run]
  split
  · split
    · exact ⟨ht, s.advance.reaches_advance⟩
    · exact ⟨ht, Stream.Reaches.refl _⟩
  · exact ⟨ht, Stream.Reaches.refl _⟩

section Inside

variable {behind inside : Reader Expr} (hi : inside.Marks Stream.Blames)

include hi

theorem passes_arguments {s : Stream} (h : s.token = .symbol .leftParen) (hs : s.Closed) :
    (arguments inside s).Passes s := by
  have hparen : (symbol .leftParen s).Passes s :=
    (takesOne_symbol .leftParen).passes (a := ()) (if_pos h)
  have hround : (argumentRound inside).Lands :=
    Marks.lands <| marks_peek.bind fun _ => (marks_pure _).ite <| (marks_argument hi).bind fun _ =>
      (marks_eat _).bind fun _ => (marks_pure _).ite (marks_pure _)
  rw [arguments_eq]
  exact hparen.andThen hs fun _ => hround.many.bind fun _ =>
    (takesOne_symbol _).lands.bind fun _ => lands_pure _

theorem passes_primary {s : Stream} (h : s.token = .symbol .leftParen) (hs : s.Closed) :
    (primary inside s).Passes s := by
  have hrun : primary inside s =
      (inside >>= fun e => symbol .rightParen >>= fun _ => pure (.parens e)) s.advance := by
    rw [primary_run, h]
    rfl
  rw [hrun]
  exact (hi.lands.bind fun _ => (takesOne_symbol _).lands.bind fun _ => lands_pure _).passes hs
    (by simp [h])

theorem passes_nameOrCall {s : Stream} {n : String} (hn : s.token = .name n) (hs : s.Closed) :
    (nameOrCall inside s).Passes s := by
  refine (passes_path hn hs).andThen hs fun p => Marks.lands (marks_peek.bind fun t => ?_)
  refine Marks.ite ((marks_arguments blames_of_explains hi).bind fun _ => marks_pure _) ?_
  split <;> exact marks_pure _

theorem begins_operand (hb : behind.Marks Stream.Blames) (hx : x.Closed) :
    (operand behind inside).Begins x y [.expression] := by
  have hopens : ∀ w ∈ [Wanted.expression], w.Opens y → (operand behind inside y).Passes y := by
    simp only [List.mem_singleton, forall_eq]
    rintro ⟨lexeme, hnumber⟩
    rw [operand_run, hnumber, primary_run, hnumber]
    exact passes_number hnumber
  rw [Begins, operand_run]
  split
  · next op hop =>
    exact .inl ((hb.lands.passes hx fun he => by rw [he] at hop; cases hop).map _)
  by_cases hparen : x.token = .symbol .leftParen
  · exact .inl (passes_primary hi hparen hx)
  rw [primary_run]
  split
  · next h => exact .inl (passes_number h)
  · next h => exact .inl (Outcome.passes_advance (by simp [h]) _)
  · next h => exact .inl (Outcome.passes_advance (by simp [h]) _)
  · contradiction
  · next h => exact .inl (passes_nameOrCall hi h hx)
  · exact .inr ⟨_, _, _, rfl, rfl, fun _ => rfl, List.Subset.refl _, hopens⟩
  · exact .inr ⟨_, _, _, rfl, rfl, fun _ => rfl, List.Subset.refl _, hopens⟩

end Inside

theorem lands_operation {floor : Nat} {right : Nat → Reader Expr} (hr : ∀ n, (right n).Lands) :
    (operation floor right).Lands := by
  intro s hs
  rw [operation_run]
  split
  · split
    · exact .refl s
    · exact ((hr _ _ hs.advance).of_reaches s.reaches_advance).map _
  · exact .refl s

/-- An expression is begun or wanted, unless no level is left. -/
theorem begins_expression (hx : x.Closed) (hy : y.Closed) (room : Nat) :
    (expression room).Begins x y [.expression] := by
  cases room with
  | zero => exact .inr ⟨_, x, [], rfl, rfl, fun _ => rfl, List.nil_subset _, by simp⟩
  | succ room =>
    exact (begins_operand (marks_expression room) (marks_unaryAt room) hx).bind hx hy fun _ =>
      (lands_operation fun n => (marks_binaryAt room n).lands).many.bind fun _ => lands_pure _

theorem begins_argument {value : Reader Expr} (hx : x.Closed)
    (hv : value.Begins x y [.expression]) (hl : value.Lands) :
    (argument value).Begins x y [.expression] := by
  unfold Begins
  by_cases h : ∃ n, AssignsAhead n x
  · obtain ⟨n, hn⟩ := h
    have hlands : (value x.advance.advance).Lands x.advance :=
      (hl _ hx.advance.advance).of_reaches x.advance.reaches_advance
    have hrun : argument value x = (value x.advance.advance).map (.named n) := by
      rw [argument_run, hn.1, hn.2]
    rw [hrun]
    exact .inl ((hlands.passes (by simp [hn.1])).map _)
  · rw [argument_of_plain value (not_exists.1 h)]
    obtain hp | ⟨d, s, vs, hfail, hspan, htext, hvs, hopens⟩ := hv
    · exact .inl (hp.map _)
    · refine .inr ⟨d, s, vs, by rw [hfail]; rfl, hspan, htext, hvs, fun w hw ho => ?_⟩
      obtain rfl := List.mem_singleton.1 (hvs hw)
      have hplain : ∀ n, ¬AssignsAhead n y := by
        rintro n ⟨hn, -⟩
        obtain ⟨l, hl⟩ := ho
        rw [hn] at hl
        cases hl
      rw [argument_of_plain value hplain]
      exact (hopens _ hw ho).map _

section Expressions

variable (hx : x.Closed) (hy : y.Stops)

include hx hy

theorem forksAt_path : path.ForksAt x y L never us := by
  have hround : ∀ vs, memberRound.ForksAt x y L never vs := fun _ =>
    (forksAt_eat (by simp) fun _ h => absurd h (hy.ne_of_not_stops rfl)).bind hx hy.closed
      fun _ _ _ => .ite (fun _ => (forksAt_member .member).bind hx hy.closed
        fun _ _ _ => .pure _) fun _ => .pure _
  rw [path_eq]
  exact (forksAt_name .plain).bind hx hy.closed fun _ _ _ =>
    (ForksAt.many hx hy.closed (fun vs _ => hround vs) fun _ => False.elim).bind_closed hx hy.closed
      (fun _ _ _ => .pure _) fun _ => False.elim

/-! ## Lists -/

section Lists

variable {α β : Type} {r : Reader α} {close : Symbol}

/-- A round of a list is closed by the symbol at `x` that closes the list. -/
theorem forksAt_listRound {w : Wanted} (hr : ∀ u vs, r.ForksAt x y L never (u :: vs))
    (hbegins : r.Begins x y [w]) (hw : w.stops = true)
    (hopens : w.Opens y → y.token ≠ .symbol close) :
    (do
      if (← peek) = .symbol close then return Turn.stop
      let a ← r
      if ← eat (.symbol .comma) then return Turn.item a else return Turn.last a :
        Reader (Turn α)).ForksAt x y L (fun t => t = .stop ∧ x.token = .symbol close) us := by
  have hrest : ∀ a vs, (do
      if ← eat (.symbol .comma) then return Turn.item a else return Turn.last a :
        Reader (Turn α)).ForksAt x y L never vs := fun _ _ =>
    (forksAt_eat (by simp) fun _ h => absurd h (hy.ne_of_not_stops rfl)).bind hx hy.closed
      fun _ _ _ => .ite (fun _ => .pure _) fun _ => .pure _
  have hlands : (do
      if (← peek) = .symbol close then return Turn.stop
      let a ← r
      if ← eat (.symbol .comma) then return Turn.item a else return Turn.last a :
        Reader (Turn α)).Lands :=
    (marks_peek (P := Stream.Blames)).lands.bind fun _ => (lands_pure _).ite <|
      (hr x.here []).lands.bind fun a => (hrest a []).lands
  cases us with
  | nil =>
    refine ⟨hlands, ?_⟩
    simp only [Stream.behind_nil, bind_run r, bind_run peek, peek_run, Outcome.andThen_ok, ite_run]
    by_cases hclose : x.token = .symbol close
    · rw [if_pos hclose]
      by_cases hclose' : y.token = .symbol close
      · rw [if_pos hclose']
        exact .upTo
      · exact .closed ⟨rfl, hclose⟩ fun heq => hclose' (heq.trans hclose)
    · rw [if_neg hclose]
      refine (hbegins.bind hx hy.closed fun a => (hrest a []).lands).forked_of
        (by simpa using hw) ?_
      simp only [List.mem_singleton, forall_eq]
      exact fun h => if_neg (hopens h)
  | cons u us =>
    exact .peek_cons hlands <| .ite (fun _ => .pure _) fun _ =>
      ((hr u us).bind hx hy.closed fun a vs _ => hrest a vs).weaken

/-- A list with the symbol that closes it, and what follows. -/
theorem forksAt_list {round : Reader (Turn α)} {k : List α → Reader β}
    (hround : ∀ vs, round.ForksAt x y L (fun t => t = .stop ∧ x.token = .symbol close) vs)
    (hclose : (Token.symbol close).stops = true) (hk : ∀ as vs, (k as).ForksAt x y L never vs) :
    (do
      let as ← many round
      symbol close
      k as : Reader β).ForksAt x y L never us := by
  have hmany : ∀ vs, ForksAt (many round) x y L (fun _ => x.token = .symbol close) vs := fun _ =>
    ForksAt.many hx hy.closed (fun vs _ => hround vs) fun _ h => ⟨.inl h.1, h.2⟩
  refine (hmany us).bind_closed hx hy.closed (fun as _ _ =>
    (forksAt_symbol close hclose).bind hx hy.closed fun _ vs _ => hk as vs) fun as hx' _ _ => ?_
  have hpasses : (symbol close x).Passes x :=
    (takesOne_symbol close).passes (a := ()) (if_pos hx')
  exact .behind (hpasses.andThen hx fun _ => (hk as []).lands)

end Lists

/-! ## Arguments -/

variable {value : Reader Expr}

/-- A reader that looks two tokens ahead for a name and `=`, takes these if they are there, and
reads a value. -/
theorem forksAt_of_assigns {α : Type} {r : Reader α} {u : Located} {f : String → Expr → α}
    {g : Expr → α} (hr : r.Lands) (hv : ∀ vs, value.ForksAt x y L never vs)
    (hassigns : ∀ n t, AssignsAhead n t → r t = (value t.advance.advance).map (f n))
    (hplain : ∀ t : Stream, t.token = u.token → (∀ n, ¬AssignsAhead n t) →
      r t = (value t).map g) : r.ForksAt x y L never (u :: us) := by
  refine ⟨hr, ?_⟩
  -- Where nothing that is behind `u` makes it an assignment.
  have hsame : ∀ vs, (∀ n, ¬AssignsAhead n (x.behind (u :: vs))) →
      (∀ n, ¬AssignsAhead n (y.behind (u :: vs))) →
        Forked x y L never (u :: vs) (r (x.behind (u :: vs))) (r (y.behind (u :: vs))) := by
    intro vs hnx hny
    rw [hplain _ rfl hnx, hplain _ rfl hny]
    exact (hv (u :: vs)).forked.map g fun _ => False.elim
  cases us with
  | nil =>
    have hny : ∀ n, ¬AssignsAhead n (y.behind [u]) := fun n h =>
      hy.ne_of_not_stops rfl (assignsAhead_behind_cons.1 h).2
    by_cases h : ∃ n, AssignsAhead n (x.behind [u])
    · obtain ⟨n, hn⟩ := h
      have hassign : x.token = .symbol .assign := (assignsAhead_behind_cons.1 hn).2
      rw [hassigns n _ hn, Stream.advance_behind_cons, Stream.behind_nil]
      exact .behind (((hv []).lands.passes hx (by simp [hassign])).map _)
    · exact hsame [] (not_exists.1 h) hny
  | cons v vs =>
    by_cases h : ∃ n, AssignsAhead n (x.behind (u :: v :: vs))
    · obtain ⟨n, hn⟩ := h
      rw [hassigns n _ hn, hassigns n (y.behind (u :: v :: vs)) hn]
      simp only [Stream.advance_behind_cons]
      exact ((hv vs).forked.map _ fun _ => False.elim).of_suffix
        ((List.suffix_cons v vs).trans (List.suffix_cons u _))
    · exact hsame (v :: vs) (not_exists.1 h) (not_exists.1 h)

section Values

variable {room : Nat} (hv : ∀ vs, (expression room).ForksAt x y L never vs)

include hv

theorem forksAt_argument {u : Located} :
    (argument (expression room)).ForksAt x y L never (u :: us) := by
  refine forksAt_of_assigns hx hy (f := .named) (g := .positional)
    (marks_argument (marks_expression room)).lands hv ?_ ?_
  · rintro n t ⟨hn, ha⟩
    rw [argument_run, hn, ha]
  · exact fun t _ h => argument_of_plain _ h

theorem forksAt_arguments {u : Located} (hu : u.token = .symbol .leftParen) :
    (arguments (expression room)).ForksAt x y L never (u :: us) := by
  have hbegins : (argument (expression room)).Begins x y [.expression] :=
    begins_argument hx (begins_expression hx hy.closed room) (marks_expression room).lands
  have hround : ∀ vs, (argumentRound (expression room)).ForksAt x y L
      (fun t => t = .stop ∧ x.token = .symbol .rightParen) vs := fun _ =>
    forksAt_listRound hx hy (fun _ _ => forksAt_argument hx hy hv) hbegins rfl
      fun ⟨_, hnumber⟩ => by simp [hnumber]
  rw [arguments_eq]
  exact (forksAt_symbol_of_eq hu).bind hx hy.closed fun _ _ _ =>
    forksAt_list hx hy hround rfl fun _ _ => .pure _

/-- Arguments that may be missing. -/
theorem forksAt_optionalArguments {α : Type} {g : List Argument → Reader α} {k : Reader α}
    (hg : ∀ as vs, (g as).ForksAt x y L never vs) (hk : ∀ vs, k.ForksAt x y L never vs) :
    (do
      if (← peek) = .symbol .leftParen then g (← arguments (expression room)) else k :
        Reader α).ForksAt x y L never us := by
  have hargs : (arguments (expression room) >>= g).Lands :=
    (marks_arguments blames_of_explains (marks_expression room)).lands.bind fun as =>
      (hg as []).lands
  have hlands : (do
      if (← peek) = .symbol .leftParen then g (← arguments (expression room)) else k :
        Reader α).Lands :=
    (marks_peek (P := Stream.Blames)).lands.bind fun _ => hargs.ite (hk []).lands
  cases us with
  | nil =>
    by_cases hparen : x.token = .symbol .leftParen
    · refine .of_passes hlands ?_
      rw [bind_run, peek_run, Outcome.andThen_ok, ite_run, if_pos hparen]
      exact (passes_arguments (marks_expression room) hparen hx).andThen hx fun as =>
        (hg as []).lands
    · have hrun : ∀ s : Stream, s.token ≠ .symbol .leftParen → (do
          if (← peek) = .symbol .leftParen then g (← arguments (expression room)) else k :
            Reader α) s = k s :=
        fun s hs => by rw [bind_run, peek_run, Outcome.andThen_ok, ite_run, if_neg hs]
      refine ⟨hlands, ?_⟩
      rw [Stream.behind_nil, Stream.behind_nil, hrun x hparen, hrun y (hy.ne_of_not_stops rfl)]
      exact (hk []).forked
  | cons u us =>
    exact .peek_cons hlands (.ite (fun hu => (forksAt_arguments hx hy hv hu).bind hx hy.closed
      fun as vs _ => hg as vs) fun _ => hk _)

theorem forksAt_nameOrCall : (nameOrCall (expression room)).ForksAt x y L never us := by
  refine (forksAt_path hx hy).bind hx hy.closed fun p _ _ =>
    forksAt_optionalArguments hx hy hv (fun _ _ => .pure _) fun _ => ?_
  split <;> exact .pure _

theorem forksAt_activityReference :
    (activityReference (expression room)).ForksAt x y L never us :=
  (forksAt_path hx hy).bind hx hy.closed fun _ _ _ =>
    forksAt_optionalArguments hx hy hv (fun _ _ => .pure _) fun _ => .pure _

/-! ## Operands -/

omit hx hv in
theorem forksAt_number {u : Located} (lexeme : String) :
    (number lexeme).ForksAt x y L never (u :: us) := by
  refine ⟨(marks_number (P := Stream.Blames) lexeme).lands, ?_⟩
  cases us with
  | nil =>
    have hrun : number lexeme (y.behind [u]) = .ok (.number (.ofLexeme lexeme)) y := by
      rw [number_run, Stream.advance_behind_cons, Stream.behind_nil]
      split
      · next z hz => exact absurd hz (hy.ne_of_not_stops rfl)
      · rfl
    rw [hrun, number_run, Stream.advance_behind_cons, Stream.behind_nil]
    split
    · next z hz =>
      split
      · exact .behind (Outcome.passes_advance (by simp [hz]) _)
      · exact .upTo
    · exact .upTo
  | cons v us =>
    simp only [number_run, Stream.advance_behind_cons, Stream.token_behind_cons,
      Stream.line_behind_cons]
    cases v.token with
    | unit z =>
      by_cases hline : v.line = u.line
      · simp only [hline, if_true]
        cases Quantity.ofUnit? z with
        | some q => exact .taken ((List.suffix_cons v us).trans (List.suffix_cons u _))
        | none => exact .taken (List.suffix_cons u _)
      · simp only [hline, if_false]
        exact .taken (List.suffix_cons u _)
    | _ => exact .taken (List.suffix_cons u _)

theorem forksAt_primary {u : Located} :
    (primary (expression room)).ForksAt x y L never (u :: us) := by
  refine .peek_cons (marks_primary blames_of_explains (marks_expression room)).lands ?_
  split
  · exact forksAt_number hy _
  · exact ForksAt.skip_cons.bind hx hy.closed fun _ _ _ => .pure _
  · exact ForksAt.skip_cons.bind hx hy.closed fun _ _ _ => .pure _
  · exact ForksAt.skip_cons.bind hx hy.closed fun _ _ _ => (hv _).bind hx hy.closed fun _ _ _ =>
      (forksAt_symbol _ rfl).bind hx hy.closed fun _ _ _ => .pure _
  · exact forksAt_nameOrCall hx hy hv
  · exact .failAt_cons (isAboutHere_strayUnit _)
  · exact .failAt_cons (isAboutHere_expecting _)

theorem forksAt_operand (hb : ∀ vs, (unaryAt room).ForksAt x y L never vs) :
    (operand (unaryAt room) (expression room)).ForksAt x y L never us := by
  have hlands : (operand (unaryAt room) (expression room)).Lands :=
    (marks_operand blames_of_explains (marks_expression room) (marks_unaryAt room)).lands
  cases us with
  | nil =>
    exact ⟨hlands, (begins_operand (marks_expression room) (marks_unaryAt room) hx).forked
      (by simp [Wanted.stops])⟩
  | cons u us =>
    refine .peek_cons hlands ?_
    split
    · exact ForksAt.skip_cons.bind hx hy.closed fun _ _ _ => (hb _).bind hx hy.closed
        fun _ _ _ => .pure _
    · exact forksAt_primary hx hy hv

end Values

/-! ## Operators -/

theorem forksAt_operation {floor : Nat} {right : Nat → Reader Expr}
    (hr : ∀ n vs, (right n).ForksAt x y L never vs) :
    (operation floor right).ForksAt x y L never us := by
  have hlands : (operation floor right).Lands := lands_operation fun n => (hr n []).lands
  cases us with
  | nil =>
    refine ⟨hlands, ?_⟩
    rw [Stream.behind_nil, Stream.behind_nil, operation_run, operation_run, hy.binaryOp_eq_none]
    split
    · next op hop =>
      split
      · exact .upTo
      · refine .behind (((hr _ []).lands.passes hx ?_).map _)
        intro he
        rw [he] at hop
        cases hop
    · exact .upTo
  | cons u us =>
    refine .peek_cons hlands ?_
    split
    · exact .ite (fun _ => .pure _) fun _ => ForksAt.skip_cons.bind hx hy.closed fun _ _ _ =>
        (hr _ _).bind hx hy.closed fun _ _ _ => .pure _
    · exact .pure _

theorem forksAt_climb {floor : Nat} {first : Reader Expr} {right : Nat → Reader Expr}
    (hf : ∀ vs, first.ForksAt x y L never vs) (hr : ∀ n vs, (right n).ForksAt x y L never vs) :
    (climb floor first right).ForksAt x y L never us :=
  (hf us).bind hx hy.closed fun _ _ _ =>
    (ForksAt.many hx hy.closed (fun _ _ => forksAt_operation hx hy hr) fun _ =>
      False.elim).bind_closed hx hy.closed (fun _ _ _ => .pure _) fun _ => False.elim

end Expressions

/-! ## At every level -/

section Levels

variable (hx : x.Closed) (hy : y.Stops)

include hx hy

mutual

theorem forksAt_binaryAt : ∀ (room floor : Nat) (us : List Located),
    (binaryAt room floor).ForksAt x y L never us
  | 0, _, _ => forksAt_tooDeep
  | room + 1, _, _ => forksAt_climb hx hy
      (fun _ => forksAt_operand hx hy (forksAt_binaryAt room 1) (forksAt_unaryAt room))
      (forksAt_binaryAt room)

theorem forksAt_unaryAt : ∀ (room : Nat) (us : List Located),
    (unaryAt room).ForksAt x y L never us
  | 0, _ => forksAt_tooDeep
  | room + 1, _ => forksAt_operand hx hy (forksAt_binaryAt room 1) (forksAt_unaryAt room)

end

/-- An expression that ends at `x` ends at `y`. -/
theorem forksAt_expression (room : Nat) {C : Expr → Prop} :
    (expression room).ForksAt x y L C us :=
  (forksAt_binaryAt hx hy room 1 us).weaken

end Levels

end Grammar

end OpsLang
