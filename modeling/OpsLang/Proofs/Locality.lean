import OpsLang.Proofs.Confirming
import OpsLang.Proofs.Mending.Reader

/-!
# What stands behind a reading

A reader takes some tokens and looks at what follows on them. `Reader.Local` says that nothing
else of the row matters : the same is read from the same tokens before any other row that goes on
in the same way, at the seam behind them. A semicolon goes on from no expression, so that an
expression, or a statement or a type made of it, is read before a semicolon as it is before
anything else that ends it (`local_expression`, `local_typeDeclaration`).

All this holds of a row in which the text ends somewhere (`Stream.HasEnd`), whatever stands behind
that end, since no reader goes beyond it.
-/

namespace OpsLang

/-! ## Rows in which the text ends -/

namespace Stream

/-- The text ends at the current token or behind it. -/
def HasEnd (s : Stream) : Prop :=
  ∃ u ∈ s.row, u.token = .eof

variable {s : Stream} {us : List Located}

theorem Closed.hasEnd (hs : s.Closed) : s.HasEnd := by
  obtain ⟨u, hu, he⟩ := hs
  exact ⟨u, List.mem_of_getLast? hu, he⟩

theorem hasEnd_of_eof (h : s.token = .eof) : s.HasEnd :=
  ⟨s.here, List.mem_cons_self, h⟩

theorem HasEnd.behind (hs : s.HasEnd) (us : List Located) : (s.behind us).HasEnd := by
  obtain ⟨u, hu, he⟩ := hs
  exact ⟨u, by rw [row_behind]; exact List.mem_append_right us hu, he⟩

theorem HasEnd.of_behind (hs : (s.behind us).HasEnd) (hus : ∀ u ∈ us, u.token ≠ .eof) :
    s.HasEnd := by
  obtain ⟨u, hu, he⟩ := hs
  rw [row_behind] at hu
  obtain hu | hu := List.mem_append.1 hu
  · exact absurd he (hus u hu)
  · exact ⟨u, hu, he⟩

/-- A token that is not the end has another after it. -/
theorem HasEnd.behind_here (hs : s.HasEnd) (h : s.token ≠ .eof) :
    s.advance.behind [s.here] = s := by
  obtain ⟨t, _ | ⟨t', ts⟩⟩ := s
  · obtain ⟨u, hu, he⟩ := hs
    rw [List.mem_singleton.1 hu] at he
    exact absurd he h
  · rfl

theorem HasEnd.advance (hs : s.HasEnd) (h : s.token ≠ .eof) : s.advance.HasEnd := by
  rw [← hs.behind_here h] at hs
  exact hs.of_behind (List.forall_mem_singleton.2 h)

theorem HasEnd.behind_two (hs : s.HasEnd) (h : s.token ≠ .eof) (h' : s.advance.token ≠ .eof) :
    s.advance.advance.behind [s.here, s.advance.here] = s := by
  have hrow : [s.here, s.advance.here] = [s.here] ++ [s.advance.here] := rfl
  rw [hrow, behind_append, (hs.advance h).behind_here h', hs.behind_here h]

end Stream

/-! ## Readers -/

namespace Reader

variable {α β : Type} {i j k l : Seam} {s : Stream}

/-- What is read from `s` is read from the same tokens before any row that goes on, behind the
seam `k`, from where the reading ends. -/
def LocalAt (j k : Seam) (r : Reader α) (s : Stream) : Prop :=
  ∀ ⦃a s'⦄, r s = .ok a s' → ∃ us, s = s'.behind us ∧ (∀ u ∈ us, u.token ≠ .eof) ∧
    ∀ ⦃t⦄, k.Joins s' t → j.Joins s (t.behind us) ∧ r (t.behind us) = .ok a t

/-- What is read from a row in which the text ends depends only on the tokens that are taken and
on what follows on them. -/
def Local (j k : Seam) (r : Reader α) : Prop :=
  ∀ ⦃s⦄, s.HasEnd → LocalAt j k r s

/-- What is read from its own tokens needs no mending. -/
theorem LocalAt.mendsAt {r : Reader α} (h : LocalAt j k r s) : MendsAt j k r r s := by
  intro a s' hr
  obtain ⟨us, rfl, -, hlocal⟩ := h hr
  refine ⟨us.map .kept, by rw [Piece.row_map_kept], fun vs t hvs _ hk => ?_⟩
  rw [Piece.mended_map_kept.1 hvs]
  exact hlocal hk

theorem Local.mends {r : Reader α} (h : Local j k r) : Mends j k r r :=
  fun _ hs => (h hs.closed.hasEnd).mendsAt

/-! ### At one stream -/

section At

variable {r : Reader α} {f : α → Reader β}

theorem LocalAt.pure (a : α) : LocalAt j j (Pure.pure a) s := by
  intro b s' hr
  obtain ⟨rfl, rfl⟩ := Outcome.ok.inj hr
  exact ⟨[], rfl, by simp, fun t hj => ⟨hj, rfl⟩⟩

theorem LocalAt.failAt (d : Stream → Diagnostic) : LocalAt j k (Reader.failAt d : Reader α) s := by
  intro a s' hr
  cases hr

/-- One reader behind another, if the seam between them fits. -/
theorem LocalAt.bind [i.Fits k] (hs : s.HasEnd) (h : LocalAt j k r s)
    (hf : ∀ a s₁, r s = .ok a s₁ → s₁.HasEnd → LocalAt i l (f a) s₁) :
    LocalAt j l (r >>= f) s := by
  intro b s' hr
  rw [bind_run, Outcome.andThen_eq_ok] at hr
  obtain ⟨a, s₁, hr, hfa⟩ := hr
  obtain ⟨us, rfl, hus, hlocal⟩ := h hr
  obtain ⟨vs, rfl, hvs, hlocal'⟩ := hf a s₁ hr (hs.of_behind hus) hfa
  refine ⟨us ++ vs, Stream.behind_append.symm, List.forall_mem_append.2 ⟨hus, hvs⟩,
    fun t hl => ?_⟩
  obtain ⟨hi, hrun'⟩ := hlocal' hl
  obtain ⟨hj, hrun⟩ := hlocal (Seam.Fits.joins hi)
  rw [Stream.behind_append, bind_run, hrun, Outcome.andThen_ok]
  exact ⟨hj, hrun'⟩

/-- A reader that takes the one token at which it stands. -/
theorem localAt_take {b : α} (hs : s.HasEnd) (ht : s.token ≠ .eof)
    (hr : ∀ t : Stream, t.token = s.token → r t = .ok b t.advance) : LocalAt j k r s := by
  intro a s' hrun
  rw [hr s rfl] at hrun
  obtain ⟨rfl, rfl⟩ := Outcome.ok.inj hrun
  refine ⟨[s.here], (hs.behind_here ht).symm, List.forall_mem_singleton.2 ht, fun t _ => ?_⟩
  refine ⟨Seam.Joins.of_firm rfl, ?_⟩
  rw [hr (t.behind [s.here]) rfl, Stream.advance_behind_cons, Stream.behind_nil]

theorem LocalAt.skip {f : Unit → Reader β} (hs : s.HasEnd) (ht : s.token ≠ .eof)
    (h : LocalAt k l (f ()) s.advance) : LocalAt j l (Reader.skip >>= f) s := by
  refine (localAt_take (k := k) hs ht fun _ _ => rfl).bind (i := k) hs fun _ s₁ hr _ => ?_
  obtain ⟨-, rfl⟩ := Outcome.ok.inj hr
  exact h

theorem LocalAt.here {f : Located → Reader β} (h : LocalAt .firm k (f s.here) s) :
    LocalAt j k (Reader.here >>= f) s := by
  intro a s' hr
  obtain ⟨us, hus, hne, hlocal⟩ := h hr
  refine ⟨us, hus, hne, fun t hk => ?_⟩
  obtain ⟨hj, hrun⟩ := hlocal hk
  have hhere : (t.behind us).here = s.here := hj
  exact ⟨hj.of_firm, by rw [bind_run, here_run, Outcome.andThen_ok, hhere, hrun]⟩

theorem LocalAt.peek {f : Token → Reader β} (h : LocalAt .firm k (f s.token) s) :
    LocalAt j k (Reader.peek >>= f) s := by
  intro a s' hr
  obtain ⟨us, hus, hne, hlocal⟩ := h hr
  refine ⟨us, hus, hne, fun t hk => ?_⟩
  obtain ⟨hj, hrun⟩ := hlocal hk
  exact ⟨hj.of_firm, by rw [bind_run, peek_run, Outcome.andThen_ok, hj.token_eq, hrun]⟩

end At

/-! ### Everywhere -/

variable {r q : Reader α} {f : α → Reader β}

theorem Local.bind [i.Fits k] (h : Local j k r) (hf : ∀ a, Local i l (f a)) :
    Local j l (r >>= f) :=
  fun _ hs => (h hs).bind hs fun a _ _ hs₁ => hf a hs₁

theorem local_pure (a : α) : Local j j (pure a) :=
  fun _ _ => .pure a

theorem local_failAt (d : Stream → Diagnostic) : Local j k (failAt d : Reader α) :=
  fun _ _ => .failAt d

theorem local_keyword (y : Keyword) : Local .firm .loose (keyword y) := by
  intro s hs a s' hr
  obtain ⟨ht, -⟩ := keyword_eq_ok.1 hr
  exact localAt_take (b := ()) hs (by simp [ht]) (fun t h => keyword_eq_ok.2 ⟨h.trans ht, rfl⟩) hr

theorem local_symbol (y : Symbol) : Local .firm .loose (symbol y) := by
  intro s hs a s' hr
  obtain ⟨ht, -⟩ := symbol_eq_ok.1 hr
  exact localAt_take (b := ()) hs (by simp [ht]) (fun t h => symbol_eq_ok.2 ⟨h.trans ht, rfl⟩) hr

theorem local_name (what : String) : Local .firm .loose (name what) := by
  intro s hs n s' hr
  obtain ⟨ht, -⟩ := name_eq_ok.1 hr
  exact localAt_take hs (by simp [ht]) (fun t h => name_eq_ok.2 ⟨h.trans ht, rfl⟩) hr

theorem local_member (what : String) : Local .firm .loose (member what) := by
  intro s hs n s' hr
  obtain ⟨ht, -⟩ := member_eq_ok.1 hr
  refine localAt_take hs ?_ (fun t h => member_eq_ok.2 ⟨by rwa [h], rfl⟩) hr
  rcases ht with ht | ⟨ht, -⟩ <;> simp [ht]

/-- A token that may be missing can be told from what stands behind a seam. -/
theorem Local.ifEat {t : Token} (he : t ≠ .eof) (ht : t ≠ .symbol .semicolon)
    (h : Local i k r) (h' : Local j k q) :
    Local j k (do if ← eat t then r else q : Reader α) := by
  intro s hs
  by_cases hst : s.token = t
  · have hne : s.token ≠ .eof := by rwa [hst]
    have htake : LocalAt j i (eat t) s := localAt_take hs hne fun u hu => by
      rw [eat_run, if_pos (hu.trans hst)]
    refine htake.bind (i := i) hs fun b s₁ hr _ => ?_
    rw [eat_run, if_pos hst] at hr
    obtain ⟨rfl, rfl⟩ := Outcome.ok.inj hr
    exact h (hs.advance hne)
  · intro a s' hr
    rw [bind_run, eat_run, if_neg hst, Outcome.andThen_ok] at hr
    obtain ⟨us, hus, hne, hlocal⟩ := h' hs hr
    refine ⟨us, hus, hne, fun u hk => ?_⟩
    obtain ⟨hj, hrun⟩ := hlocal hk
    refine ⟨hj, ?_⟩
    rw [bind_run, eat_run, if_neg (hj.token_ne ht hst), Outcome.andThen_ok]
    exact hrun

/-- A construct that may be missing, and begins with `t` if it is there. -/
theorem Local.ifPeek {t : Token} (ht : t ≠ .symbol .semicolon)
    (h : ∀ ⦃s⦄, s.HasEnd → s.token = t → LocalAt .firm k r s) (h' : Local j k q) :
    Local j k (do if (← peek) = t then r else q : Reader α) := by
  intro s hs
  by_cases hst : s.token = t
  · refine .peek ?_
    rw [if_pos hst]
    exact h hs hst
  · intro a s' hr
    rw [bind_run, peek_run, Outcome.andThen_ok, if_neg hst] at hr
    obtain ⟨us, hus, hne, hlocal⟩ := h' hs hr
    refine ⟨us, hus, hne, fun u hk => ?_⟩
    obtain ⟨hj, hrun⟩ := hlocal hk
    exact ⟨hj, by rw [bind_run, peek_run, Outcome.andThen_ok, if_neg (hj.token_ne ht hst), hrun]⟩

/-- Repetitions are local if their rounds are, and the seam between two rounds fits. -/
theorem Local.many [j.Fits k] {round : Reader (Turn α)} (h : Local j k round) :
    Local j k (many round) := by
  intro s hs as s' hr
  have hlt : ∀ {s t : Stream} {us : List Located}, s.size < (s.behind us).size →
      t.size < (t.behind us).size := by
    intro s t us hlt
    rw [Stream.size_behind] at hlt ⊢
    omega
  refine many_rounds (motive := fun s as s' => s.HasEnd → ∃ us, s = s'.behind us ∧
    (∀ u ∈ us, u.token ≠ .eof) ∧ ∀ ⦃t⦄, k.Joins s' t →
      j.Joins s (t.behind us) ∧ Reader.many round (t.behind us) = .ok as t)
    ?last ?next hr hs
  case last =>
    intro s turn as s' hr hafter hs
    obtain ⟨us, hus, hne, hlocal⟩ := h hs hr
    refine ⟨us, hus, hne, fun t hk => ?_⟩
    obtain ⟨hj, hrun⟩ := hlocal hk
    exact ⟨hj, by rw [many_run, hrun, Outcome.andThen_ok, hafter]⟩
  case next =>
    intro s turn g s₁ as s' hr hsize hafter ih hs
    obtain ⟨us, rfl, hus, hlocal⟩ := h hs hr
    obtain ⟨vs, rfl, hvs, hlocal'⟩ := ih (hs.of_behind hus)
    refine ⟨us ++ vs, Stream.behind_append.symm, List.forall_mem_append.2 ⟨hus, hvs⟩,
      fun t hk => ?_⟩
    obtain ⟨hj', hrun'⟩ := hlocal' hk
    obtain ⟨hj, hrun⟩ := hlocal (Seam.Fits.joins hj')
    rw [Stream.behind_append, many_run, hrun, Outcome.andThen_ok, hafter, if_pos (hlt hsize), hrun']
    exact ⟨hj, rfl⟩

end Reader

namespace Grammar

open Reader

variable {j k : Seam} {s s' : Stream}

/-! ## Expressions -/

theorem local_memberRound : Local .loose .loose memberRound :=
  .ifEat (by simp) (by simp) ((local_member _).bind fun _ => local_pure _) (local_pure _)

theorem local_path : Local .firm .loose path :=
  (local_name _).bind fun _ => local_memberRound.many.bind fun _ => local_pure _

/-- A name with `=` behind it stands at the current place. -/
def AssignsAhead (n : String) (s : Stream) : Prop :=
  s.token = .name n ∧ s.next = .symbol .assign

/-- A reader that takes a token takes one from a local reading. -/
theorem ne_nil_of_proceeds {α : Type} {r : Reader α} (hp : r.Proceeds) {us : List Located}
    {a : α} (hlocal : ∀ ⦃t⦄, Seam.firm.Joins s t → r (t.behind us) = .ok a t) : us ≠ [] := by
  rintro rfl
  have hclosed : (⟨s.here, [⟨.eof, s.here.span⟩]⟩ : Stream).Closed := ⟨_, rfl, rfl⟩
  have hpast := hp _ hclosed
  have hrun := hlocal (t := ⟨s.here, [⟨.eof, s.here.span⟩]⟩) rfl
  rw [Stream.behind_nil] at hrun
  rw [hrun] at hpast
  exact absurd hpast.2 (Nat.lt_irrefl _)

/-- A reader that looks two tokens ahead for a name and `=`, takes these if they are there, and
reads a value. -/
theorem localAt_of_assigns {α : Type} {r : Reader α} {value : Reader Expr}
    {f : String → Expr → α} {g : Expr → α} (hv : Local .firm .loose value)
    (hp : value.Proceeds) (hs : s.HasEnd)
    (hassigns : ∀ n t, AssignsAhead n t → r t = (value t.advance.advance).map (f n))
    (hplain : ∀ t : Stream, t.token = s.token → (∀ n, ¬AssignsAhead n t) →
      r t = (value t).map g) :
    LocalAt j k r s := by
  intro a s' hr
  by_cases h : ∃ n, AssignsAhead n s
  · obtain ⟨n, hn, ha⟩ := h
    have hadv : s.advance.token = .symbol .assign :=
      (Stream.token_advance_of_next (by simp [ha])).trans ha
    have hname : s.token ≠ .eof := by simp [hn]
    have hassign : s.advance.token ≠ .eof := by simp [hadv]
    rw [hassigns n s ⟨hn, ha⟩] at hr
    obtain ⟨e, he, rfl⟩ := Outcome.map_eq_ok.1 hr
    obtain ⟨us, hus, hne, hlocal⟩ := hv ((hs.advance hname).advance hassign) he
    refine ⟨s.here :: s.advance.here :: us, ?_, ?_, fun t hk => ?_⟩
    · have hrow : s.here :: s.advance.here :: us = [s.here, s.advance.here] ++ us := rfl
      rw [hrow, Stream.behind_append, ← hus, hs.behind_two hname hassign]
    · exact List.forall_mem_cons.2 ⟨hname, List.forall_mem_cons.2 ⟨hassign, hne⟩⟩
    · obtain ⟨-, hrun⟩ := hlocal hk.loose
      have hahead : AssignsAhead n (t.behind (s.here :: s.advance.here :: us)) :=
        ⟨hn, by rwa [Stream.next_behind_cons]⟩
      refine ⟨Seam.Joins.of_firm rfl, ?_⟩
      rw [hassigns n _ hahead, Stream.advance_behind_cons, Stream.advance_behind_cons, hrun,
        Outcome.map_ok]
  · replace h := not_exists.1 h
    rw [hplain s rfl h] at hr
    obtain ⟨e, he, rfl⟩ := Outcome.map_eq_ok.1 hr
    obtain ⟨us, rfl, hne, hlocal⟩ := hv hs he
    refine ⟨us, rfl, hne, fun t hk => ?_⟩
    obtain ⟨hfirm, hrun⟩ := hlocal hk.loose
    refine ⟨hfirm.of_firm, ?_⟩
    rw [hplain _ hfirm.token_eq, hrun, Outcome.map_ok]
    rintro n ⟨hn, ha⟩
    have hcons := ne_nil_of_proceeds hp fun t (ht : Seam.firm.Joins s' t) => (hlocal ht.loose).2
    obtain ⟨u, us, rfl⟩ := List.exists_cons_of_ne_nil hcons
    refine h n ⟨hn, ?_⟩
    rw [Stream.next_behind_cons] at ha ⊢
    cases us with
    | nil =>
      by_contra hne
      exact hk.token_ne (by simp) hne ha
    | cons v us => exact ha

section Values

variable {value : Reader Expr} (hv : Local .firm .loose value) (hp : value.Proceeds)

include hv hp

theorem local_argument : Local .firm .loose (argument value) := by
  refine fun s hs => localAt_of_assigns (f := .named) (g := .positional) hv hp hs ?_ ?_
  · rintro n t ⟨hn, ha⟩
    simp [argument_run, hn, ha]
  · intro t _ h
    rw [argument_run]
    split
    · next n hn ha => exact absurd ⟨hn, ha⟩ (h n)
    · rfl

theorem local_arguments : Local .firm .loose (arguments value) := by
  have hround : Local .firm .firm (argumentRound value) := by
    refine .ifPeek (by simp) (fun _ _ _ => .pure _) ?_
    exact (local_argument hv hp).bind fun _ =>
      .ifEat (by simp) (by simp) (local_pure _) (local_pure _)
  rw [arguments_eq]
  exact (local_symbol _).bind fun _ => hround.many.bind fun _ => (local_symbol _).bind fun _ =>
    local_pure _

/-- Arguments that may be missing. -/
theorem local_optionalArguments {α : Type} (f : List Argument → α) {q : Reader α}
    (hq : Local .loose .loose q) :
    Local .loose .loose (do
      if (← peek) = .symbol .leftParen then return f (← arguments value) else q : Reader α) :=
  .ifPeek (by simp) (fun _ hs _ => ((local_arguments hv hp).bind fun _ => local_pure _) hs) hq

theorem local_nameOrCall : Local .firm .loose (nameOrCall value) := by
  refine local_path.bind fun p => local_optionalArguments hv hp _ ?_
  split <;> exact local_pure _

theorem local_activityReference : Local .firm .loose (activityReference value) :=
  local_path.bind fun _ => local_optionalArguments hv hp _ (local_pure _)

end Values

/-- The unit at the current place, if it stands on the line. -/
def unitOn (line : Nat) (s : Stream) : Option UnitTag :=
  match s.token with
  | .unit u => (if s.line = line then Quantity.ofUnit? u else none).map (⟨u, ·⟩)
  | _ => none

theorem number_eq (lexeme : String) :
    number lexeme s =
      match unitOn s.line s.advance with
      | some u => .ok (.measure (.ofLexeme lexeme) u) s.advance.advance
      | none => .ok (.number (.ofLexeme lexeme)) s.advance := by
  rw [number_run, unitOn]
  cases s.advance.token with
  | unit u =>
    dsimp only
    cases if s.advance.line = s.line then Quantity.ofUnit? u else none <;> rfl
  | _ => rfl

/-- Whether a unit stands behind a number can be told from what stands behind a seam. -/
theorem localAt_number (lexeme : String) (hs : s.HasEnd) (h : s.token ≠ .eof) :
    LocalAt .firm .loose (number lexeme) s := by
  intro e s' hr
  rw [number_eq] at hr
  cases hu : unitOn s.line s.advance with
  | some u =>
    have hne : s.advance.token ≠ .eof := fun he => by simp [unitOn, he] at hu
    rw [hu] at hr
    obtain ⟨rfl, rfl⟩ := Outcome.ok.inj hr
    refine ⟨[s.here, s.advance.here], (hs.behind_two h hne).symm,
      List.forall_mem_cons.2 ⟨h, List.forall_mem_singleton.2 hne⟩, fun t _ => ?_⟩
    have hunit : unitOn s.here.line (t.behind [s.advance.here]) = some u := hu
    refine ⟨rfl, ?_⟩
    rw [number_eq, Stream.advance_behind_cons, Stream.line_behind_cons, hunit]
    rfl
  | none =>
    rw [hu] at hr
    obtain ⟨rfl, rfl⟩ := Outcome.ok.inj hr
    refine ⟨[s.here], (hs.behind_here h).symm, List.forall_mem_singleton.2 h, fun t hk => ?_⟩
    have hunit : unitOn s.here.line t = none := by
      obtain hk | hk := hk
      · have htoken : t.token = s.advance.token := Seam.Joins.token_eq hk
        have hline : t.line = s.advance.line := congrArg Located.line hk
        rwa [unitOn, htoken, hline]
      · rw [unitOn, hk]
    refine ⟨rfl, ?_⟩
    rw [number_eq, Stream.advance_behind_cons, Stream.behind_nil, Stream.line_behind_cons, hunit]

theorem local_primary {inside : Reader Expr} (hi : Local .firm .loose inside)
    (hp : inside.Proceeds) : Local .firm .loose (primary inside) := by
  refine fun s hs => .peek ?_
  split
  · next x hx => exact localAt_number x hs (by simp [hx])
  · next hx => exact .skip hs (by simp [hx]) (.pure _)
  · next hx => exact .skip hs (by simp [hx]) (.pure _)
  · next hx =>
    have hne : s.token ≠ .eof := by simp [hx]
    exact .skip hs hne
      ((hi.bind fun _ => (local_symbol _).bind fun _ => local_pure _) (hs.advance hne))
  · exact local_nameOrCall hi hp hs
  · exact .failAt _
  · exact .failAt _

theorem local_operand {behind inside : Reader Expr} (hb : Local .firm .loose behind)
    (hi : Local .firm .loose inside) (hp : inside.Proceeds) :
    Local .firm .loose (operand behind inside) := by
  refine fun s hs => .peek ?_
  split
  · next op hop =>
    have hne : s.token ≠ .eof := fun h => by simp [h, UnaryOp.ofToken?] at hop
    exact .skip hs hne ((hb.bind fun _ => local_pure _) (hs.advance hne))
  · exact local_primary hi hp hs

/-- Whether an operator follows can be told behind any seam. -/
theorem local_operation (floor : Nat) {right : Nat → Reader Expr}
    (h : ∀ n, Local .firm .loose (right n)) : Local .loose .loose (operation floor right) := by
  intro s hs
  by_cases hgo : ∃ op, BinaryOp.ofToken? s.token = some op ∧ floor ≤ op.precedence
  · obtain ⟨op, hop, hle⟩ := hgo
    have hne : s.token ≠ .eof := fun h => by simp [h, BinaryOp.ofToken?] at hop
    refine .peek ?_
    simp only [hop, Nat.not_lt.2 hle, if_false]
    exact .skip hs hne (((h _).bind fun _ => local_pure _) (hs.advance hne))
  · have hstop : ∀ t : Stream, Seam.loose.Joins s t → operation floor right t = .ok .stop t := by
      intro t hk
      rw [operation_run]
      split
      · next op hop =>
        obtain hk | hk := hk
        · rw [Seam.Joins.token_eq hk] at hop
          exact if_pos (Nat.lt_of_not_le fun hle => hgo ⟨op, hop, hle⟩)
        · rw [hk] at hop
          cases hop
      · rfl
    intro t s' hr
    rw [hstop s (.inl rfl)] at hr
    obtain ⟨rfl, rfl⟩ := Outcome.ok.inj hr
    exact ⟨[], rfl, by simp, fun t hk => ⟨hk, hstop t hk⟩⟩

theorem local_climb (floor : Nat) {first : Reader Expr} {right : Nat → Reader Expr}
    (hf : Local .firm .loose first) (hr : ∀ n, Local .firm .loose (right n)) :
    Local .firm .loose (climb floor first right) :=
  hf.bind fun _ => (local_operation floor hr).many.bind fun _ => local_pure _

mutual

theorem local_binaryAt : ∀ room floor : Nat, Local .firm .loose (binaryAt room floor)
  | 0, _ => local_failAt _
  | room + 1, floor =>
    local_climb floor
      (local_operand (local_unaryAt room) (local_binaryAt room 1) (proceeds_binaryAt room 1))
      (local_binaryAt room)

theorem local_unaryAt : ∀ room : Nat, Local .firm .loose (unaryAt room)
  | 0 => local_failAt _
  | room + 1 =>
    local_operand (local_unaryAt room) (local_binaryAt room 1) (proceeds_binaryAt room 1)

end

/-- An expression is read in the same way before a semicolon. -/
theorem local_expression (room : Nat) : Local .firm .loose (expression room) :=
  local_binaryAt room 1

/-! ## Statements without blocks -/

variable {room : Nat}

theorem local_reference (room : Nat) :
    Local .firm .loose (activityReference (expression room)) :=
  local_activityReference (local_expression room) (proceeds_expression room)

theorem localAt_initiate (line : Nat) (hs : s.HasEnd) (h : s.token ≠ .eof) :
    LocalAt .firm .loose (initiate (expression room) line) s := by
  refine .skip (k := .firm) hs h (Local.ifEat (i := .firm) (by simp) (by simp) ?_ ?_ (hs.advance h))
  · exact (local_keyword _).bind fun _ => (local_reference room).bind fun _ => local_pure _
  · exact (local_reference room).bind fun _ => local_pure _

/-- An activity and a condition behind `confirm` are told apart by the token behind the
activity, which may be a semicolon in place of another that is no operator. -/
theorem local_confirmOperand (line : Nat) :
    Local .firm .loose (confirmOperand (expression room) line) := by
  intro s hs st s' hr
  obtain ⟨p, as, rfl, hop, href⟩ | ⟨c, rfl, hact, hc⟩ := confirmOperand_cases hr
  · obtain ⟨us, hus, hne, hlocal⟩ := local_reference room hs href
    refine ⟨us, hus, hne, fun t hk => ?_⟩
    obtain ⟨hj, hrun⟩ := hlocal hk
    refine ⟨hj, confirmOperand_of_reference ?_ hrun⟩
    obtain hk | hk := hk
    · rwa [Seam.Joins.token_eq hk]
    · rw [hk]
      rfl
  · obtain ⟨us, hus, hne, hlocal⟩ := local_expression room hs hc
    refine ⟨us, hus, hne, fun t hk => ?_⟩
    obtain ⟨hj, hrun⟩ := hlocal hk
    exact ⟨hj, confirmOperand_of_expression hrun hact⟩

theorem localAt_confirm (line : Nat) (hs : s.HasEnd) (h : s.token ≠ .eof) :
    LocalAt .firm .loose (confirm (expression room) line) s :=
  .skip hs h (local_confirmOperand line (hs.advance h))

theorem localAt_wait (line : Nat) (hs : s.HasEnd) (h : s.token ≠ .eof) :
    LocalAt .firm .loose (wait (expression room) line) s :=
  .skip hs h (((local_keyword _).bind fun _ => (local_expression room).bind fun _ =>
    local_pure _) (hs.advance h))

theorem local_plainStatement (line : Nat) :
    Local .firm .loose (plainStatement (expression room) line) := by
  intro s hs
  by_cases hk : ∃ y, s.token = .keyword y ∧ y ≠ .not
  · obtain ⟨y, hy, hne⟩ := hk
    intro st s' hr
    rw [plainStatement_run] at hr
    split at hr <;> simp_all
  · refine localAt_of_assigns (f := fun n v => .assign n v line) (g := fun v => .expr v line)
      (local_expression room) (proceeds_expression room) hs ?_ ?_
    · rintro n t ⟨hn, ha⟩
      simp [plainStatement_run, hn, ha]
    · intro t ht h
      rw [plainStatement_run]
      split
      · next n hn ha => exact absurd ⟨hn, ha⟩ (h n)
      · rfl
      · next y hnot hy => exact absurd ⟨y, ht.symm.trans hy, hnot⟩ hk
      · rfl

/-! ## Types -/

theorem local_namedType : Local .firm .loose namedType := by
  refine local_path.bind (i := .loose) fun p => ?_
  split
  · split <;> exact local_pure _
  · exact local_pure _

theorem local_arraySize : Local .firm .loose arraySize := by
  refine fun s hs => .peek ?_
  split
  · next x hx =>
    split
    · exact .skip hs (by simp [hx]) (.pure _)
    · exact .failAt _
  · exact .failAt _

section Types

variable {inner : Reader TypeExpr} (hi : Local .firm .loose inner)

include hi

theorem local_arrayType : Local .firm .loose (arrayType inner) :=
  (local_symbol _).bind fun _ => hi.bind fun _ => (local_symbol _).bind fun _ =>
    local_arraySize.bind fun _ => (local_symbol _).bind fun _ => local_pure _

theorem local_structType : Local .firm .loose (structType inner) := by
  have hfield : Local .firm .loose (field inner) :=
    (local_member _).bind fun _ => (local_symbol _).bind fun _ => hi.bind fun _ => local_pure _
  have hround : Local .firm .firm (fieldRound inner) :=
    .ifPeek (by simp) (fun _ _ _ => .pure _) <| hfield.bind fun _ =>
      .ifEat (by simp) (by simp) (local_pure _) (local_pure _)
  rw [structType_eq]
  exact (local_keyword _).bind fun _ => (local_symbol _).bind fun _ => hround.many.bind fun _ =>
    (local_symbol _).bind fun _ => local_pure _

theorem local_typeOf : Local .firm .loose (typeOf inner) := by
  refine fun s hs => .peek ?_
  split
  · exact local_structType hi hs
  · exact local_arrayType hi hs
  · exact local_namedType hs
  · exact .failAt _

end Types

theorem local_typeAt (room : Nat) : Local .firm .loose (typeAt room) := by
  induction room with
  | zero => exact local_failAt _
  | succ room ih => exact local_typeOf ih

theorem localAt_typeDeclaration (room : Nat) (hs : s.HasEnd) (h : s.token ≠ .eof) :
    LocalAt .firm .loose (typeDeclaration (typeAt room)) s := by
  refine .here (.skip (k := .firm) hs h ?_)
  refine ((local_name _).bind fun _ => (local_typeOf (local_typeAt room)).bind (i := .loose)
    fun t => ?_) (hs.advance h)
  cases t with
  | named p => exact local_failAt _
  | _ => exact local_pure _

end Grammar

end OpsLang
