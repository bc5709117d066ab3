import OpsLang.Proofs.Appending.Reader
import OpsLang.Proofs.Locality
import OpsLang.Proofs.Unambiguity

/-!
# Expressions on a row with more behind it

What is read as an expression before the end of a row is read so before any stream
(`persistsAt_expression`). The readers that look two tokens ahead, for a name and `=`, are
those that can be wrong about the last token : see `persistsAt_of_assigns`.
-/

namespace OpsLang

namespace Token.Parts

variable {t : Token} (h : t.Parts)

include h

theorem ne_symbol (y : Symbol) : t ≠ .symbol y := by
  obtain rfl | rfl := h <;> exact Token.noConfusion

theorem ne_unit (u : String) : t ≠ .unit u := by
  obtain rfl | rfl := h <;> exact Token.noConfusion

theorem endsOperand : t.endsOperand = true := by
  obtain rfl | rfl := h <;> rfl

theorem unaryOp_eq_none : UnaryOp.ofToken? t = none := by
  obtain rfl | rfl := h <;> rfl

theorem binaryOp_eq_none : BinaryOp.ofToken? t = none := by
  obtain rfl | rfl := h <;> rfl

end Token.Parts

theorem Token.not_parts_symbol (y : Symbol) : ¬(Token.symbol y).Parts :=
  fun h => h.ne_symbol y rfl

namespace Grammar

open Reader

variable {e : Located} {us : List Located}

theorem assignsAhead_behind_cons {n : String} {t : Stream} {u : Located} :
    AssignsAhead n (t.behind (u :: us)) ↔
      u.token = .name n ∧ (t.behind us).token = .symbol .assign := by
  rw [AssignsAhead, Stream.token_behind_cons, Stream.next_behind_cons]

/-- A name alone is an expression, where there is room for one. -/
theorem expression_of_name {room : Nat} {s : Stream} {u : Located} {n : String}
    (hu : u.token = .name n) (hend : s.token.endsOperand = true)
    (hop : BinaryOp.ofToken? s.token = none) :
    expression (room + 1) (s.behind [u]) = .ok (.name n) s := by
  have hspells : (Expr.name n).Spells (words [u]) := congrArg (fun t => [t]) hu
  exact readsBack_expression (Expr.fits_name.2 (Nat.succ_pos room)) hspells (.singleton _) hend hop

theorem isAboutHere_strayUnit (u : String) : IsAboutHere fun s => s.strayUnit u where
  span _ := rfl
  here s s' h := by simp only [Stream.strayUnit, Stream.token, h]

section End

variable (he : e.token = .eof)

include he

/-- A name that ends the row. It is read on its own unless `=` stands behind it. -/
theorem persistsAt_of_lastName {α : Type} {r : Reader α} {room : Nat} {f : String → Expr → α}
    {g : Expr → α} {u : Located} {n : String} (hn : u.token = .name n)
    (hassigns : ∀ n t, AssignsAhead n t → r t = (expression room t.advance.advance).map (f n))
    (hplain : ∀ t : Stream, t.token = u.token → (∀ n, ¬AssignsAhead n t) →
      r t = (expression room t).map g) : r.PersistsAt e [u] := by
  have hrun : ∀ t : Stream, t.token ≠ .symbol .assign →
      r (t.behind [u]) = (expression room (t.behind [u])).map g := by
    intro t ht
    exact hplain _ rfl fun m hahead => ht (assignsAhead_behind_cons.1 hahead).2
  have heof : (⟨e, []⟩ : Stream).token = .eof := he
  unfold PersistsAt
  rw [hrun _ (by rw [heof]; exact Token.noConfusion)]
  cases room with
  | zero =>
    refine .before (List.cons_ne_nil _ _) fun t => ?_
    by_cases ht : t.token = .symbol .assign
    · refine .moved ⟨_, rfl⟩ ⟨u, rfl, ⟨n, hn⟩, rfl⟩ ht ?_
      have hahead : AssignsAhead n (t.behind [u]) := assignsAhead_behind_cons.2 ⟨hn, ht⟩
      rw [hassigns n _ hahead]
      exact ⟨_, rfl⟩
    · refine .same (s := t.behind [u]) ?_
      rw [hrun t ht]
      exact congrArg (Outcome.fail · _) (isAboutHere_tooDeep.here _ _ rfl)
  | succ room =>
    rw [expression_of_name (s := ⟨e, []⟩) hn (by rw [heof]; rfl) (by rw [heof]; rfl)]
    refine .ok_nil fun t hparts => ?_
    rw [hrun t (hparts.ne_symbol _),
      expression_of_name hn hparts.endsOperand hparts.binaryOp_eq_none]
    rfl

/-- A reader that looks two tokens ahead for a name and `=`, takes these if they are there, and
reads a value. If only the name is there, it could yet be followed by `=`. -/
theorem persistsAt_of_assigns {α : Type} {r : Reader α} {room : Nat} {f : String → Expr → α}
    {g : Expr → α} (hv : ∀ us, (expression room).PersistsAt e us)
    (hassigns : ∀ n t, AssignsAhead n t → r t = (expression room t.advance.advance).map (f n))
    (hplain : ∀ t : Stream, t.token = ((⟨e, []⟩ : Stream).behind us).token →
      (∀ n, ¬AssignsAhead n t) → r t = (expression room t).map g) :
    r.PersistsAt e us := by
  -- Where no stream can change what stands two tokens ahead.
  have hsame : us ≠ [] → (∀ t : Stream, ∀ n, ¬AssignsAhead n (t.behind us)) →
      r.PersistsAt e us := by
    intro hus hnone
    have hrun : ∀ t : Stream, r (t.behind us) = (expression room (t.behind us)).map g := by
      intro t
      refine hplain _ ?_ (hnone t)
      obtain ⟨u, us, rfl⟩ := List.exists_cons_of_ne_nil hus
      rfl
    unfold PersistsAt
    simp only [hrun]
    exact (hv us).map g
  match us with
  | [] =>
    have hend : r ⟨e, []⟩ = (expression room ⟨e, []⟩).map g :=
      hplain _ rfl fun n h => by cases he.symm.trans h.1
    unfold PersistsAt
    rw [Stream.behind_nil, hend]
    refine ((hv []).map g).of_ne_ok fun a s h => ?_
    obtain ⟨v, hrun, -⟩ := Outcome.map_eq_ok.1 h
    exact (proceeds_expression room).ne_ok he v s hrun
  | [u] =>
    by_cases h : ∃ n, u.token = .name n
    · obtain ⟨n, hn⟩ := h
      exact persistsAt_of_lastName he hn hassigns hplain
    · exact hsame (List.cons_ne_nil _ _) fun t n hahead => h ⟨n, hahead.1⟩
  | u :: v :: us =>
    by_cases h : ∃ n, u.token = .name n ∧ v.token = .symbol .assign
    · obtain ⟨n, hn, ha⟩ := h
      have hrun : ∀ t : Stream,
          r (t.behind (u :: v :: us)) = (expression room (t.behind us)).map (f n) := by
        intro t
        have hahead : AssignsAhead n (t.behind (u :: v :: us)) :=
          assignsAhead_behind_cons.2 ⟨hn, ha⟩
        rw [hassigns n _ hahead, Stream.advance_behind_cons, Stream.advance_behind_cons]
      unfold PersistsAt
      simp only [hrun]
      exact ((hv us).map (f n)).of_suffix ((List.suffix_cons v us).trans (List.suffix_cons u _))
    · exact hsame (List.cons_ne_nil _ _) fun t n hahead =>
        h ⟨n, assignsAhead_behind_cons.1 hahead⟩

theorem persistsAt_path : path.PersistsAt e us := by
  rw [path_eq]
  refine (persistsAt_name he _).bind fun _ _ _ =>
    PersistsAt.bind (.many fun _ _ => ?_) fun _ _ _ => .pure _
  exact (persistsAt_eat he (by simp) (Token.not_parts_symbol _)).bind fun _ _ _ =>
    .ite (fun _ => (persistsAt_member he _).bind fun _ _ _ => .pure _) fun _ => .pure _

section Values

variable {room : Nat} (hv : ∀ us, (expression room).PersistsAt e us)

include hv

theorem persistsAt_argument : (argument (expression room)).PersistsAt e us := by
  refine persistsAt_of_assigns he (f := .named) (g := .positional) hv ?_ ?_
  · rintro n t ⟨hn, ha⟩
    simp [argument_run, hn, ha]
  · intro t _ h
    rw [argument_run]
    split
    · next n hn ha => exact absurd ⟨hn, ha⟩ (h n)
    · rfl

theorem persistsAt_arguments : (arguments (expression room)).PersistsAt e us := by
  rw [arguments_eq]
  refine (persistsAt_symbol he _).bind fun _ _ _ => PersistsAt.bind (.many fun _ _ => ?_)
    fun _ _ _ => (persistsAt_symbol he _).bind fun _ _ _ => .pure _
  refine .peek (fun _ t ht => ?_) (.ite (fun _ => .pure _) fun _ => ?_)
  · simp [ht.ne_symbol, he]
  · exact (persistsAt_argument he hv).bind fun _ _ _ =>
      (persistsAt_eat he (by simp) (Token.not_parts_symbol _)).bind fun _ _ _ =>
        .ite (fun _ => .pure _) fun _ => .pure _

theorem persistsAt_nameOrCall : (nameOrCall (expression room)).PersistsAt e us := by
  refine (persistsAt_path he).bind fun p vs _ => .peek (fun _ t ht => ?_) (.ite ?_ fun _ => ?_)
  · simp [ht.ne_symbol, he]
  · exact fun _ => (persistsAt_arguments he hv).bind fun _ _ _ => .pure _
  · split <;> exact .pure _

end Values

theorem persistsAt_number {u : Located} (lexeme : String) :
    (number lexeme).PersistsAt e (u :: us) := by
  unfold PersistsAt
  simp only [number_run, Stream.advance_behind_cons]
  cases us with
  | nil =>
    have heof : (⟨e, []⟩ : Stream).token = .eof := he
    rw [Stream.behind_nil, heof]
    refine .ok_nil fun t ht => ?_
    rw [Stream.behind_nil]
    split
    · next x hx => exact absurd hx (ht.ne_unit x)
    · rfl
  | cons v us =>
    simp only [Stream.token_behind_cons, Stream.line_behind_cons, Stream.advance_behind_cons]
    cases v.token with
    | unit x =>
      by_cases hline : v.line = u.line
      · simp only [hline, if_true]
        cases Quantity.ofUnit? x with
        | some q =>
          exact .ok ((List.suffix_cons v us).trans (List.suffix_cons u _)) fun _ _ => rfl
        | none => exact .ok (List.suffix_cons u _) fun _ _ => rfl
      · simp only [hline, if_false]
        exact .ok (List.suffix_cons u _) fun _ _ => rfl
    | _ => exact .ok (List.suffix_cons u _) fun _ _ => rfl

section Operands

variable {room : Nat} (hb : ∀ us, (unaryAt room).PersistsAt e us)
  (hv : ∀ us, (expression room).PersistsAt e us)

include hv

theorem persistsAt_primary : (primary (expression room)).PersistsAt e us := by
  refine .peek_ne_ok (fun a s h => ?_) ?_
  · rw [he] at h
    cases h
  cases us with
  | nil =>
    rw [Stream.behind_nil, Stream.token, he]
    exact .refuse _
  | cons u us =>
    split
    · exact persistsAt_number he _
    · exact PersistsAt.skip.bind fun _ _ _ => .pure _
    · exact PersistsAt.skip.bind fun _ _ _ => .pure _
    · exact PersistsAt.skip.bind fun _ _ _ => (hv _).bind fun _ _ _ =>
        (persistsAt_symbol he _).bind fun _ _ _ => .pure _
    · exact persistsAt_nameOrCall he hv
    · exact .failAt (isAboutHere_strayUnit _)
    · exact .refuse _

include hb

theorem persistsAt_operand : (operand (unaryAt room) (expression room)).PersistsAt e us := by
  refine .peek (fun _ t ht => ?_) ?_
  · rw [ht.unaryOp_eq_none, he]
    rfl
  cases us with
  | nil =>
    rw [Stream.behind_nil, Stream.token, he]
    exact persistsAt_primary he hv
  | cons u us =>
    split
    · exact PersistsAt.skip.bind fun _ _ _ => (hb _).bind fun _ _ _ => .pure _
    · exact persistsAt_primary he hv

end Operands

theorem persistsAt_operation {floor : Nat} {right : Nat → Reader Expr}
    (h : ∀ n us, (right n).PersistsAt e us) : (operation floor right).PersistsAt e us := by
  refine .peek (fun _ t ht => ?_) ?_
  · rw [ht.binaryOp_eq_none, he]
    rfl
  cases us with
  | nil =>
    rw [Stream.behind_nil, Stream.token, he]
    exact .pure _
  | cons u us =>
    split
    · exact .ite (fun _ => .pure _) fun _ => PersistsAt.skip.bind fun _ _ _ =>
        (h _ _).bind fun _ _ _ => .pure _
    · exact .pure _

theorem persistsAt_climb {floor : Nat} {first : Reader Expr} {right : Nat → Reader Expr}
    (hf : ∀ us, first.PersistsAt e us) (hr : ∀ n us, (right n).PersistsAt e us) :
    (climb floor first right).PersistsAt e us :=
  (hf us).bind fun _ _ _ => PersistsAt.bind (.many fun _ _ => persistsAt_operation he hr)
    fun _ _ _ => .pure _

mutual

theorem persistsAt_binaryAt : ∀ (room floor : Nat) (us : List Located),
    (binaryAt room floor).PersistsAt e us
  | 0, _, _ => .tooDeep
  | room + 1, _, _ => persistsAt_climb he
      (fun _ => persistsAt_operand he (persistsAt_unaryAt room) (persistsAt_binaryAt room 1))
      (persistsAt_binaryAt room)

theorem persistsAt_unaryAt : ∀ (room : Nat) (us : List Located), (unaryAt room).PersistsAt e us
  | 0, _ => .tooDeep
  | room + 1, _ => persistsAt_operand he (persistsAt_unaryAt room) (persistsAt_binaryAt room 1)

end

/-- What is read as an expression before the end of a row is read so before any stream. -/
theorem persistsAt_expression (room : Nat) (us : List Located) :
    (expression room).PersistsAt e us :=
  persistsAt_binaryAt he room 1 us

end End

end Grammar

end OpsLang
