import Mathlib.Data.List.Forall2
import OpsLang.Proofs.Termination

/-!
# Rows with skipped tokens

A row is taken apart into pieces, each a token that is kept or some tokens that are skipped
(`Piece`), and mended by a semicolon in the place of every skipped piece (`Piece.Mended`).

`Reader.Mends` compares two readers : what the first reads from a row, skipping some of its
tokens, the second reads from the mended row. What follows on a piece may be skipped too, and
then a reader that looks one token ahead sees a semicolon there. A `Seam` says how the mended
row may go on : with the token that was there (`Seam.firm`), or else with a semicolon
(`Seam.loose`). A reader has one seam before it and one behind it, and the seams have to fit
where one reader follows another (`Mends.bind`).
-/

namespace OpsLang

/-! ## Pieces -/

/-- A piece of a row : a token that is kept, or tokens that are skipped. -/
inductive Piece where
  | kept (t : Located)
  | skipped (t : Located) (ts : List Located)

namespace Piece

/-- The tokens of the piece. -/
def tokens : Piece → List Located
  | kept t => [t]
  | skipped t ts => t :: ts

/-- The row that the pieces make up. -/
def row (ps : List Piece) : List Located :=
  ps.flatMap tokens

/-- The token stands for the piece in a mended row : it is the token that is kept, or a
semicolon with any span. -/
def MendedBy : Piece → Located → Prop
  | kept t, u => u = t
  | skipped _ _, u => u.token = .symbol .semicolon

/-- The row is that of the pieces, with a semicolon for each that is skipped. -/
def Mended (ps : List Piece) (us : List Located) : Prop :=
  List.Forall₂ MendedBy ps us

variable {p : Piece} {ps qs : List Piece} {us vs : List Located}

@[simp]
theorem row_nil : row [] = [] := rfl

@[simp]
theorem row_cons : row (p :: ps) = p.tokens ++ row ps := rfl

@[simp]
theorem row_append : row (ps ++ qs) = row ps ++ row qs :=
  List.flatMap_append

@[simp]
theorem row_map_kept : row (us.map kept) = us := by
  induction us with
  | nil => rfl
  | cons u us ih => simp [ih, tokens]

theorem mended_cons :
    Mended (p :: ps) us ↔ ∃ v vs, p.MendedBy v ∧ Mended ps vs ∧ us = v :: vs :=
  List.forall₂_cons_left_iff

theorem mended_kept_cons {t : Located} :
    Mended (kept t :: ps) us ↔ ∃ vs, Mended ps vs ∧ us = t :: vs := by
  simp [mended_cons, MendedBy]

theorem mended_skipped_cons {t : Located} {ts : List Located} :
    Mended (skipped t ts :: ps) us ↔
      ∃ v vs, v.token = .symbol .semicolon ∧ Mended ps vs ∧ us = v :: vs :=
  mended_cons

theorem mended_append :
    Mended (ps ++ qs) us ↔ ∃ vs ws, Mended ps vs ∧ Mended qs ws ∧ us = vs ++ ws := by
  induction ps generalizing us with
  | nil => simp [Mended]
  | cons p ps ih =>
    simp only [List.cons_append, mended_cons, ih]
    constructor
    · rintro ⟨v, _, hv, ⟨vs, ws, hvs, hws, rfl⟩, rfl⟩
      exact ⟨v :: vs, ws, ⟨v, vs, hv, hvs, rfl⟩, hws, rfl⟩
    · rintro ⟨_, ws, ⟨v, vs, hv, hvs, rfl⟩, hws, rfl⟩
      exact ⟨v, vs ++ ws, hv, ⟨vs, ws, hvs, hws, rfl⟩, rfl⟩

@[simp]
theorem mended_map_kept : Mended (us.map kept) vs ↔ vs = us := by
  induction us generalizing vs with
  | nil => simp [Mended]
  | cons u us ih =>
    simp [mended_kept_cons, ih]

end Piece

/-! ## Seams -/

/-- How a mended row goes on from a place where the row that it was made from goes on. -/
inductive Seam where
  /-- With the same token. -/
  | firm
  /-- With the same token, or with a semicolon. -/
  | loose

/-- The mended row goes on with `t` where the row goes on with `s`. -/
def Seam.Joins : Seam → Stream → Stream → Prop
  | firm, s, t => t.here = s.here
  | loose, s, t => t.here = s.here ∨ t.token = .symbol .semicolon

namespace Seam

variable {j : Seam} {s t : Stream} {ps : List Piece} {us : List Located}

/-- Where rows are joined by `i` they are joined by `k`. -/
class Fits (i k : Seam) : Prop where
  joins : ∀ {s t : Stream}, i.Joins s t → k.Joins s t

instance (k : Seam) : Fits k k :=
  ⟨id⟩

instance (k : Seam) : Fits firm k where
  joins h := by
    cases k with
    | firm => exact h
    | loose => exact .inl h

theorem Joins.of_firm (h : firm.Joins s t) : j.Joins s t :=
  Fits.joins h

theorem Joins.loose (h : j.Joins s t) : loose.Joins s t := by
  cases j with
  | firm => exact .inl h
  | loose => exact h

theorem Joins.token_eq (h : firm.Joins s t) : t.token = s.token :=
  congrArg Located.token h

/-- The token ahead is the same, or it is a semicolon. -/
theorem Joins.token_ne (h : j.Joins s t) {u : Token} (hu : u ≠ .symbol .semicolon)
    (hs : s.token ≠ u) : t.token ≠ u := by
  obtain h | h := h.loose
  · rwa [Joins.token_eq h]
  · exact fun ht => hu (ht.symm.trans h)

/-- Mended pieces go on loosely from a row that does. -/
theorem Joins.behind (hm : Piece.Mended ps us) (h : Seam.loose.Joins s t) :
    Seam.loose.Joins (s.behind (Piece.row ps)) (t.behind us) := by
  cases hm with
  | nil => exact h
  | @cons p u ps us hu _ =>
    cases p with
    | kept v => exact .inl hu
    | skipped v vs => exact .inr hu

/-- Where all pieces are kept, the row goes on firmly from one that does. -/
theorem Joins.behind_kept (h : firm.Joins s t) : firm.Joins (s.behind us) (t.behind us) := by
  cases us with
  | nil => exact h
  | cons u us => rfl

end Seam

theorem Stream.Closed.behind {s : Stream} (hs : s.Closed) (us : List Located) :
    (s.behind us).Closed := by
  obtain ⟨t, ht, he⟩ := hs
  refine ⟨t, ?_, he⟩
  rw [row_behind, List.getLast?_append, ht, Option.some_or]
  rfl

/-- A stream that ends goes on behind two tokens that are not the end. -/
theorem Stream.Ends.behind_two {s : Stream} (hs : s.Ends) (h : s.token ≠ .eof)
    (h' : s.advance.token ≠ .eof) : s.advance.advance.behind [s.here, s.advance.here] = s := by
  have hrow : [s.here, s.advance.here] = [s.here] ++ [s.advance.here] := rfl
  rw [hrow, behind_append, hs.advance.behind_here h', hs.behind_here h]

/-! ## Readers of mended rows -/

namespace Reader

variable {α β : Type} {i j k l : Seam}

/-- What `r` reads from `s`, and `j` before and `k` behind it, is also what `r'` reads from
the row that it was read from, once that is mended. -/
def MendsAt (j k : Seam) (r r' : Reader α) (s : Stream) : Prop :=
  ∀ ⦃a s'⦄, r s = .ok a s' → ∃ ps, s = s'.behind (Piece.row ps) ∧
    ∀ ⦃us t⦄, Piece.Mended ps us → t.Closed → k.Joins s' t →
      j.Joins s (t.behind us) ∧ r' (t.behind us) = .ok a t

/-- What `r` reads from a stream that ends is what `r'` reads from the mended row. -/
def Mends (j k : Seam) (r r' : Reader α) : Prop :=
  ∀ ⦃s⦄, s.Ends → MendsAt j k r r' s

/-! ### At one stream -/

section At

variable {r r' : Reader α} {f f' : α → Reader β} {s : Stream}

theorem MendsAt.pure (a : α) : MendsAt j j (Pure.pure a) (Pure.pure a) s := by
  intro b s' hr
  obtain ⟨rfl, rfl⟩ := Outcome.ok.inj hr
  refine ⟨[], rfl, fun us t hus _ hj => ?_⟩
  cases hus
  exact ⟨hj, rfl⟩

theorem MendsAt.failAt (d : Stream → Diagnostic) : MendsAt j k (Reader.failAt d) r' s := by
  intro a s' hr
  cases hr

/-- One reader behind another, if the seam between them fits. -/
theorem MendsAt.bind [i.Fits k] (h : MendsAt j k r r' s)
    (hf : ∀ a s₁, r s = .ok a s₁ → s.Reaches s₁ → MendsAt i l (f a) (f' a) s₁) :
    MendsAt j l (r >>= f) (r' >>= f') s := by
  intro b s' hr
  rw [bind_run, Outcome.andThen_eq_ok] at hr
  obtain ⟨a, s₁, hr, hfa⟩ := hr
  obtain ⟨ps, hps, hmend⟩ := h hr
  obtain ⟨qs, rfl, hmend'⟩ := hf a s₁ hr ⟨_, hps⟩ hfa
  refine ⟨ps ++ qs, by rw [Piece.row_append, Stream.behind_append, hps], ?_⟩
  intro us t hus ht hl
  obtain ⟨vs, ws, hvs, hws, rfl⟩ := Piece.mended_append.1 hus
  obtain ⟨hi, hrun'⟩ := hmend' hws ht hl
  obtain ⟨hj, hrun⟩ := hmend hvs (ht.behind ws) (Seam.Fits.joins hi)
  rw [Stream.behind_append, bind_run, hrun, Outcome.andThen_ok]
  exact ⟨hj, hrun'⟩

/-- A reader that takes the one token at which it stands. -/
theorem mendsAt_take {b : α} (hs : s.Ends) (ht : s.token ≠ .eof)
    (hr : ∀ t : Stream, t.token = s.token → r t = .ok b t.advance) : MendsAt j k r r s := by
  intro a s' hrun
  rw [hr s rfl] at hrun
  obtain ⟨rfl, rfl⟩ := Outcome.ok.inj hrun
  refine ⟨[.kept s.here], (hs.behind_here ht).symm, fun us t hus _ _ => ?_⟩
  obtain ⟨_, ⟨⟩, rfl⟩ := Piece.mended_kept_cons.1 hus
  refine ⟨Seam.Joins.of_firm rfl, ?_⟩
  rw [hr (t.behind [s.here]) rfl, Stream.advance_behind_cons, Stream.behind_nil]

theorem MendsAt.skip {f f' : Unit → Reader β} (hs : s.Ends) (ht : s.token ≠ .eof)
    (h : MendsAt k l (f ()) (f' ()) s.advance) :
    MendsAt j l (Reader.skip >>= f) (Reader.skip >>= f') s := by
  refine (mendsAt_take (k := k) hs ht fun _ _ => rfl).bind (i := k) fun _ s₁ hr _ => ?_
  obtain ⟨-, rfl⟩ := Outcome.ok.inj hr
  exact h

theorem MendsAt.here {f f' : Located → Reader β}
    (h : MendsAt .firm k (f s.here) (f' s.here) s) :
    MendsAt j k (Reader.here >>= f) (Reader.here >>= f') s := by
  intro a s' hr
  obtain ⟨ps, hps, hmend⟩ := h hr
  refine ⟨ps, hps, fun us t hus ht hk => ?_⟩
  obtain ⟨hj, hrun⟩ := hmend hus ht hk
  have hhere : (t.behind us).here = s.here := hj
  exact ⟨hj.of_firm, by rw [bind_run, here_run, Outcome.andThen_ok, hhere, hrun]⟩

theorem MendsAt.peek {f f' : Token → Reader β}
    (h : MendsAt .firm k (f s.token) (f' s.token) s) :
    MendsAt j k (Reader.peek >>= f) (Reader.peek >>= f') s := by
  intro a s' hr
  obtain ⟨ps, hps, hmend⟩ := h hr
  refine ⟨ps, hps, fun us t hus ht hk => ?_⟩
  obtain ⟨hj, hrun⟩ := hmend hus ht hk
  exact ⟨hj.of_firm, by rw [bind_run, peek_run, Outcome.andThen_ok, hj.token_eq, hrun]⟩

end At

/-! ### Everywhere -/

variable {r r' q q' : Reader α} {f f' : α → Reader β}

theorem Mends.bind [i.Fits k] (h : Mends j k r r') (hf : ∀ a, Mends i l (f a) (f' a)) :
    Mends j l (r >>= f) (r' >>= f') :=
  fun _ hs => (h hs).bind fun a _ _ hreach => hf a (hreach.ends hs)

theorem mends_pure (a : α) : Mends j j (pure a) (pure a) :=
  fun _ _ => .pure a

theorem mends_failAt (d : Stream → Diagnostic) : Mends j k (failAt d) r' :=
  fun _ _ => .failAt d

theorem mends_here : Mends .firm .firm here here := by
  intro s _ a s' hr
  obtain ⟨rfl, rfl⟩ := Outcome.ok.inj hr
  refine ⟨[], rfl, fun us t hus _ hk => ?_⟩
  cases hus
  exact ⟨hk, congrArg (Outcome.ok · t) hk⟩

theorem mends_keyword (y : Keyword) : Mends .firm .loose (keyword y) (keyword y) := by
  intro s hs a s' hr
  obtain ⟨ht, -⟩ := keyword_eq_ok.1 hr
  exact mendsAt_take (b := ()) hs (by simp [ht]) (fun t h => keyword_eq_ok.2 ⟨h.trans ht, rfl⟩) hr

theorem mends_symbol (y : Symbol) : Mends .firm .loose (symbol y) (symbol y) := by
  intro s hs a s' hr
  obtain ⟨ht, -⟩ := symbol_eq_ok.1 hr
  exact mendsAt_take (b := ()) hs (by simp [ht]) (fun t h => symbol_eq_ok.2 ⟨h.trans ht, rfl⟩) hr

theorem mends_name (what : String) : Mends .firm .loose (name what) (name what) := by
  intro s hs n s' hr
  obtain ⟨ht, -⟩ := name_eq_ok.1 hr
  exact mendsAt_take hs (by simp [ht]) (fun t h => name_eq_ok.2 ⟨h.trans ht, rfl⟩) hr

/-- A token that may be missing can be told from what stands behind a seam. -/
theorem Mends.ifEat {t : Token} (he : t ≠ .eof) (ht : t ≠ .symbol .semicolon)
    (h : Mends i k r r') (h' : Mends j k q q') :
    Mends j k (do if ← eat t then r else q : Reader α) (do if ← eat t then r' else q') := by
  intro s hs
  by_cases hst : s.token = t
  · have htake : MendsAt j i (eat t) (eat t) s := mendsAt_take hs (by rwa [hst]) fun u hu => by
      rw [eat_run, if_pos (hu.trans hst)]
    refine htake.bind (i := i) fun b s₁ hr _ => ?_
    rw [eat_run, if_pos hst] at hr
    obtain ⟨rfl, rfl⟩ := Outcome.ok.inj hr
    exact h hs.advance
  · intro a s' hr
    rw [bind_run, eat_run, if_neg hst, Outcome.andThen_ok] at hr
    obtain ⟨ps, hps, hmend⟩ := h' hs hr
    refine ⟨ps, hps, fun us u hus hu hk => ?_⟩
    obtain ⟨hj, hrun⟩ := hmend hus hu hk
    refine ⟨hj, ?_⟩
    rw [bind_run, eat_run, if_neg (hj.token_ne ht hst), Outcome.andThen_ok]
    exact hrun

/-- A construct that may be missing, and begins with `t` if it is there. -/
theorem Mends.ifPeek {t : Token} (ht : t ≠ .symbol .semicolon)
    (h : ∀ ⦃s⦄, s.Ends → s.token = t → MendsAt .firm k r r' s) (h' : Mends j k q q') :
    Mends j k (do if (← peek) = t then r else q : Reader α)
      (do if (← peek) = t then r' else q') := by
  intro s hs
  by_cases hst : s.token = t
  · refine .peek ?_
    rw [if_pos hst, if_pos hst]
    exact h hs hst
  · intro a s' hr
    rw [bind_run, peek_run, Outcome.andThen_ok, if_neg hst] at hr
    obtain ⟨ps, hps, hmend⟩ := h' hs hr
    refine ⟨ps, hps, fun us u hus hu hk => ?_⟩
    obtain ⟨hj, hrun⟩ := hmend hus hu hk
    exact ⟨hj, by rw [bind_run, peek_run, Outcome.andThen_ok, if_neg (hj.token_ne ht hst), hrun]⟩

/-- A round that takes a token takes one from the mended row. -/
theorem size_lt_of_mended {s' t : Stream} {ps : List Piece} {us : List Located}
    (hm : Piece.Mended ps us) (hlt : s'.size < (s'.behind (Piece.row ps)).size) :
    t.size < (t.behind us).size := by
  cases hm with
  | nil => exact absurd hlt (Nat.lt_irrefl _)
  | cons _ _ =>
    rw [Stream.size_behind, List.length_cons]
    omega

/-- Repetitions mend rows if their rounds do, and the seam between two rounds fits. -/
theorem Mends.many [j.Fits k] {round round' : Reader (Turn α)} (h : Mends j k round round') :
    Mends j k (many round) (many round') := by
  intro s hs as s' hr
  refine many_rounds (motive := fun s as s' => s.Ends → ∃ ps, s = s'.behind (Piece.row ps) ∧
    ∀ ⦃us t⦄, Piece.Mended ps us → t.Closed → k.Joins s' t →
      j.Joins s (t.behind us) ∧ Reader.many round' (t.behind us) = .ok as t)
    ?last ?next hr hs
  case last =>
    intro s turn as s' hr hafter hs
    obtain ⟨ps, hps, hmend⟩ := h hs hr
    refine ⟨ps, hps, fun us t hus ht hk => ?_⟩
    obtain ⟨hj, hrun⟩ := hmend hus ht hk
    exact ⟨hj, by rw [many_run, hrun, Outcome.andThen_ok, hafter]⟩
  case next =>
    intro s turn g s₁ as s' hr hlt hafter ih hs
    obtain ⟨ps, rfl, hmend⟩ := h hs hr
    obtain ⟨qs, rfl, hmend'⟩ := ih hs.of_behind
    refine ⟨ps ++ qs, by rw [Piece.row_append, Stream.behind_append], fun us t hus ht hk => ?_⟩
    obtain ⟨vs, ws, hvs, hws, rfl⟩ := Piece.mended_append.1 hus
    obtain ⟨hj', hrun'⟩ := hmend' hws ht hk
    obtain ⟨hj, hrun⟩ := hmend hvs (ht.behind ws) (Seam.Fits.joins hj')
    rw [Stream.behind_append, many_run, hrun, Outcome.andThen_ok, hafter,
      if_pos (size_lt_of_mended hvs hlt), hrun']
    exact ⟨hj, rfl⟩

/-! ### Semicolons -/

theorem semicolons_behind {s : Stream} (hs : s.Closed) {us : List Located}
    (h : ∀ u ∈ us, u.token = .symbol .semicolon) : semicolons (s.behind us) = semicolons s := by
  induction us with
  | nil => rfl
  | cons u us ih =>
    obtain ⟨hu, h⟩ := List.forall_mem_cons.1 h
    have hlt : ((s.behind (u :: us)).advance).size < (s.behind (u :: us)).size :=
      (hs.behind _).size_advance_lt (by simp [hu])
    rw [Grammar.semicolons_of_eq (s := s.behind (u :: us)) hu hlt, Stream.advance_behind_cons, ih h]

/-- Semicolons can be passed over up to a token that is kept. -/
theorem mends_semicolons : Mends .firm .firm semicolons semicolons := by
  intro s hs _ s' hr
  obtain ⟨us, rfl, hall, hend⟩ := semicolons_eq_ok hs.closed hr
  refine ⟨us.map .kept, by rw [Piece.row_map_kept], fun vs t hvs ht hk => ?_⟩
  obtain rfl := Piece.mended_map_kept.1 hvs
  refine ⟨hk.behind_kept, ?_⟩
  rw [semicolons_behind ht hall, Grammar.semicolons_of_ne (by rwa [hk.token_eq])]

/-! ### Rounds that pass over semicolons -/

/-- The row between `s` and `s'` can be mended so that the repetition of `round` reads `as` from
it, whatever follows on the token of `s'`. -/
def RestMended (round : Reader (Turn α)) (s : Stream) (as : List α) (s' : Stream) : Prop :=
  ∃ ps, s = s'.behind (Piece.row ps) ∧ ∀ ⦃us t⦄, Piece.Mended ps us → t.Closed →
    Seam.firm.Joins s' t → Reader.many round (t.behind us) = .ok as t

section Rounds

variable {round : Reader (Turn α)} {s s' s₁ : Stream} {a : α} {as : List α}

theorem RestMended.stop (h : ∀ t, Seam.firm.Joins s t → round t = .ok .stop t) :
    RestMended round s [] s := by
  refine ⟨[], rfl, fun us t hus _ hk => ?_⟩
  cases hus
  exact many_stop (h t hk)

variable {g : Unit → Stream → Outcome (Turn α)}
  (hround : ∀ s, round s = (semicolons s).andThen g) (hturns : round.Turns)

include hround hturns

/-- A semicolon makes no difference to a repetition whose rounds begin by passing over
semicolons. -/
theorem many_of_semicolon (hs : s.Closed) (h : s.token = .symbol .semicolon) :
    Reader.many round s = Reader.many round s.advance := by
  have hlt := hs.size_advance_lt (by simp [h])
  have heq : round s = round s.advance := by
    rw [hround, hround, Grammar.semicolons_of_eq h hlt]
  have ht := hturns _ hs.advance
  cases hr : round s.advance with
  | ok t s' =>
    rw [hr] at ht
    cases t with
    | stop => rw [many_stop (heq.trans hr), many_stop hr]
    | pass => rw [many_pass (heq.trans hr) (Nat.lt_trans ht.2 hlt), many_pass hr ht.2]
    | item a => rw [many_item (heq.trans hr) (Nat.lt_trans ht.2 hlt), many_item hr ht.2]
    | last a => rw [many_last (heq.trans hr), many_last hr]
  | fail d s' => rw [Reader.many, Reader.many, heq, hr]
  | endless => rw [Reader.many, Reader.many, heq, hr]

theorem many_behind_semicolons (hs : s.Closed) {us : List Located}
    (h : ∀ u ∈ us, u.token = .symbol .semicolon) :
    Reader.many round (s.behind us) = Reader.many round s := by
  induction us with
  | nil => rfl
  | cons u us ih =>
    obtain ⟨hu, h⟩ := List.forall_mem_cons.1 h
    rw [many_of_semicolon (s := s.behind (u :: us)) hround hturns (hs.behind _) hu,
      Stream.advance_behind_cons, ih h]

/-- Semicolons before the rest are kept. -/
theorem RestMended.behind_semicolons {ws : List Located}
    (hws : ∀ w ∈ ws, w.token = .symbol .semicolon) (h : RestMended round s as s') :
    RestMended round (s.behind ws) as s' := by
  obtain ⟨ps, rfl, hmend⟩ := h
  refine ⟨ws.map .kept ++ ps, ?_, fun us t hus ht hk => ?_⟩
  · rw [Piece.row_append, Piece.row_map_kept, Stream.behind_append]
  · obtain ⟨_, vs, hws', hvs, rfl⟩ := Piece.mended_append.1 hus
    obtain rfl := Piece.mended_map_kept.1 hws'
    rw [Stream.behind_append, many_behind_semicolons hround hturns (ht.behind vs) hws,
      hmend hvs ht hk]

/-- Tokens before the rest are skipped as one piece. -/
theorem RestMended.behind_skipped {u : Located} {us : List Located}
    (h : RestMended round s as s') : RestMended round (s.behind (u :: us)) as s' := by
  obtain ⟨ps, rfl, hmend⟩ := h
  refine ⟨.skipped u us :: ps, ?_, fun vs t hvs ht hk => ?_⟩
  · rw [Piece.row_cons, Piece.tokens, Stream.behind_append]
  · obtain ⟨v, ws, hv, hws, rfl⟩ := Piece.mended_skipped_cons.1 hvs
    rw [many_of_semicolon (s := t.behind (v :: ws)) hround hturns (ht.behind _) hv,
      Stream.advance_behind_cons, hmend hws ht hk]

/-- A round that keeps an item, and may take the semicolon of a skipped piece behind it. -/
theorem RestMended.item {ps : List Piece} (hs : s = s₁.behind (Piece.row ps))
    (hitem : ∀ ⦃us t⦄, Piece.Mended ps us → t.Closed → Seam.loose.Joins s₁ t →
      ∃ t', round (t.behind us) = .ok (.item a) t' ∧
        (t' = t ∨ t.token = .symbol .semicolon ∧ t' = t.advance))
    (h : RestMended round s₁ as s') : RestMended round s (a :: as) s' := by
  obtain ⟨qs, rfl, hmend⟩ := h
  refine ⟨ps ++ qs, by rw [Piece.row_append, Stream.behind_append, hs], fun us t hus ht hk => ?_⟩
  obtain ⟨vs, ws, hvs, hws, rfl⟩ := Piece.mended_append.1 hus
  obtain ⟨t', hrun, ht'⟩ := hitem hvs (ht.behind ws) (hk.loose.behind hws)
  have hlt := hturns _ ((ht.behind ws).behind vs)
  rw [hrun] at hlt
  have hrest : Reader.many round t' = Reader.many round (t.behind ws) := by
    obtain rfl | ⟨hsemi, rfl⟩ := ht'
    · rfl
    · exact (many_of_semicolon hround hturns (ht.behind ws) hsemi).symm
  rw [Stream.behind_append, many_item hrun hlt.2, hrest, hmend hws ht hk, Outcome.map_ok]

end Rounds

end Reader

end OpsLang
