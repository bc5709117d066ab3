import OpsLang.Proofs.Locality

/-!
# Rows with more semicolons

Blocks, namespaces and files are rows of parts that are read in rounds, and each round begins by
passing over semicolons. `RowPadded` relates two such rows : the parts are padded one by one, and
between them, before the first and behind the last, there may be more semicolons in the second row
than in the first (`Loosened`).

Whoever reads such a row has divided it into the same parts, since where a part ends is told by its
tokens and the one behind them (`LocalAt.exact`). So the rounds that read the parts from the first
row read them from the second as well (`many_padded`).
-/

namespace OpsLang

namespace Stream

/-! ## Rows cut short -/

/-- The stream that ends behind the current token. -/
def closing (s : Stream) : Stream :=
  ⟨s.here, if s.token = .eof then [] else [⟨.eof, s.here.span⟩]⟩

variable {s s' : Stream} {us vs : List Located}

theorem ends_closing : s.closing.Ends := by
  unfold closing Ends row
  split
  · next h => exact h
  · next h => exact ⟨h, rfl⟩

theorem Ends.behind (hs : s.Ends) : ∀ {us : List Located}, (∀ u ∈ us, u.token ≠ .eof) →
    (s.behind us).Ends
  | [], _ => hs
  | u :: us, h => by
    have hrest : (s.behind us).Ends := hs.behind (List.forall_mem_cons.1 h).2
    have hrow : (s.behind (u :: us)).row = u :: (s.behind us).row := by
      rw [row_behind, row_behind, List.cons_append]
    unfold Ends
    rw [hrow]
    exact ⟨(List.forall_mem_cons.1 h).1, hrest⟩

theorem behind_injective (h : s.behind us = s'.behind vs) (hlen : us.length = vs.length) :
    us = vs ∧ s = s' := by
  have hrow := congrArg row h
  rw [row_behind, row_behind] at hrow
  obtain ⟨rfl, hrest⟩ := List.append_inj hrow hlen
  obtain ⟨hhere, hahead⟩ := List.cons.inj hrest
  obtain ⟨t, ts⟩ := s
  obtain ⟨t', ts'⟩ := s'
  subst hhere hahead
  exact ⟨rfl, rfl⟩

/-! ## Rows between streams -/

/-- The row stands between the streams, and the text does not end in it. -/
def Splits (s : Stream) (us : List Located) (s' : Stream) : Prop :=
  s = s'.behind us ∧ ∀ u ∈ us, u.token ≠ .eof

namespace Splits

variable {s'' : Stream}

theorem nil : s.Splits [] s :=
  ⟨rfl, by simp⟩

theorem hasEnd (h : s.Splits us s') (hs : s.HasEnd) : s'.HasEnd :=
  (h.1 ▸ hs).of_behind h.2

theorem append (h : s.Splits us s') (h' : s'.Splits vs s'') : s.Splits (us ++ vs) s'' :=
  ⟨by rw [behind_append, ← h'.1, ← h.1], List.forall_mem_append.2 ⟨h.2, h'.2⟩⟩

end Splits

theorem HasEnd.splits_here (hs : s.HasEnd) (h : s.token ≠ .eof) : s.Splits [s.here] s.advance :=
  ⟨(hs.behind_here h).symm, List.forall_mem_singleton.2 h⟩

theorem Splits.cons (hs : s.HasEnd) (h : s.token ≠ .eof) (h' : s.advance.Splits us s') :
    s.Splits (s.here :: us) s' :=
  (hs.splits_here h).append h'

end Stream

namespace Reader

variable {α : Type} {k : Seam}

/-- What is read is in a relation to its tokens if it is when it is read from a row that ends
behind them. -/
theorem LocalAt.divides {r : Reader α} {P : Token → α → List Token → Prop} {s s' : Stream} {a : α}
    (h : LocalAt .firm k r s)
    (htakes : ∀ ⦃x x'⦄, x.Ends → x.token = s.token → r x = .ok a x' →
      ∃ us, x = x'.behind us ∧ P x'.token a (words us))
    (hr : r s = .ok a s') :
    ∃ us, s.Splits us s' ∧ P s'.token a (words us) ∧
      ∀ ⦃t⦄, k.Joins s' t → r (t.behind us) = .ok a t := by
  obtain ⟨us, hus, hne, hlocal⟩ := h hr
  obtain ⟨hfirm, hrun⟩ := hlocal (t := s'.closing) (Seam.Joins.of_firm rfl)
  obtain ⟨vs, hvs, hP⟩ := htakes (Stream.ends_closing.behind hne) hfirm.token_eq hrun
  have hlen : us.length = vs.length := by
    have hsize := congrArg Stream.size hvs
    rw [Stream.size_behind, Stream.size_behind] at hsize
    exact Nat.add_right_cancel hsize
  obtain ⟨rfl, -⟩ := Stream.behind_injective hvs hlen
  exact ⟨us, ⟨hus, hne⟩, hP, fun t hk => (hlocal hk).2⟩

/-- If `a` is read from a row that begins with `ts`, then exactly `ts` is taken for it, and it is
read from `us` before any row that goes on behind the seam. -/
def PadsAt (k : Seam) (r : Reader α) (a : α) (ts us : List Located) (x : Stream) : Prop :=
  ∀ ⦃s'⦄, r (x.behind ts) = .ok a s' → s' = x ∧ ∀ ⦃t⦄, k.Joins x t → r (t.behind us) = .ok a t

/-- If the tokens `ts` are those of the value that is read from them, exactly they are taken
for it. -/
theorem LocalAt.exact {r : Reader α} {P : Token → α → List Token → Prop} {x : Stream}
    {ts : List Located} {a : α} (h : LocalAt .firm k r (x.behind ts))
    (htakes : ∀ ⦃s s'⦄, s.Ends → s.token = (x.behind ts).token → r s = .ok a s' →
      ∃ us, s = s'.behind us ∧ P s'.token a (words us))
    (hP : ∀ ⦃t t' us vs xs ys⦄, P t a us → P t' a vs → us ++ t :: xs = vs ++ t' :: ys → us = vs)
    (hts : P x.token a (words ts)) : PadsAt k r a ts ts x := by
  intro s' hr
  obtain ⟨us, ⟨hus, -⟩, hspells, hlocal⟩ := h.divides htakes hr
  have hrow := congrArg Stream.row hus
  rw [Stream.row_behind, Stream.row_behind] at hrow
  have happend : words ts ++ words x.row = words us ++ words s'.row := by
    rw [← words_append, hrow, words_append]
  have hwords : words ts = words us := hP hts hspells happend
  have hlength : ts.length = us.length := by
    simpa [words] using congrArg List.length hwords
  obtain ⟨rfl, rfl⟩ := Stream.behind_injective hus hlength
  exact ⟨rfl, hlocal⟩

end Reader

/-! ## Semicolons -/

/-- The row `us` is the row `ss` of semicolons, or one with more of them. -/
def Loosened (ss us : List Located) : Prop :=
  ss.Sublist us ∧ ∀ u ∈ us, u.token = .symbol .semicolon

namespace Loosened

variable {ss us : List Located}

theorem left (h : Loosened ss us) : ∀ s ∈ ss, s.token = .symbol .semicolon :=
  fun s hs => h.2 s (h.1.subset hs)

theorem tail (h : Loosened ss us) : Loosened ss.tail us.tail :=
  ⟨h.1.tail, fun u hu => h.2 u (List.mem_of_mem_tail hu)⟩

end Loosened

namespace Grammar

open Reader

/-- Semicolons are passed over up to a token that is none. -/
theorem semicolons_behind_of_ne {s : Stream} (hs : s.token ≠ .symbol .semicolon) :
    ∀ {us : List Located}, (∀ u ∈ us, u.token = .symbol .semicolon) →
      semicolons (s.behind us) = .ok () s
  | [], _ => semicolons_of_ne hs
  | u :: us, h => by
    obtain ⟨hu, hus⟩ := List.forall_mem_cons.1 h
    have hlt : (s.behind (u :: us)).advance.size < (s.behind (u :: us)).size := by
      rw [Stream.advance_behind_cons, Stream.size_behind, Stream.size_behind, List.length_cons]
      omega
    rw [semicolons_of_eq (s := s.behind (u :: us)) hu hlt, Stream.advance_behind_cons]
    exact semicolons_behind_of_ne hs hus

end Grammar

/-- The stream behind a semicolon, if it stands at one. -/
def Stream.pastSemicolon (s : Stream) : Stream :=
  if s.token = .symbol .semicolon then s.advance else s

/-- The row behind its first semicolon, if it begins with one. -/
def dropSemicolon : List Located → List Located
  | [] => []
  | u :: us => if u.token = .symbol .semicolon then us else u :: us

theorem Stream.pastSemicolon_behind {s : Stream} (hs : s.token ≠ .symbol .semicolon) :
    ∀ us : List Located, (s.behind us).pastSemicolon = s.behind (dropSemicolon us)
  | [] => if_neg hs
  | u :: us => by
    simp only [pastSemicolon, dropSemicolon, token_behind_cons, advance_behind_cons]
    split <;> rfl

theorem Loosened.drop {ss us : List Located} (h : Loosened ss us) :
    Loosened (dropSemicolon ss) (dropSemicolon us) := by
  have htail : ∀ {vs : List Located}, (∀ v ∈ vs, v.token = .symbol .semicolon) →
      dropSemicolon vs = vs.tail
    | [], _ => rfl
    | v :: vs, h => if_pos (h v List.mem_cons_self)
  rw [htail h.left, htail h.2]
  exact h.tail

/-! ## Rows of parts -/

section Rows

variable {α : Type} (E : Token → α → List Located → List Located → Prop) (last : Token)

/-- The row `us` is the row `ts` of the parts, with padded parts and with semicolons put before,
between and behind them. What a part is may depend on the token behind it, which is `last` if the
row ends there. -/
def RowPadded : List α → List Located → List Located → Prop
  | [], ts, us => Loosened ts us
  | a :: as, ts, us =>
    ∃ ss ss' vs vs' ws ws', ts = ss ++ (vs ++ ws) ∧ us = ss' ++ (vs' ++ ws') ∧ Loosened ss ss' ∧
      E ((words ws).head?.getD last) a vs vs' ∧ RowPadded as ws ws'

variable {E last}

/-- Padded parts begin with the same token, which is no semicolon. -/
def PartsBegin (E : Token → α → List Located → List Located → Prop) : Prop :=
  ∀ ⦃next a vs vs'⦄, E next a vs vs' →
    ∃ v ws ws', vs = v :: ws ∧ vs' = v :: ws' ∧ v.token ≠ .symbol .semicolon

namespace RowPadded

variable {as : List α} {ts us : List Located} {x t : Stream}

/-- A padded row goes on in the same way, or with a semicolon. -/
theorem joins (hE : PartsBegin E) (h : RowPadded E last as ts us) (ht : Seam.firm.Joins x t) :
    Seam.loose.Joins (x.behind ts) (t.behind us) := by
  have hsemi : ∀ {ss us : List Located} (vs ws : List Located), Loosened ss us →
      Seam.loose.Joins (x.behind vs) (t.behind ws) →
        Seam.loose.Joins (x.behind (ss ++ vs)) (t.behind (us ++ ws)) := by
    intro ss us vs ws hss hj
    cases us with
    | nil =>
      obtain rfl := List.sublist_nil.1 hss.1
      exact hj
    | cons u us => exact .inr (hss.2 u List.mem_cons_self)
  cases as with
  | nil => simpa using hsemi [] [] h ht.loose
  | cons a as =>
    obtain ⟨ss, ss', vs, vs', ws, ws', rfl, rfl, hss, ha, -⟩ := h
    obtain ⟨v, vs, vs', rfl, rfl, -⟩ := hE ha
    exact hsemi _ _ hss (.inl rfl)

theorem drop (hE : PartsBegin E) (h : RowPadded E last as ts us) :
    RowPadded E last as (dropSemicolon ts) (dropSemicolon us) := by
  cases as with
  | nil => exact Loosened.drop h
  | cons a as =>
    obtain ⟨ss, ss', vs, vs', ws, ws', rfl, rfl, hss, ha, has⟩ := h
    have happend : ∀ {ss vs : List Located}, (∀ v ∈ vs.head?, v.token ≠ .symbol .semicolon) →
        dropSemicolon (ss ++ vs) = dropSemicolon ss ++ vs := by
      intro ss vs hvs
      cases ss with
      | nil =>
        cases vs with
        | nil => rfl
        | cons v vs => exact if_neg (hvs v rfl)
      | cons s ss =>
        simp only [List.cons_append, dropSemicolon]
        split <;> rfl
    obtain ⟨v, vs, vs', rfl, rfl, hv⟩ := hE ha
    refine ⟨dropSemicolon ss, dropSemicolon ss', _, _, ws, ws', happend (by simpa using hv),
      happend (by simpa using hv), hss.drop, ha, has⟩

end RowPadded

open Grammar Reader

/-! ## Rounds -/

/-- Behind a part, its reader may pass over a semicolon. -/
inductive Leaves : (Stream → Stream) → Prop
  | here : Leaves id
  | past : Leaves Stream.pastSemicolon

theorem Leaves.exists_row {after : Stream → Stream} (h : Leaves after) (hE : PartsBegin E)
    {as : List α} {ws ws' : List Located} (hrow : RowPadded E last as ws ws') :
    ∃ vs vs', RowPadded E last as vs vs' ∧
      (∀ x : Stream, x.token ≠ .symbol .semicolon → after (x.behind ws) = x.behind vs) ∧
        ∀ x : Stream, x.token ≠ .symbol .semicolon → after (x.behind ws') = x.behind vs' := by
  cases h with
  | here => exact ⟨ws, ws', hrow, fun _ _ => rfl, fun _ _ => rfl⟩
  | past =>
    exact ⟨_, _, hrow.drop hE, fun _ hx => Stream.pastSemicolon_behind hx ws,
      fun _ hx => Stream.pastSemicolon_behind hx ws'⟩

theorem Leaves.size_le {after : Stream → Stream} (h : Leaves after) (s : Stream) :
    (after s).size ≤ s.size := by
  cases h with
  | here => exact Nat.le_refl _
  | past =>
    unfold Stream.pastSemicolon
    split
    · exact s.size_advance_le
    · exact Nat.le_refl _

/-- Rounds that begin by passing over semicolons, and then stop or read a part. -/
structure SpacedRound (round turn : Reader (Turn α)) : Prop where
  run : ∀ s, round s = (semicolons s).andThen fun _ s' => turn s'
  turns : ∀ ⦃s t s'⦄, turn s = .ok t s' → t = .stop ∨ ∃ a, t = .item a

namespace SpacedRound

variable {round turn : Reader (Turn α)} {x s s' : Stream} {as : List α}

/-- Rounds end with one that stops, or go on behind one that reads a part. -/
theorem many_eq_ok (h : SpacedRound round turn) (hr : many round s = .ok as s') :
    ∃ s₁, semicolons s = .ok () s₁ ∧
      (as = [] ∧ turn s₁ = .ok .stop s' ∨
        ∃ a rest s₂, as = a :: rest ∧ turn s₁ = .ok (.item a) s₂ ∧
          many round s₂ = .ok rest s') := by
  obtain ⟨t, s₂, hround, hrest⟩ := many_first hr
  rw [h.run, Outcome.andThen_eq_ok] at hround
  obtain ⟨⟨⟩, s₁, hsemi, hturn⟩ := hround
  refine ⟨s₁, hsemi, ?_⟩
  obtain rfl | ⟨a, rfl⟩ := h.turns hturn
  · obtain ⟨rfl, rfl⟩ := hrest
    exact .inl ⟨rfl, hturn⟩
  · obtain ⟨rest, rfl, hrest⟩ := hrest
    exact .inr ⟨a, rest, s₂, rfl, hturn, hrest⟩

theorem many_nil (h : SpacedRound round turn) (hr : many round s = .ok [] s') :
    ∃ s₁, semicolons s = .ok () s₁ ∧ turn s₁ = .ok .stop s' := by
  obtain ⟨s₁, hsemi, ⟨-, hstop⟩ | ⟨a, rest, s₂, has, -⟩⟩ := h.many_eq_ok hr
  · exact ⟨s₁, hsemi, hstop⟩
  · cases has

theorem many_cons (h : SpacedRound round turn) {a : α} (hr : many round s = .ok (a :: as) s') :
    ∃ s₁ s₂, semicolons s = .ok () s₁ ∧ turn s₁ = .ok (.item a) s₂ ∧
      many round s₂ = .ok as s' := by
  obtain ⟨s₁, hsemi, ⟨has, -⟩ | ⟨a', rest, s₂, has, hitem, hrest⟩⟩ := h.many_eq_ok hr
  · cases has
  · obtain ⟨rfl, rfl⟩ := List.cons.inj has
    exact ⟨s₁, s₂, hsemi, hitem, hrest⟩

end SpacedRound

/-- The rounds that read the parts of a row read them from the padded row too. -/
theorem many_padded {round turn : Reader (Turn α)} (h : SpacedRound round turn)
    {after : Stream → Stream} (hafter : Leaves after) (hE : PartsBegin E)
    {x : Stream} (hx : x.token ≠ .symbol .semicolon) (hend : x.HasEnd)
    (hlast : ∀ ⦃a vs vs'⦄, E last a vs vs' → E x.token a vs vs')
    (hturn : ∀ ⦃p a vs vs' s'⦄, p.HasEnd → E p.token a vs vs' →
      turn (p.behind vs) = .ok (.item a) s' → s' = after p ∧
        ∀ ⦃q⦄, Seam.loose.Joins p q → turn (q.behind vs') = .ok (.item a) (after q)) :
    ∀ {as : List α} {ts us : List Located} {s' : Stream}, RowPadded E last as ts us →
      Reader.many round (x.behind ts) = .ok as s' →
        turn x = .ok .stop s' ∧ ∀ ⦃t t'⦄, Seam.firm.Joins x t → turn t = .ok .stop t' →
          Reader.many round (t.behind us) = .ok as t'
  | [], ts, us, s', hrow, hr => by
    obtain ⟨s₁, hsemi, hstop⟩ := h.many_nil hr
    rw [semicolons_behind_of_ne hx hrow.left] at hsemi
    obtain ⟨-, rfl⟩ := Outcome.ok.inj hsemi
    refine ⟨hstop, fun t t' ht hstop' => Reader.many_stop ?_⟩
    have htoken : t.token ≠ .symbol .semicolon := by rwa [ht.token_eq]
    rw [h.run, semicolons_behind_of_ne htoken hrow.2, Outcome.andThen_ok, hstop']
  | a :: as, _, _, s', ⟨ss, ss', vs, vs', ws, ws', rfl, rfl, hss, ha, hrow⟩, hr => by
    obtain ⟨s₁, s₂, hsemi, hitem, hrest⟩ := h.many_cons hr
    obtain ⟨v, us, us', hvs, hvs', hv⟩ := hE ha
    -- The part is read behind the semicolons before it, where no other semicolon stands.
    have hpart : ∀ p : Stream, (p.behind vs).token ≠ .symbol .semicolon ∧
        (p.behind vs').token ≠ .symbol .semicolon := by
      subst hvs hvs'
      exact fun p => ⟨hv, hv⟩
    rw [Stream.behind_append, Stream.behind_append,
      semicolons_behind_of_ne (hpart _).1 hss.left] at hsemi
    obtain ⟨-, rfl⟩ := Outcome.ok.inj hsemi
    have hnext : E (x.behind ws).token a vs vs' := by
      cases ws with
      | nil => exact hlast ha
      | cons w ws => exact ha
    obtain ⟨rfl, hlocal⟩ := hturn (hend.behind ws) hnext hitem
    obtain ⟨zs, zs', hrow', hzs, hzs'⟩ := hafter.exists_row hE hrow
    rw [hzs x hx] at hrest
    obtain ⟨hstop, hmany⟩ := many_padded h hafter hE hx hend hlast hturn hrow' hrest
    refine ⟨hstop, fun t t' ht hstop' => ?_⟩
    have htoken : t.token ≠ .symbol .semicolon := by rwa [ht.token_eq]
    have hround : round (t.behind (ss' ++ (vs' ++ ws'))) = .ok (.item a) (t.behind zs') := by
      rw [h.run, Stream.behind_append, Stream.behind_append,
        semicolons_behind_of_ne (hpart _).2 hss.2, Outcome.andThen_ok,
        hlocal (hrow.joins hE ht), hzs' t htoken]
    have hlt : (t.behind zs').size < (t.behind (ss' ++ (vs' ++ ws'))).size := by
      have hle := hafter.size_le (t.behind ws')
      rw [hzs' t htoken] at hle
      refine Nat.lt_of_le_of_lt hle ?_
      rw [hvs', Stream.size_behind, Stream.size_behind]
      simp only [List.length_append, List.length_cons]
      omega
    rw [Reader.many_item hround hlt, hmany ht hstop', Outcome.map_ok]

end Rows

end OpsLang
