import OpsLang.Proofs.Padding.Reader
import OpsLang.Proofs.Spelling.Extent

/-!
# Blocks with more semicolons

`Block.Padded` relates a row of the statements of a block to one in which semicolons are put
before the first statement, and behind any statement of the block or of a block inside it. The
tokens that are no such semicolons stand in both rows, in the same places of the text, so a
statement keeps its lines.

A block that is read from the first row is read from the second (`pads_statements`).
-/

namespace OpsLang

/-- Both rows begin with the same row of tokens and end in another one. -/
def Enclosed (H : List Token → Prop) (end_ : List Token)
    (B : List Located → List Located → Prop) (ts us : List Located) : Prop :=
  ∃ hs vs vs' es, ts = hs ++ (vs ++ es) ∧ us = hs ++ (vs' ++ es) ∧ H (words hs) ∧
    words es = end_ ∧ B vs vs'

theorem Enclosed.first {H : List Token → Prop} {end_ : List Token}
    {B : List Located → List Located → Prop} {ts us : List Located} {t : Token}
    (h : Enclosed H end_ B ts us) (hH : ∀ hs, H hs → ∃ cs, hs = t :: cs) :
    ∃ v ws ws', ts = v :: ws ∧ us = v :: ws' ∧ v.token = t := by
  obtain ⟨hs, vs, vs', es, rfl, rfl, hhs, -⟩ := h
  obtain ⟨cs, hcs⟩ := hH _ hhs
  obtain ⟨v, hs, rfl, hv, -⟩ := words_eq_cons.1 hcs
  exact ⟨v, _, _, rfl, rfl, hv⟩

mutual

/-- The row `us` is the row `ts` of the statement before `next`, with semicolons put into its
blocks. -/
def Statement.Padded (next : Token) : Statement → List Located → List Located → Prop
  | .conditional branches none _, ts, us =>
    Enclosed (· = [.keyword .if_]) BlockKind.conditional.endTokens (Branch.AllPadded branches)
      ts us
  | .conditional branches (some body) _, ts, us =>
    Enclosed (· = [.keyword .if_]) BlockKind.conditional.endTokens (fun vs vs' =>
      ∃ bs bs' e ws ws', vs = bs ++ e :: ws ∧ vs' = bs' ++ e :: ws' ∧
        e.token = .keyword .else_ ∧ Branch.AllPadded branches bs bs' ∧
          Block.Padded body ws ws') ts us
  | .whileLoop c body _, ts, us =>
    Enclosed (fun hs => ∃ cs, hs = .keyword .while_ :: (cs ++ [.keyword .do_]) ∧ c.Spells cs)
      BlockKind.whileLoop.endTokens (Block.Padded body) ts us
  | .forLoop n e body _, ts, us =>
    Enclosed (fun hs => ∃ es, hs = .keyword .for_ :: .name n :: .keyword .in_ ::
        (es ++ [.keyword .do_]) ∧ e.Spells es)
      BlockKind.forLoop.endTokens (Block.Padded body) ts us
  | st, ts, us => us = ts ∧ ts ≠ [] ∧ st.Spells next (words ts)

/-- The row `us` is the row `ts` of the statements of a block, with semicolons put before, between
and behind them, and into their blocks. -/
def Block.Padded : List Statement → List Located → List Located → Prop
  | [], ts, us => Loosened ts us
  | st :: rest, ts, us =>
    ∃ ss ss' vs vs' ws ws', ts = ss ++ (vs ++ ws) ∧ us = ss' ++ (vs' ++ ws') ∧ Loosened ss ss' ∧
      st.Padded ((words ws).head?.getD (.keyword .end_)) vs vs' ∧ Block.Padded rest ws ws'

/-- The row `us` is the row `ts` of the branches behind their first word, with semicolons put into
their blocks. -/
def Branch.AllPadded : List Branch → List Located → List Located → Prop
  | [], ts, us => ts = [] ∧ us = []
  | .mk c body :: rest, ts, us =>
    ∃ hs vs vs' ws ws', ts = hs ++ (vs ++ ws) ∧ us = hs ++ (vs' ++ ws') ∧
      (∃ cs, words hs = cs ++ [.keyword .then_] ∧ c.Spells cs) ∧ Block.Padded body vs vs' ∧
        (rest = [] ∧ ws = [] ∧ ws' = [] ∨ rest ≠ [] ∧ ∃ e xs xs', ws = e :: xs ∧ ws' = e :: xs' ∧
          e.token = .keyword .elsif ∧ Branch.AllPadded rest xs xs')

end

/-- Statements are parts of a block as they are of any row. -/
theorem Block.padded_iff : ∀ {body : Block} {ts us : List Located},
    Block.Padded body ts us ↔
      RowPadded (fun next st => st.Padded next) (.keyword .end_) body ts us
  | [], _, _ => by simp only [Block.Padded, RowPadded]
  | st :: rest, _, _ => by simp only [Block.Padded, RowPadded, Block.padded_iff]

/-- What a statement without blocks is padded to is itself. -/
theorem Statement.padded_iff {next : Token} {st : Statement} (h : st.hasBlocks = false)
    {ts us : List Located} :
    st.Padded next ts us ↔ us = ts ∧ ts ≠ [] ∧ st.Spells next (words ts) := by
  cases st with
  | conditional branches otherwise n => cases h
  | whileLoop c body n => cases h
  | forLoop x e body n => cases h
  | _ => rfl

/-- Before a word that is no operator every statement may end. -/
theorem Statement.Padded.before_keyword {next : Token} {st : Statement} {ts us : List Located}
    (h : st.Padded next ts us) {k : Keyword} (hk : BinaryOp.ofToken? (.keyword k) = none) :
    st.Padded (.keyword k) ts us := by
  cases hst : st.hasBlocks with
  | false =>
    rw [Statement.padded_iff hst] at h ⊢
    exact ⟨h.1, h.2.1, h.2.2.before_keyword hk⟩
  | true =>
    cases st with
    | conditional branches otherwise n => cases otherwise <;> exact h
    | whileLoop c body n => exact h
    | forLoop x e body n => exact h
    | _ => cases hst

/-- The word that a statement with blocks begins with. -/
def Statement.opening : Statement → Keyword
  | .whileLoop _ _ _ => .while_
  | .forLoop _ _ _ _ => .for_
  | _ => .if_

theorem Statement.Padded.first {next : Token} {st : Statement} (hst : st.hasBlocks = true)
    {ts us : List Located} (h : st.Padded next ts us) :
    ∃ v ws ws', ts = v :: ws ∧ us = v :: ws' ∧ v.token = .keyword st.opening := by
  cases st with
  | conditional branches otherwise n =>
    cases otherwise
    all_goals
      rw [Statement.Padded] at h
      exact h.first fun _ hhs => ⟨[], hhs⟩
  | whileLoop c body n =>
    rw [Statement.Padded] at h
    exact h.first fun _ ⟨cs, hhs, _⟩ => ⟨_, hhs⟩
  | forLoop x e body n =>
    rw [Statement.Padded] at h
    exact h.first fun _ ⟨es, hhs, _⟩ => ⟨_, hhs⟩
  | _ => cases hst

theorem partsBegin_statement : PartsBegin fun next (st : Statement) => st.Padded next := by
  intro next st ts us h
  cases hst : st.hasBlocks with
  | false =>
    obtain ⟨rfl, hne, hspells⟩ := (Statement.padded_iff hst).1 h
    obtain ⟨v, ws, rfl⟩ := List.exists_cons_of_ne_nil hne
    exact ⟨v, ws, ws, rfl, rfl, hspells.head_ne_semicolon⟩
  | true =>
    obtain ⟨v, ws, ws', rfl, rfl, hv⟩ := h.first hst
    exact ⟨v, ws, ws', rfl, rfl, by simp [hv]⟩

namespace Grammar

open Reader

variable {room : Nat} {s s' x : Stream} {ts us : List Located}

/-! ## Pieces of statements -/

theorem padsAt_expression (hx : x.HasEnd) {e : Expr} (he : e.Spells (words ts)) :
    PadsAt .loose (expression room) e ts ts x := by
  refine LocalAt.exact (P := fun _ e ts => e.Spells ts) (local_expression room (hx.behind ts))
    ?_ ?_ he
  · intro s s' hs _ hr
    obtain ⟨us, hus, hspells, -⟩ := takes_expression room hs hr
    exact ⟨us, hus, hspells⟩
  · exact fun _ _ _ _ _ _ h h' heq => e.prefixFree h h' heq

theorem endOf_of_words {kind : BlockKind} {line : Nat} (h : words ts = kind.endTokens) :
    endOf kind line (x.behind ts) = .ok () x := by
  obtain ⟨c, cs, rfl, hc, hcs⟩ := words_eq_cons.1 h
  obtain ⟨c', rfl, hc'⟩ := words_eq_singleton.1 hcs
  exact endOf_behind hc hc'

/-! ## Statements with blocks -/

theorem otherwise_behind {block : BlockReader} {line : Nat} {e : Located}
    (he : e.token = .keyword .else_) :
    (otherwise block line).outcome (x.behind (e :: ts)) =
      ((block .conditional line false).outcome (x.behind ts)).map some := by
  rw [otherwise_run, if_pos (show (x.behind (e :: ts)).token = _ from he),
    Stream.advance_behind_cons]

/-- Blocks are read from padded rows, up to a word that ends them. -/
def BlockReader.Pads (block : BlockReader) : Prop :=
  ∀ ⦃kind line stop body ts us x⦄, x.HasEnd → endsRun stop x.token = true →
    Block.Padded body ts us → PadsAt .firm (block kind line stop).outcome body ts us x

theorem endsRun_of_words {kind : BlockKind} (h : words ts = kind.endTokens) (stop : Bool) :
    endsRun stop (x.behind ts).token = true := by
  obtain ⟨c, cs, rfl, hc, -⟩ := words_eq_cons.1 h
  simp [endsRun, hc]

theorem joins_of_words {kind : BlockKind} (h : words ts = kind.endTokens) (t : Stream) :
    Seam.firm.Joins (x.behind ts) (t.behind ts) := by
  obtain ⟨c, cs, rfl, -⟩ := words_eq_cons.1 h
  rfl

section Blocks

variable {block : BlockReader} {line n : Nat} {next : Token} (hb : block.Pads)

include hb

/-- A block with its end is read from the padded block with the same end. -/
theorem BlockReader.Pads.before_end {kind : BlockKind} {line' : Nat} {stop : Bool} {body : Block}
    {u : Unit} {vs vs' es : List Located} (hx : x.HasEnd) (hbody : Block.Padded body vs vs')
    (hes : words es = kind.endTokens)
    (hrun : (block kind line stop).outcome (x.behind (vs ++ es)) = .ok body s)
    (hend : endOf kind line' s = .ok u s') :
    s' = x ∧ ∀ t : Stream,
      (block kind line stop).outcome (t.behind (vs' ++ es)) = .ok body (t.behind es) := by
  rw [Stream.behind_append] at hrun
  obtain ⟨rfl, hpad⟩ := hb (hx.behind es) (endsRun_of_words hes stop) hbody hrun
  rw [endOf_of_words hes] at hend
  obtain ⟨-, rfl⟩ := Outcome.ok.inj hend
  refine ⟨rfl, fun t => ?_⟩
  rw [Stream.behind_append]
  exact hpad (joins_of_words hes t)

theorem padsAt_whileLoop {c : Expr} {body : Block} (hx : x.HasEnd)
    (h : (Statement.whileLoop c body n).Padded next ts us) :
    PadsAt .loose (whileLoop (expression room) block line).outcome (.whileLoop c body n) ts us
      x := by
  rw [Statement.Padded] at h
  obtain ⟨hs, vs, vs', es, rfl, rfl, ⟨cs, hhs, hc⟩, hes, hbody⟩ := h
  obtain ⟨k, hs, rfl, -, hhs⟩ := words_eq_cons.1 hhs
  obtain ⟨cs, ds, rfl, rfl, hds⟩ := words_eq_append.1 hhs
  obtain ⟨d, rfl, hd⟩ := words_eq_singleton.1 hds
  intro s' hr
  simp only [List.cons_append, List.append_assoc, List.nil_append] at hr ⊢
  obtain ⟨_, s₁, _, s₂, hcrun, -, hbrun, hend, heq⟩ := whileLoop_eq_ok.1 hr
  obtain ⟨rfl, rfl, rfl⟩ := Statement.whileLoop.inj heq
  rw [Stream.advance_behind_cons, Stream.behind_append] at hcrun
  obtain ⟨rfl, hcpad⟩ := padsAt_expression (hx.behind _) hc hcrun
  rw [Stream.advance_behind_cons] at hbrun
  obtain ⟨rfl, hbpad⟩ := hb.before_end hx hbody hes hbrun hend
  refine ⟨rfl, fun t _ => whileLoop_eq_ok.2
    ⟨c, t.behind (d :: (vs' ++ es)), body, t.behind es, ?_, hd, ?_, endOf_of_words hes, rfl⟩⟩
  · rw [Stream.advance_behind_cons, Stream.behind_append]
    exact hcpad (.inl rfl)
  · rw [Stream.advance_behind_cons]
    exact hbpad t

theorem padsAt_forLoop {m : String} {e : Expr} {body : Block} (hx : x.HasEnd)
    (h : (Statement.forLoop m e body n).Padded next ts us) :
    PadsAt .loose (forLoop (expression room) block line).outcome (.forLoop m e body n) ts us
      x := by
  rw [Statement.Padded] at h
  obtain ⟨hs, vs, vs', es, rfl, rfl, ⟨cs, hhs, he⟩, hes, hbody⟩ := h
  obtain ⟨k, hs, rfl, -, hhs⟩ := words_eq_cons.1 hhs
  obtain ⟨v, hs, rfl, hv, hhs⟩ := words_eq_cons.1 hhs
  obtain ⟨i, hs, rfl, hi, hhs⟩ := words_eq_cons.1 hhs
  obtain ⟨cs, ds, rfl, rfl, hds⟩ := words_eq_append.1 hhs
  obtain ⟨d, rfl, hd⟩ := words_eq_singleton.1 hds
  intro s' hr
  simp only [List.cons_append, List.append_assoc, List.nil_append] at hr ⊢
  obtain ⟨_, _, s₁, _, s₂, -, -, herun, -, hbrun, hend, heq⟩ := forLoop_eq_ok.1 hr
  obtain ⟨rfl, rfl, rfl, rfl⟩ := Statement.forLoop.inj heq
  simp only [Stream.advance_behind_cons] at herun
  rw [Stream.behind_append] at herun
  obtain ⟨rfl, hepad⟩ := padsAt_expression (hx.behind _) he herun
  rw [Stream.advance_behind_cons] at hbrun
  obtain ⟨rfl, hbpad⟩ := hb.before_end hx hbody hes hbrun hend
  refine ⟨rfl, fun t _ => forLoop_eq_ok.2
    ⟨m, e, t.behind (d :: (vs' ++ es)), body, t.behind es, hv, hi, ?_, hd, ?_,
      endOf_of_words hes, rfl⟩⟩
  · simp only [Stream.advance_behind_cons]
    rw [Stream.behind_append]
    exact hepad (.inl rfl)
  · rw [Stream.advance_behind_cons]
    exact hbpad t

/-- The condition and the block of a branch are read up to a word that ends the block. -/
theorem branch_behind {c : Expr} {body : Block} {hs vs vs' : List Located} {s₁ s₂ : Stream}
    (hx : x.HasEnd) (hend : endsRun true x.token = true)
    (hhead : ∃ cs, words hs = cs ++ [.keyword .then_] ∧ c.Spells cs)
    (hbody : Block.Padded body vs vs') (hcrun : expression room (x.behind (hs ++ vs)) = .ok c s₁)
    (hbrun : (block .conditional line true).outcome s₁.advance = .ok body s₂) :
    s₂ = x ∧ ∀ t : Stream, Seam.firm.Joins x t →
      ∃ z, expression room (t.behind (hs ++ vs')) = .ok c z ∧ z.token = .keyword .then_ ∧
        (block .conditional line true).outcome z.advance = .ok body t := by
  obtain ⟨cs, hhs, hc⟩ := hhead
  obtain ⟨cs, ds, rfl, rfl, hds⟩ := words_eq_append.1 hhs
  obtain ⟨d, rfl, hd⟩ := words_eq_singleton.1 hds
  rw [List.append_assoc, Stream.behind_append] at hcrun
  obtain ⟨rfl, hcpad⟩ := padsAt_expression (hx.behind _) hc hcrun
  rw [List.singleton_append, Stream.advance_behind_cons] at hbrun
  obtain ⟨rfl, hbpad⟩ := hb hx hend hbody hbrun
  refine ⟨rfl, fun t ht => ⟨t.behind (d :: vs'), ?_, hd, ?_⟩⟩
  · rw [List.append_assoc, Stream.behind_append]
    exact hcpad (.inl rfl)
  · rw [Stream.advance_behind_cons]
    exact hbpad ht

/-- Branches are read up to a word that ends their last block, and is not `elsif`. -/
theorem padsAt_branches : ∀ {bs : List Branch} {ts us : List Located} {x : Stream}, x.HasEnd →
    endsRun true x.token = true → x.token ≠ .keyword .elsif → Branch.AllPadded bs ts us →
      PadsAt .firm (many (branch (expression room) block line).outcome) bs ts us x
  | [], _, _, _, _, _, _, _, _, hr => by
    obtain ⟨t, s₁, hround, hrest⟩ := many_first hr
    obtain ⟨_, _, _, _, -, -, -, ⟨-, rfl, -⟩ | ⟨-, rfl, -⟩⟩ := branch_eq_ok.1 hround
    · obtain ⟨rest, h, -⟩ := hrest
      cases h
    · cases hrest.1
  | .mk c body :: rest, _, _, x, hx, hxend, hxelsif, h, s', hr => by
    obtain ⟨hs, vs, vs', ws, ws', rfl, rfl, hhead, hbody, hrest⟩ := h
    have hend : endsRun true (x.behind ws).token = true := by
      obtain ⟨-, rfl, -⟩ | ⟨-, e, xs, xs', rfl, -, he, -⟩ := hrest
      · exact hxend
      · simp [endsRun, he]
    obtain ⟨t, s₃, hround, hmany⟩ := many_first hr
    obtain ⟨c', s₁, body', s₂, hcrun, -, hbrun, hlast⟩ := branch_eq_ok.1 hround
    have hsame : Branch.mk c' body' = .mk c body := by
      obtain ⟨-, rfl, -⟩ | ⟨-, rfl, -⟩ := hlast
      · obtain ⟨_, h, -⟩ := hmany
        exact (List.cons.inj h).1.symm
      · exact (List.cons.inj hmany.1).1.symm
    obtain ⟨rfl, rfl⟩ := Branch.mk.inj hsame
    rw [← List.append_assoc, Stream.behind_append] at hcrun
    obtain ⟨rfl, hpad⟩ := branch_behind hb (hx.behind ws) hend hhead hbody hcrun hbrun
    obtain ⟨rfl, rfl, rfl⟩ | ⟨hne, e, xs, xs', rfl, rfl, he, hxs⟩ := hrest
    · -- The last branch.
      obtain ⟨helsif, -⟩ | ⟨-, rfl, rfl⟩ := hlast
      · exact absurd helsif hxelsif
      · obtain ⟨-, rfl⟩ := hmany
        refine ⟨rfl, fun t ht => ?_⟩
        obtain ⟨z, hcond, hthen, hblock⟩ := hpad t ht
        rw [List.append_nil]
        exact many_last (branch_eq_ok.2 ⟨c', z, body', t, hcond, hthen, hblock,
          .inr ⟨by rwa [ht.token_eq], rfl, rfl⟩⟩)
    · -- A branch with another one behind it.
      obtain ⟨-, rfl, rfl⟩ | ⟨helsif, -⟩ := hlast
      · obtain ⟨rest', h, hmany⟩ := hmany
        obtain ⟨-, rfl⟩ := List.cons.inj h
        rw [Stream.advance_behind_cons] at hmany
        obtain ⟨rfl, hmany⟩ := padsAt_branches hx hxend hxelsif hxs hmany
        refine ⟨rfl, fun t ht => ?_⟩
        obtain ⟨z, hcond, hthen, hblock⟩ := hpad (t.behind (e :: xs')) rfl
        rw [← Stream.behind_append, List.append_assoc] at hcond
        have hround' : (branch (expression room) block line).outcome
            (t.behind (hs ++ (vs' ++ e :: xs'))) = .ok (.item (.mk c' body')) (t.behind xs') :=
          branch_eq_ok.2 ⟨c', z, body', _, hcond, hthen, hblock,
            .inl ⟨he, rfl, (Stream.advance_behind_cons ..).symm⟩⟩
        rw [many_item hround' ?_, hmany ht, Outcome.map_ok]
        simp only [Stream.size_behind, List.length_append, List.length_cons]
        omega
      · exact absurd he helsif

theorem padsAt_conditional {bs : List Branch} {rest : Option Block} (hx : x.HasEnd)
    (h : (Statement.conditional bs rest n).Padded next ts us) :
    PadsAt .loose (conditional (expression room) block line).outcome (.conditional bs rest n) ts
      us x := by
  intro s' hr
  obtain ⟨_, s₁, _, s₂, hbrun, horun, hend, heq⟩ := conditional_eq_ok.1 hr
  obtain ⟨rfl, rfl, rfl⟩ := Statement.conditional.inj heq
  cases rest with
  | none =>
    obtain ⟨hs, vs, vs', es, rfl, rfl, hhs, hes, hbs⟩ := h
    obtain ⟨k, rfl, -⟩ := words_eq_singleton.1 hhs
    have hend_ : ∀ x : Stream, (x.behind es).token = .keyword .end_ := by
      obtain ⟨e, es, rfl, he, -⟩ := words_eq_cons.1 hes
      exact fun _ => he
    simp only [List.singleton_append] at hbrun ⊢
    rw [Stream.advance_behind_cons, Stream.behind_append] at hbrun
    obtain ⟨rfl, hbpad⟩ := padsAt_branches hb (hx.behind es) (endsRun_of_words hes _)
      (by simp [hend_]) hbs hbrun
    have horun' : ∀ x : Stream,
        (otherwise block n).outcome (x.behind es) = .ok none (x.behind es) := fun x => by
      rw [otherwise_run, if_neg (by simp [hend_])]
    rw [horun'] at horun
    obtain ⟨-, rfl⟩ := Outcome.ok.inj horun
    rw [endOf_of_words hes] at hend
    obtain ⟨-, rfl⟩ := Outcome.ok.inj hend
    refine ⟨rfl, fun t _ => conditional_eq_ok.2
      ⟨bs, t.behind es, none, t.behind es, ?_, horun' t, endOf_of_words hes, rfl⟩⟩
    rw [Stream.advance_behind_cons, Stream.behind_append]
    exact hbpad (joins_of_words hes t)
  | some body =>
    obtain ⟨hs, _, _, es, rfl, rfl, hhs, hes, vs, vs', e, ws, ws', rfl, rfl, he, hbs, hbody⟩ := h
    obtain ⟨k, rfl, -⟩ := words_eq_singleton.1 hhs
    simp only [List.append_assoc, List.cons_append, List.nil_append] at hbrun ⊢
    rw [Stream.advance_behind_cons, Stream.behind_append] at hbrun
    have helse : ∀ x : Stream, (x.behind (e :: (ws ++ es))).token = .keyword .else_ := fun _ => he
    obtain ⟨rfl, hbpad⟩ := padsAt_branches hb (hx.behind _) (by simp [endsRun, helse])
      (by simp [helse]) hbs hbrun
    rw [otherwise_behind he] at horun
    obtain ⟨body', horun, heq⟩ := Outcome.map_eq_ok.1 horun
    obtain rfl := (Option.some.inj heq).symm
    obtain ⟨rfl, hblock⟩ := hb.before_end hx hbody hes horun hend
    refine ⟨rfl, fun t _ => conditional_eq_ok.2
      ⟨bs, t.behind (e :: (ws' ++ es)), some body, t.behind es, ?_, ?_, endOf_of_words hes, rfl⟩⟩
    · rw [Stream.advance_behind_cons, Stream.behind_append]
      exact hbpad rfl
    · rw [otherwise_behind he, hblock t, Outcome.map_ok]

end Blocks

/-! ## Statements -/

section Statements

variable {block : BlockReader} {line : Nat} {st : Statement}

theorem hasBlocks_of_opening {k : Keyword} (hk : k = .if_ ∨ k = .while_ ∨ k = .for_)
    (h : s.token = .keyword k)
    (hr : (bareStatement (expression room) block line).outcome s = .ok st s') :
    st.hasBlocks = true := by
  rw [bareStatement_run, h] at hr
  obtain rfl | rfl | rfl := hk
  · obtain ⟨_, _, _, _, -, -, -, rfl⟩ := conditional_eq_ok.1 hr
    rfl
  · obtain ⟨_, _, _, _, -, -, -, -, rfl⟩ := whileLoop_eq_ok.1 hr
    rfl
  · obtain ⟨_, _, _, _, _, -, -, -, -, -, -, rfl⟩ := forLoop_eq_ok.1 hr
    rfl

/-- A statement without blocks depends on its own tokens and on what follows on them. -/
theorem localAt_bareStatement (hs : s.HasEnd)
    (h : ∀ k, k = .if_ ∨ k = .while_ ∨ k = .for_ → s.token ≠ .keyword k) :
    LocalAt .firm .loose (bareStatement (expression room) block line).outcome s := by
  simp only [bareStatement, Reporter.outcome_bind, Reporter.outcome_liftM]
  refine .peek ?_
  split
  · next ht => exact localAt_initiate line hs (by simp [ht])
  · next ht => exact localAt_confirm line hs (by simp [ht])
  · next ht => exact localAt_wait line hs (by simp [ht])
  · next ht => exact absurd ht (h _ (by simp))
  · next ht => exact absurd ht (h _ (by simp))
  · next ht => exact absurd ht (h _ (by simp))
  · exact local_plainStatement line hs

theorem padsAt_bareStatement
    (htakes : ∀ kind line stop, (block kind line stop).outcome.Takes (BlockRead room))
    (hb : block.Pads) (hx : x.HasEnd) (h : st.Padded x.token ts us) :
    PadsAt .loose (bareStatement (expression room) block line).outcome st ts us x := by
  cases hst : st.hasBlocks with
  | false =>
    obtain ⟨rfl, -, hspells⟩ := (Statement.padded_iff hst).1 h
    intro s' hr
    have hopens : ∀ k, k = .if_ ∨ k = .while_ ∨ k = .for_ →
        (x.behind us).token ≠ .keyword k := fun k hk ht => by
      have hblocks := hasBlocks_of_opening hk ht hr
      rw [hst] at hblocks
      cases hblocks
    refine LocalAt.exact (P := fun t st ts => st.Spells t ts)
      (localAt_bareStatement (hx.behind us) hopens) ?_ ?_ hspells hr
    · intro s s' hs _ hr
      obtain ⟨vs, hvs, hread⟩ := bareStatement_read htakes hs hr
      exact ⟨vs, hvs, hread.spells⟩
    · exact fun _ _ _ _ _ _ => Statement.Spells.eq_of_append hst
  | true =>
    obtain ⟨v, ws, ws', hts, hus, hv⟩ := h.first hst
    have hword : ∀ t : Stream, (t.behind ts).token = .keyword st.opening ∧
        (t.behind us).token = .keyword st.opening := by
      subst hts hus
      exact fun t => ⟨hv, hv⟩
    intro s' hr
    simp only [bareStatement_run, hword] at hr ⊢
    cases st with
    | conditional branches otherwise n => exact padsAt_conditional hb hx h hr
    | whileLoop c body n => exact padsAt_whileLoop hb hx h hr
    | forLoop x e body n => exact padsAt_forLoop hb hx h hr
    | _ => cases hst

end Statements

/-! ## Blocks -/

/-- What a round of a block does behind the semicolons before it. -/
def blockTurn (kind : BlockKind) (line : Nat) (stop : Bool) (st : Reporter Statement) :
    Reader (Turn Statement) := fun s =>
  if s.token = .eof then .fail (s.unterminated kind line) s
  else if endsRun stop s.token then .ok .stop s
  else (attempt .strict stop st).outcome s

section Rounds

variable {kind : BlockKind} {line : Nat} {stop : Bool} {st : Reporter Statement} {a : Statement}

theorem blockTurn_item :
    blockTurn kind line stop st s = .ok (.item a) s' ↔
      s.token ≠ .eof ∧ endsRun stop s.token = false ∧ st.outcome s = .ok a s' := by
  unfold blockTurn
  split
  · next he => simp [he]
  · next he =>
    split
    · next hend => simp [hend]
    · next hend =>
      rw [attempt_run]
      cases st.outcome s <;> simp [he, hend]

theorem blockTurn_stop (h : endsRun stop s.token = true) :
    blockTurn kind line stop st s = .ok .stop s := by
  have he : s.token ≠ .eof := fun he => by simp [endsRun, he] at h
  rw [blockTurn, if_neg he, if_pos h]

theorem eq_of_blockTurn_stop (h : blockTurn kind line stop st s = .ok .stop s') : s' = s := by
  unfold blockTurn at h
  split at h
  · cases h
  split at h
  · exact (Outcome.ok.inj h).2.symm
  · rw [attempt_run] at h
    cases hst : st.outcome s <;> simp [hst] at h

theorem spacedRound_block : SpacedRound (round .strict kind line stop st).outcome
    (blockTurn kind line stop st) where
  run s := round_run ..
  turns s t s' h := by
    unfold blockTurn at h
    split at h
    · cases h
    split at h
    · cases h
      exact .inl rfl
    rw [attempt_run] at h
    cases hst : st.outcome s with
    | ok a s₁ =>
      rw [hst] at h
      cases h
      exact .inr ⟨a, rfl⟩
    | fail d s₁ =>
      rw [hst] at h
      simp at h
    | endless =>
      rw [hst] at h
      cases h

end Rounds

theorem statement_eq_ok {expr : Reader Expr} {block : BlockReader} {st : Statement} :
    (statement expr block).outcome s = .ok st s' ↔
      ∃ s₁, (bareStatement expr block s.line).outcome s = .ok st s₁ ∧ s' = s₁.pastSemicolon := by
  rw [statement_run, Outcome.andThen_eq_ok]
  constructor
  · rintro ⟨st', s₁, hbare, h⟩
    split at h
    · next ht =>
      cases h
      exact ⟨_, hbare, (if_pos ht).symm⟩
    · next ht =>
      cases h
      exact ⟨_, hbare, (if_neg ht).symm⟩
  · rintro ⟨s₁, hbare, rfl⟩
    refine ⟨st, s₁, hbare, ?_⟩
    unfold Stream.pastSemicolon
    split <;> rfl

/-- The words that end a run of statements are no operators. -/
theorem exists_keyword_of_endsRun {stop : Bool} {t : Token} (h : endsRun stop t = true) :
    ∃ k, t = .keyword k ∧ BinaryOp.ofToken? (.keyword k) = none := by
  simp only [endsRun, Bool.or_eq_true, Bool.and_eq_true, decide_eq_true_eq] at h
  obtain h | ⟨-, h | h⟩ := h <;> exact ⟨_, h, rfl⟩

/-- A statement that is read as a part of a block is read from its padded row too. -/
theorem blockTurn_padded {kind : BlockKind} {line : Nat} {stop : Bool} {block : BlockReader}
    (htakes : ∀ kind line stop, (block kind line stop).outcome.Takes (BlockRead room))
    (hb : block.Pads) {st : Statement} (hx : x.HasEnd) (h : st.Padded x.token ts us)
    (hr : blockTurn kind line stop (statement (expression room) block) (x.behind ts) =
      .ok (.item st) s') :
    s' = x.pastSemicolon ∧ ∀ ⦃t⦄, Seam.loose.Joins x t →
      blockTurn kind line stop (statement (expression room) block) (t.behind us) =
        .ok (.item st) t.pastSemicolon := by
  obtain ⟨he, hend, hst⟩ := blockTurn_item.1 hr
  obtain ⟨s₁, hbare, rfl⟩ := statement_eq_ok.1 hst
  obtain ⟨rfl, hpad⟩ := padsAt_bareStatement htakes hb hx h hbare
  obtain ⟨v, ws, ws', rfl, rfl, -⟩ := partsBegin_statement h
  exact ⟨rfl, fun t ht => blockTurn_item.2 ⟨he, hend, statement_eq_ok.2 ⟨t, hpad ht, rfl⟩⟩⟩

theorem pads_statements (room : Nat) : (statements .strict room).Pads := by
  induction room with
  | zero => exact fun _ _ _ _ _ _ _ _ _ _ _ hr => by cases hr
  | succ room ih =>
    intro kind line stop body ts us x hx hend hbody s' hr
    rw [statements, Reporter.outcome_many] at hr ⊢
    have hne : x.token ≠ .symbol .semicolon := fun h => by simp [endsRun, h] at hend
    obtain ⟨k, hk, hop⟩ := exists_keyword_of_endsRun hend
    obtain ⟨hstop, hmany⟩ := many_padded spacedRound_block .past partsBegin_statement hne hx
      (fun _ _ _ h => hk ▸ h.before_keyword hop)
      (fun _ _ _ _ _ hp h => blockTurn_padded (takes_statements room) ih hp h)
      (Block.padded_iff.1 hbody) hr
    rw [blockTurn_stop hend] at hstop
    obtain ⟨-, rfl⟩ := Outcome.ok.inj hstop
    refine ⟨rfl, fun t ht => hmany ht (blockTurn_stop ?_)⟩
    rwa [ht.token_eq]

end Grammar

end OpsLang
