import OpsLang.Proofs.Highlighting.Expr

/-!
# Names of statements

Every statement begins where a name has no role of its own and leaves such a place behind
(`Statement.Spells.plain`, `Block.Spells.plain`), so the names of its parts are shown one after
another (`Statement.Spells.shown`). The name of an activity stands behind its words, and is shown
as one unless the words are `initiate and confirm` and an operator stands behind the activity
(`shownAs_activity`).
-/

namespace OpsLang

open Highlight

/-! ## What a statement leaves behind -/

section Places

variable {before : List Token} {next : Token}

theorem plain_keyword {k : Keyword} (hk : (Token.keyword k).opensName = false)
    (hb : Plain before) : Plain (.keyword k :: before) :=
  plain_cons hk hb.ne_type

/-- Behind the words that end a block a statement may begin. -/
theorem BlockKind.plain_endTokens {kind : BlockKind} (hkind : kind ≠ .procedure)
    (us : List Token) : Plain (kind.endTokens.reverse ++ us) := by
  cases kind <;> first
    | exact absurd rfl hkind
    | exact plain_cons rfl (by simp)

theorem Grammar.ReferenceSpells.plain {p : Path} {as : List Argument} {ts : List Token}
    {room : Nat} (h : ReferenceSpells next p as ts) (hp : p.Legible)
    (has : Argument.AllLegible room as) (hb : before.head? ≠ some (.keyword .type)) :
    Plain (ts.reverse ++ before) := by
  obtain ⟨us, hpath, ⟨-, rfl, -⟩ | ⟨vs, hvs, rfl⟩⟩ := h
  · exact hpath.plain hp.ne_nil hb
  · have hname := hpath.plain hp.ne_nil hb
    have hargs := hvs.plain has.proper (plain_cons (t := .symbol .leftParen) rfl hname.ne_type)
    simpa using plain_cons (t := .symbol .rightParen) rfl hargs.ne_type

theorem Statement.Spells.plain {room : Nat} {st : Statement} {ts : List Token}
    (h : st.Spells next ts) (hleg : st.Legible room) (hb : Plain before) :
    Plain (ts.reverse ++ before) := by
  have hend : ∀ kind : BlockKind, kind ≠ .procedure → ∀ us vs,
      Plain ((us ++ kind.endTokens : List Token).reverse ++ vs) := by
    intro kind hkind us vs
    rw [List.reverse_append, List.append_assoc]
    exact BlockKind.plain_endTokens hkind _
  cases st with
  | activity mode p as n =>
    obtain ⟨us, rfl, href, -⟩ := h
    rw [List.reverse_append, List.append_assoc]
    exact href.plain hleg.1 hleg.2 (by cases mode <;> simp [ActivityMode.tokens])
  | check c n =>
    obtain ⟨us, rfl, hc, -⟩ := h
    have hconfirm : (Token.keyword .confirm :: before).head? ≠ some (.keyword .type) := by simp
    simpa using hc.plain hleg.1.proper hconfirm
  | wait c n =>
    obtain ⟨us, rfl, hc, -⟩ := h
    have huntil : (Token.keyword .until_ :: .keyword .wait :: before).head? ≠
        some (.keyword .type) := by simp
    simpa using hc.plain (Expr.Legible.proper (e := c) hleg) huntil
  | assign x v n =>
    obtain ⟨us, rfl, hv, -⟩ := h
    have hassign : (Token.symbol .assign :: .name x :: before).head? ≠
        some (.keyword .type) := by simp
    simpa using hv.plain hleg.2.proper hassign
  | expr v n => exact Expr.Spells.plain h.1 (Expr.Legible.proper (e := v) hleg) hb.ne_type
  | conditional branches otherwise n =>
    cases otherwise with
    | none =>
      obtain ⟨us, rfl, -⟩ := h
      exact hend .conditional (by simp) (.keyword .if_ :: us) before
    | some body =>
      obtain ⟨us, vs, rfl, -⟩ := h
      have hrow := hend .conditional (by simp)
        (.keyword .if_ :: (us ++ .keyword .else_ :: vs)) before
      simpa using hrow
  | whileLoop c body n =>
    obtain ⟨us, vs, rfl, -⟩ := h
    have hrow := hend .whileLoop (by simp)
      (.keyword .while_ :: (us ++ .keyword .do_ :: vs)) before
    simpa using hrow
  | forLoop x e body n =>
    obtain ⟨us, vs, rfl, -⟩ := h
    have hrow := hend .forLoop (by simp)
      (.keyword .for_ :: .name x :: .keyword .in_ :: (us ++ .keyword .do_ :: vs)) before
    simpa using hrow

theorem opensName_of_semicolons {ss : List Token} (h : ∀ t ∈ ss, t = .symbol .semicolon) :
    ∀ t ∈ ss, t.opensName = false := by
  intro t ht
  rw [h t ht]
  rfl

theorem Block.Spells.plain {room : Nat} : ∀ {body : List Statement} {ts before : List Token},
    Block.Spells body ts → Block.Legible room body → Plain before → Plain (ts.reverse ++ before)
  | [], _, _, h, _, hb => plain_append (opensName_of_semicolons h) hb
  | st :: rest, _, before, h, hleg, hb => by
    obtain ⟨ss, us, vs, rfl, hss, hst, hrest⟩ := h
    cases room with
    | zero => exact absurd hleg Block.not_legible_zero
    | succ room =>
      have hstart := plain_append (opensName_of_semicolons hss) hb
      have hbehind := hst.plain hleg.1 hstart
      simpa using hrest.plain hleg.2 hbehind

theorem Branch.AllSpell.plain {room : Nat} : ∀ {bs : List Branch} {ts before : List Token},
    Branch.AllSpell bs ts → Branch.AllLegible room bs → Plain before → Plain (ts.reverse ++ before)
  | [], _, _, h, _, hb => by
    obtain rfl := h
    exact hb
  | .mk c body :: rest, _, before, h, ⟨hc, hbody, hlegs⟩, hb => by
    obtain ⟨us, vs, ws, rfl, hus, hvs, hrest⟩ := h
    have hthen := plain_keyword (k := .then_) rfl (hus.plain hc.proper hb.ne_type)
    have hblock := hvs.plain hbody hthen
    obtain ⟨-, rfl⟩ | ⟨-, xs, rfl, hxs⟩ := hrest
    · simpa using hblock
    · simpa using hxs.plain hlegs (plain_keyword (k := .elsif) rfl hblock)

end Places

/-! ## What a statement begins with -/

theorem Token.apart_of_beginsStatement {t : Token} (h : t.beginsStatement = true) : t.Apart := by
  constructor <;>
    · rintro rfl
      cases h

theorem Token.apart_semicolon : (Token.symbol .semicolon).Apart :=
  ⟨by simp, by simp⟩

theorem Block.Spells.head_apart {room : Nat} {body : Block} {t : Token} {ts : List Token}
    (h : Block.Spells body (t :: ts)) (hleg : Block.Legible room body) : t.Apart := by
  obtain rfl | ht := h.head hleg
  · exact Token.apart_semicolon
  · exact Token.apart_of_beginsStatement ht

/-! ## Activities -/

section Activities

variable {before after : List Token} {next : Token}

/-- The name of an activity between its words and `stop`. -/
theorem shownAs_activity {mode : ActivityMode} {start stop : List Token}
    (hdeclared : declared? start = none) (htype : inTypePosition start = false)
    (hcolon : stop.head? ≠ some (.symbol .colon))
    (hactivity : (mode = .initiateAndConfirm → operatorBehind stop = false) →
      isActivity start stop = true) (n : String) (first last : Bool) :
    Mention.ShownAs ⟨n, (PathUse.activity mode).role first last⟩
      ⟨n, segmentCategory start stop first last, operatorBehind stop⟩ := by
  have hmode : ((PathUse.activity mode).role first last).mode? = some mode := by
    cases last <;> rfl
  obtain ⟨hprocedure, hunit⟩ := segmentCategory_ne hdeclared stop first last
  refine ⟨rfl, fun h => ?_, fun h => absurd h hprocedure, fun h => absurd h hunit⟩
  have hact : isActivity start stop = true :=
    hactivity fun heq => h (by rw [hmode, heq])
  have hno : startsWith (.symbol .colon) stop = false := by simpa [startsWith] using hcolon
  cases last <;> simp [segmentCategory, hdeclared, htype, hact, hno, PathUse.role, Role.category]

/-- The words of an activity make the name behind them one, where the reader asks for no operator
behind it. -/
theorem isActivity_tokens {mode : ActivityMode} {stop : List Token}
    (hstop : afterArguments stop = next :: after) (hdot : stop.head? ≠ some (.symbol .dot))
    (hconfirm : mode = .confirm → BinaryOp.ofToken? next = none)
    (h : mode = .initiateAndConfirm → operatorBehind stop = false) :
    isActivity (mode.tokens.reverse ++ before) stop = true := by
  cases mode with
  | initiate => rfl
  | confirm =>
    have hnone := hconfirm rfl
    simp [ActivityMode.tokens, isActivity, hstop, hnone]
  | initiateAndConfirm =>
    have hbehind := h rfl
    rw [operatorBehind, beyondPath_of_head hdot, hstop] at hbehind
    simpa [ActivityMode.tokens, isActivity, hstop] using hbehind

/-- An activity with its arguments. -/
theorem Grammar.ReferenceSpells.shown {mode : ActivityMode} {p : Path} {as : List Argument}
    {us : List Token} {room : Nat} (h : ReferenceSpells next p as us) (hp : p.Legible)
    (has : Argument.AllLegible room as) (hb : Plain before)
    (hconfirm : mode = .confirm → BinaryOp.ofToken? next = none) (hnext : next.Apart) :
    ShowsAll (p.mentions (.activity mode) ++ Argument.allMentions as)
      (showings (mode.tokens.reverse ++ before) us (next :: after)) := by
  have hstart : declared? (mode.tokens.reverse ++ before) = none ∧
      inTypePosition (mode.tokens.reverse ++ before) = false ∧
        (mode.tokens.reverse ++ before).head? ≠ some (.symbol .dot) := by
    cases mode with
    | initiate =>
      exact ⟨rfl, inTypePosition_cons (by simp) hb.ne_type, by simp [ActivityMode.tokens]⟩
    | confirm =>
      exact ⟨rfl, inTypePosition_cons (by simp) hb.ne_type, by simp [ActivityMode.tokens]⟩
    | initiateAndConfirm => exact ⟨rfl, rfl, by simp [ActivityMode.tokens]⟩
  obtain ⟨hdeclared, htype, hdot⟩ := hstart
  have hname : ∀ {ps stop : List Token}, p.Spells ps → afterArguments stop = next :: after →
      (∀ t ∈ stop.head?, t.Apart) → ShowsAll (p.mentions (.activity mode))
        (showings (mode.tokens.reverse ++ before) ps stop) := by
    intro ps stop hps hstop hhead
    have hstopDot : stop.head? ≠ some (.symbol .dot) := fun h => (hhead _ h).ne_dot rfl
    exact hps.shown (.activity mode) hdot hstopDot
      (shownAs_activity hdeclared htype (fun h => (hhead _ h).ne_colon rfl)
        (isActivity_tokens hstop hstopDot hconfirm))
  obtain ⟨ps, hps, ⟨rfl, rfl, hparen⟩ | ⟨vs, hvs, rfl⟩⟩ := h
  · have hpath := hname hps (afterArguments_cons hparen after) (by simpa using hnext)
    simpa [Argument.allMentions] using hpath
  · have hbefore : (mode.tokens.reverse ++ before).head? ≠ some (.keyword .type) := by
      cases mode <;> simp [ActivityMode.tokens]
    have hopen : Plain (.symbol .leftParen :: (ps.reverse ++ (mode.tokens.reverse ++ before))) :=
      plain_cons rfl (hps.plain hp.ne_nil hbefore).ne_type
    have hargs : ShowsAll (Argument.allMentions as) (showings
        (.symbol .leftParen :: (ps.reverse ++ (mode.tokens.reverse ++ before))) vs
        (.symbol .rightParen :: next :: after)) := hvs.shown has.proper hopen
    rw [showings_append, showings_cons_of_not rfl, showings_append_of_not (by simp [isSegment])]
    refine ShowsAll.append ?_ hargs
    have hstop := hvs.afterArguments_eq (next :: after)
    have hpath := hname hps hstop (by simpa using ⟨by simp, by simp⟩)
    simpa using hpath

end Activities

/-! ## Names in statements -/

theorem showings_keyword {before us after : List Token} {k : Keyword} :
    showings before (.keyword k :: us) after = showings (.keyword k :: before) us after :=
  showings_cons_of_not rfl

theorem showings_endTokens (kind : BlockKind) (before after : List Token) :
    showings before kind.endTokens after = [] := by
  refine showings_eq_nil fun t ht => ?_
  simp only [BlockKind.endTokens, List.mem_cons, List.not_mem_nil, or_false] at ht
  rcases ht with rfl | rfl <;> rfl

theorem showings_semicolons {ss before after : List Token}
    (h : ∀ t ∈ ss, t = .symbol .semicolon) : showings before ss after = [] := by
  refine showings_eq_nil fun t ht => ?_
  rw [h t ht]
  rfl

/-- An expression at a place where a name has no role of its own. -/
theorem Expr.Spells.shown_plain {room : Nat} {e : Expr} {ts before after : List Token}
    {next : Token} (h : e.Spells ts) (hleg : e.Legible room) (hb : Plain before)
    (hstop : e.StopsBefore next) (hnext : next.Apart) :
    ShowsAll e.mentions (showings before ts (next :: after)) :=
  h.shown hleg.proper hb.toFree (fun _ => .inl hb.activity) hstop hnext

/-- An expression before a word. -/
theorem Expr.Spells.shown_keyword {room : Nat} {e : Expr} {ts before after : List Token}
    {k : Keyword} (h : e.Spells ts) (hleg : e.Legible room) (hb : Plain before) :
    ShowsAll e.mentions (showings before ts (.keyword k :: after)) :=
  h.shown_plain hleg hb (Expr.stopsBefore_of_ne (by simp) e) (Token.apart_keyword k)

mutual

/-- The names of a statement are shown in their roles. -/
theorem Statement.Spells.shown : ∀ {room : Nat} {st : Statement} {ts before after : List Token}
    {next : Token}, st.Spells next ts → st.Legible room → Plain before → next.Apart →
      ShowsAll st.mentions (showings before ts (next :: after))
  | _, .activity mode p as _, _, before, after, next, h, ⟨hp, has⟩, hb, hnext => by
    obtain ⟨us, rfl, href, hconfirm⟩ := h
    have hwords : ∀ q, showings before mode.tokens q = [] := fun q =>
      showings_eq_nil (by cases mode <;> simp [ActivityMode.tokens, isSegment])
    rw [showings_append, hwords, List.nil_append]
    exact href.shown hp has hb hconfirm hnext
  | _, .check c _, _, before, after, next, h, ⟨hc, hact⟩, hb, hnext => by
    obtain ⟨us, rfl, hsp, hstop⟩ := h
    rw [showings_keyword]
    exact hsp.shown hc.proper (free_confirm hb.ne_type) (fun h => by rw [hact] at h; cases h) hstop
      hnext
  | _, .wait c _, _, before, after, next, h, hleg, hb, hnext => by
    obtain ⟨us, rfl, hsp, hstop⟩ := h
    rw [showings_keyword, showings_keyword]
    exact hsp.shown_plain hleg (plain_keyword rfl (plain_keyword rfl hb)) hstop hnext
  | _, .assign x v _, _, before, after, next, h, ⟨_, hv⟩, hb, hnext => by
    obtain ⟨us, rfl, hsp, hstop⟩ := h
    exact showsAll_name hb ⟨by simp, by simp⟩ (by simp) rfl x
      (hsp.shown_plain hv (plain_cons rfl (by simp)) hstop hnext)
  | _, .expr v _, _, _, _, _, h, hleg, hb, hnext => h.1.shown_plain hleg hb h.2 hnext
  | _, .conditional branches none _, _, before, after, next, h, ⟨_, hbranches⟩, hb, _ => by
    obtain ⟨us, rfl, hsp⟩ := h
    rw [showings_keyword, showings_append, showings_endTokens, List.append_nil]
    exact hsp.shown hbranches (plain_keyword rfl hb) rfl
  | _, .conditional branches (some body) _, _, before, after, next, h, ⟨_, hbranches, hbody⟩, hb,
      _ => by
    obtain ⟨us, vs, rfl, hsp, hblock⟩ := h
    have hif := plain_keyword (k := .if_) rfl hb
    have helse := plain_keyword (k := .else_) rfl (hsp.plain hbranches hif)
    rw [showings_keyword, showings_append, showings_keyword, showings_append, showings_endTokens,
      List.append_nil]
    exact (hsp.shown hbranches hif rfl).append (hblock.shown hbody helse rfl)
  | _, .whileLoop c body _, _, before, after, next, h, ⟨hc, hbody⟩, hb, _ => by
    obtain ⟨us, vs, rfl, hsp, hblock⟩ := h
    have hwhile := plain_keyword (k := .while_) rfl hb
    have hdo := plain_keyword (k := .do_) rfl (hsp.plain hc.proper hwhile.ne_type)
    rw [showings_keyword, showings_append, showings_keyword, showings_append, showings_endTokens,
      List.append_nil]
    exact (hsp.shown_keyword hc hwhile).append (hblock.shown hbody hdo rfl)
  | _, .forLoop x e body _, _, before, after, next, h, ⟨_, he, hbody⟩, hb, _ => by
    obtain ⟨us, vs, rfl, hsp, hblock⟩ := h
    have hfor := plain_keyword (k := .for_) rfl hb
    have hin : Plain (.keyword .in_ :: .name x :: .keyword .for_ :: before) :=
      plain_cons rfl (by simp)
    have hdo := plain_keyword (k := .do_) rfl (hsp.plain he.proper hin.ne_type)
    rw [showings_keyword]
    refine showsAll_name hfor (Token.apart_keyword .in_) (by simp) rfl x ?_
    rw [showings_append, showings_keyword, showings_append, showings_endTokens, List.append_nil]
    exact (hsp.shown_keyword he hin).append (hblock.shown hbody hdo rfl)

/-- The names of the statements of a block are shown in their roles. -/
theorem Block.Spells.shown : ∀ {room : Nat} {body : List Statement}
    {ts before after : List Token} {k : Keyword}, Block.Spells body ts → Block.Legible room body →
    Plain before → BinaryOp.ofToken? (.keyword k) = none →
      ShowsAll (Block.mentions body) (showings before ts (.keyword k :: after))
  | _, [], _, _, _, _, h, _, _, _ => by
    rw [showings_semicolons h]
    exact .nil
  | 0, _ :: _, _, _, _, _, _, hleg, _, _ => absurd hleg Block.not_legible_zero
  | room + 1, st :: rest, _, before, after, k, h, ⟨hst, hrest⟩, hb, hk => by
    obtain ⟨ss, us, vs, rfl, hss, hspell, hspells⟩ := h
    have hstart := plain_append (opensName_of_semicolons hss) hb
    rw [showings_append, showings_semicolons hss, List.nil_append, showings_append]
    refine ShowsAll.append ?_ (hspells.shown hrest (hspell.plain hst hstart) hk)
    cases vs with
    | nil => exact (hspell.before_keyword hk).shown hst hstart (Token.apart_keyword k)
    | cons v vs => exact hspell.shown hst hstart (hspells.head_apart hrest)

/-- The names of branches are shown in their roles. -/
theorem Branch.AllSpell.shown : ∀ {room : Nat} {bs : List Branch} {ts before after : List Token}
    {k : Keyword}, Branch.AllSpell bs ts → Branch.AllLegible room bs → Plain before →
    BinaryOp.ofToken? (.keyword k) = none →
      ShowsAll (Branch.allMentions bs) (showings before ts (.keyword k :: after))
  | _, [], _, _, _, _, h, _, _, _ => by
    obtain rfl := h
    exact .nil
  | _, .mk c body :: rest, _, before, after, k, h, ⟨hc, hbody, hlegs⟩, hb, hk => by
    obtain ⟨us, vs, ws, rfl, hus, hvs, hrest⟩ := h
    have hthen := plain_keyword (k := .then_) rfl (hus.plain hc.proper hb.ne_type)
    rw [showings_append, showings_keyword, showings_append]
    refine ShowsAll.append (hus.shown_keyword hc hb) ?_
    obtain ⟨rfl, rfl⟩ | ⟨-, xs, rfl, hxs⟩ := hrest
    · exact (hvs.shown hbody hthen hk).append .nil
    · have helsif := plain_keyword (k := .elsif) rfl (hvs.plain hbody hthen)
      refine ShowsAll.append (hvs.shown hbody hthen rfl) ?_
      rw [showings_keyword]
      exact hxs.shown hlegs helsif hk

end

end OpsLang
