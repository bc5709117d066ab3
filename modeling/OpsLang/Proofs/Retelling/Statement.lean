import OpsLang.Proofs.Significant
import OpsLang.Proofs.Spelling.Statement

/-!
# Statements and their canonical tokens

The tokens that spell a legible statement come to the same significant tokens as its canonical
ones (`Statement.Spells.alike`). What a row comes to depends on the token behind it (`Alike`) :
either the one that the spelling stands before, which begins a statement or ends a block, or one
that goes on from no statement (`Before`).
-/

namespace OpsLang

/-! ## Rows that come to the same -/

/-- Before a token that is `ok`, the tokens `us` come to the same significant tokens as `ts`
before one that goes on from no statement. -/
def Alike (ok : Token → Prop) (us ts : List Token) : Prop :=
  ∃ vs, Shows ok us vs ∧ Shows Token.Follows ts vs

namespace Alike

variable {ok ok' : Token → Prop} {t u : Token} {us us' ts ts' : List Token}

theorem nil : Alike ok [] [] :=
  ⟨[], .nil, .nil⟩

theorem mono (h : Alike ok us ts) (hok : ∀ t, ok' t → ok t) : Alike ok' us ts := by
  obtain ⟨vs, hus, hts⟩ := h
  exact ⟨vs, hus.mono hok, hts⟩

theorem of_shows (h : Shows ok us ts) (h' : Shows Token.Follows ts ts) : Alike ok us ts :=
  ⟨ts, h, h'⟩

theorem cons (ht : t.isPlain = true) (h : Alike ok us ts) : Alike ok (t :: us) (t :: ts) := by
  obtain ⟨vs, hus, hts⟩ := h
  exact ⟨t :: vs, hus.cons ht, hts.cons ht⟩

theorem semicolon (h : Alike ok us ts) : Alike ok (.symbol .semicolon :: us) ts := by
  obtain ⟨vs, hus, hts⟩ := h
  exact ⟨vs, hus.semicolon, hts⟩

theorem semicolons {ss : List Token} (hss : ∀ t ∈ ss, t = .symbol .semicolon)
    (h : Alike ok us ts) : Alike ok (ss ++ us) ts := by
  induction ss with
  | nil => exact h
  | cons t ss ih =>
    obtain ⟨rfl, hrest⟩ := List.forall_mem_cons.1 hss
    exact (ih hrest).semicolon

theorem append (h : Alike ok us ts) (h' : Alike ok' us' ts') (hhead : ∀ t ∈ us'.head?, ok t)
    (hnil : us' = [] → ∀ t, ok' t → ok t) (hhead' : ∀ t ∈ ts'.head?, t.Follows) :
    Alike ok' (us ++ us') (ts ++ ts') := by
  obtain ⟨vs, hus, hts⟩ := h
  obtain ⟨vs', hus', hts'⟩ := h'
  exact ⟨vs ++ vs', hus.append hus' hhead hnil, hts.append hts' hhead' fun _ _ ht => ht⟩

/-- A comma stands before tokens that do not close a list. -/
theorem comma (h : Alike ok (t :: us) (u :: ts))
    (ht : t ≠ .symbol .rightParen ∧ t ≠ .symbol .rightBrace)
    (hu : u ≠ .symbol .rightParen ∧ u ≠ .symbol .rightBrace) :
    Alike ok (.symbol .comma :: t :: us) (.symbol .comma :: u :: ts) := by
  obtain ⟨vs, hus, hts⟩ := h
  exact ⟨.symbol .comma :: vs, hus.comma ht, hts.comma hu⟩

/-- The tokens behind begin with a word. -/
theorem word {k : Keyword} (h : Alike ok us ts)
    (h' : Alike ok' us' ts') (hk : (Token.keyword k).isPlain = true) (hok : ok (.keyword k))
    (hop : BinaryOp.ofToken? (.keyword k) = none) :
    Alike ok' (us ++ .keyword k :: us') (ts ++ .keyword k :: ts') := by
  refine h.append (h'.cons hk) ?_ (fun hnil => by cases hnil) ?_
  · rintro t ⟨⟩
    exact hok
  · rintro t ⟨⟩
    exact .keyword hop

end Alike

theorem Alike.separated {ok : Token → Prop} {us ts : List Token} (h : Alike ok us ts)
    (rest : List Statement) : Alike ok us (separator rest ++ ts) := by
  obtain ⟨vs, hus, hts⟩ := h
  unfold separator
  split
  · exact ⟨vs, hus, hts.semicolon⟩
  · exact ⟨vs, hus, hts⟩

theorem Expr.Spells.alike {room : Nat} {e : Expr} {us : List Token} (h : e.Spells us)
    (hfit : e.Fits room) (hw : ∀ t ∈ us, t.Written) : Alike Token.NotBracket us e.tokens := by
  obtain ⟨hspells, hwritten⟩ := h.canonical hw
  exact .of_shows (h.shows hfit hw) ((hspells.shows hfit hwritten).mono fun _ ht => ht.notBracket)

theorem Block.alike_end {ok : Token → Prop} {us ts : List Token} (h : Alike Token.Follows us ts)
    (kind : BlockKind) : Alike ok (us ++ kind.endTokens) (ts ++ kind.endTokens) :=
  h.word (.of_shows (.of_isPlain (by cases kind <;> simp [BlockKind.closer, Token.isPlain]))
    (.of_isPlain (by cases kind <;> simp [BlockKind.closer, Token.isPlain]))) rfl
    (.keyword rfl) rfl

/-- A statement, or the end of a block, may begin with the token. -/
structure Token.Begins (t : Token) : Prop where
  notBracket : t.NotBracket
  ne_dot : t ≠ .symbol .dot

/-- The token is the one behind a statement, or one that goes on from none. -/
def Before (next t : Token) : Prop :=
  (t = next ∧ t.Begins) ∨ t.Follows

theorem Before.notBracket {next t : Token} (h : Before next t) : t.NotBracket := by
  rcases h with h | h
  · exact h.2.notBracket
  · exact h.notBracket

theorem Token.begins_keyword (k : Keyword) : (Token.keyword k).Begins :=
  ⟨by simp [NotBracket], by simp⟩

theorem Token.begins_semicolon : (Token.symbol .semicolon).Begins :=
  ⟨by simp [NotBracket], by simp⟩

theorem Token.begins_of_beginsExpr {t : Token} (h : t.beginsExpr = true) : t.Begins := by
  refine ⟨notBracket_of_beginsExpr h, ?_⟩
  rintro rfl
  cases h

theorem Token.begins_of_beginsStatement {t : Token} (h : t.beginsStatement = true) :
    t.Begins := by
  unfold beginsStatement at h
  split at h <;> first
    | exact begins_keyword _
    | exact begins_of_beginsExpr h

/-! ## Activities -/

/-- The empty argument list of an activity comes to nothing. -/
theorem Grammar.ReferenceSpells.alike {room : Nat} {next : Token} {p : Path}
    {as : List Argument} {ts : List Token} (h : ReferenceSpells next p as ts)
    (mode : ActivityMode) (hp : p.Legible) (has : Argument.AllLegible room as)
    (hmode : mode = .confirm → BinaryOp.ofToken? next = none) (hw : ∀ t ∈ ts, t.Written) :
    Alike (Before next) (mode.tokens ++ ts)
      (mode.tokens ++ (p.tokens ++ Argument.optionalTokens as)) := by
  have hplain : Shows Token.Follows (mode.tokens ++ p.tokens) (mode.tokens ++ p.tokens) :=
    (shows_reference mode hp.ne_nil).mono fun t ht => ⟨ht.ne_leftParen, ht.ne_dot⟩
  obtain ⟨us, hsp, ⟨rfl, rfl, hnext⟩ | ⟨vs, hvs, rfl⟩⟩ := h
  · obtain rfl := hsp.eq_tokens hw
    simp only [Argument.optionalTokens, List.isEmpty_nil, if_true, List.append_nil]
    refine .of_shows ((shows_reference mode hp.ne_nil).mono fun t ht => ?_) hplain
    rcases ht with ⟨rfl, ht⟩ | ht
    · exact ⟨hnext, ht.ne_dot⟩
    · exact ⟨ht.ne_leftParen, ht.ne_dot⟩
  · simp only [List.forall_mem_append, List.forall_mem_cons] at hw
    obtain ⟨hus, -, hws, -⟩ := hw
    obtain rfl := hsp.eq_tokens hus
    cases as with
    | nil =>
      obtain rfl := hvs
      simp only [Argument.optionalTokens, List.isEmpty_nil, if_true, List.append_nil]
      refine .of_shows ((shows_emptyCall mode hp.ne_nil).mono fun t ht hconf => ?_) hplain
      rcases ht with ⟨rfl, -⟩ | ht
      · exact hmode hconf
      · exact ht.noOperator
    | cons a as =>
      exact .of_shows (shows_call mode hp.ne_nil hvs has.fits hws)
        (shows_call mode hp.ne_nil has.spells has.fits has.written)

/-! ## Statements -/

/-- A row that begins a block stands behind any statement. -/
theorem Block.Spells.before {room : Nat} {body : Block} {ts : List Token}
    (h : Block.Spells body ts) (hleg : Block.Legible room body) :
    ∀ t ∈ ts.head?, Before (ts.head?.getD (.keyword .end_)) t := by
  cases ts with
  | nil => rintro t ⟨⟩
  | cons u us =>
    rintro t ⟨⟩
    refine .inl ⟨rfl, ?_⟩
    obtain rfl | hu := h.head hleg
    · exact Token.begins_semicolon
    · exact Token.begins_of_beginsStatement hu

/-- An expression before a word. -/
theorem Expr.Spells.alike_word {room : Nat} {e : Expr} {us vs ts : List Token} {k : Keyword}
    {ok : Token → Prop} (h : e.Spells us) (hleg : e.Legible room) (hw : ∀ t ∈ us, t.Written)
    (hrest : Alike ok vs ts) (hk : (Token.keyword k).isPlain = true)
    (hop : BinaryOp.ofToken? (.keyword k) = none) :
    Alike ok (us ++ .keyword k :: vs) (e.tokens ++ .keyword k :: ts) :=
  (h.alike hleg.fits hw).word hrest hk (by simp [Token.NotBracket]) hop

mutual

/-- A statement comes to the same as its canonical tokens. -/
theorem Statement.Spells.alike : ∀ {room : Nat} {next : Token} {st : Statement}
    {ts : List Token}, st.Spells next ts → st.Legible room → (∀ t ∈ ts, t.Written) →
      Alike (Before next) ts st.tokens
  | _, _, .activity mode p as _, _, h, ⟨hp, has⟩, hw => by
    obtain ⟨us, rfl, href, hconfirm⟩ := h
    exact href.alike mode hp has hconfirm (List.forall_mem_append.1 hw).2
  | _, _, .check c _, _, h, ⟨hc, hact⟩, hw => by
    obtain ⟨us, rfl, hsp, -⟩ := h
    have hus := (List.forall_mem_cons.1 hw).2
    refine .of_shows ?_ ?_
    · exact (shows_condition hsp hc.fits hact hus).mono fun _ ht => ht.notBracket
    · exact (shows_condition hc.spells hc.fits hact hc.written).mono fun _ ht => ht.notBracket
  | room, _, .wait c _, _, h, hleg, hw => by
    have hc : c.Legible room := hleg
    obtain ⟨us, rfl, hsp, -⟩ := h
    simp only [List.forall_mem_cons] at hw
    exact (((hsp.alike hc.fits hw.2.2).mono fun _ => Before.notBracket).cons rfl).cons rfl
  | _, _, .assign n v _, _, h, ⟨_, hv⟩, hw => by
    obtain ⟨us, rfl, hsp, -⟩ := h
    simp only [List.forall_mem_cons] at hw
    exact (((hsp.alike hv.fits hw.2.2).mono fun _ => Before.notBracket).cons rfl).cons rfl
  | _, _, .conditional branches none _, _, h, ⟨hne, hbranches⟩, hw => by
    obtain ⟨us, rfl, hsp⟩ := h
    simp only [List.forall_mem_cons, List.forall_mem_append] at hw
    exact Block.alike_end (hsp.alike hbranches hne hw.2.1 .if_ rfl) .conditional
  | _, next, .conditional branches (some body) _, _, h, ⟨hne, hbranches, hbody⟩, hw => by
    obtain ⟨us, vs, rfl, hsp, hblock⟩ := h
    simp only [List.forall_mem_cons, List.forall_mem_append] at hw
    obtain ⟨-, hus, -, hvs, -⟩ := hw
    have hend : Alike (Before next) (vs ++ BlockKind.conditional.endTokens)
        (Block.tokens body ++ BlockKind.conditional.endTokens) :=
      Block.alike_end (hblock.alike hbody hvs) .conditional
    exact (hsp.alike hbranches hne hus .if_ rfl).word hend rfl (.keyword rfl) rfl
  | _, _, .whileLoop c body _, _, h, ⟨hc, hbody⟩, hw => by
    obtain ⟨us, vs, rfl, hsp, hblock⟩ := h
    simp only [List.forall_mem_cons, List.forall_mem_append] at hw
    obtain ⟨-, hus, -, hvs, -⟩ := hw
    exact (hsp.alike_word hc hus (Block.alike_end (hblock.alike hbody hvs) .whileLoop) rfl
      rfl).cons rfl
  | _, _, .forLoop x e body _, _, h, ⟨_, he, hbody⟩, hw => by
    obtain ⟨us, vs, rfl, hsp, hblock⟩ := h
    simp only [List.forall_mem_cons, List.forall_mem_append] at hw
    obtain ⟨-, -, -, hus, -, hvs, -⟩ := hw
    exact (((hsp.alike_word he hus (Block.alike_end (hblock.alike hbody hvs) .forLoop) rfl
      rfl).cons rfl).cons rfl).cons rfl
  | room, _, .expr v _, _, h, hleg, hw => by
    have hv : v.Legible room := hleg
    exact (Expr.Spells.alike h.1 hv.fits hw).mono fun _ => Before.notBracket

/-- The statements of a block come to the same as their canonical tokens. -/
theorem Block.Spells.alike : ∀ {room : Nat} {body : List Statement} {ts : List Token},
    Block.Spells body ts → Block.Legible room body → (∀ t ∈ ts, t.Written) →
      Alike Token.Follows ts (Block.tokens body)
  | _, [], ts, h, _, _ => by
    have halike : Alike Token.Follows (ts ++ []) [] := Alike.semicolons h .nil
    rwa [List.append_nil] at halike
  | 0, _ :: _, _, _, hleg, _ => absurd hleg Block.not_legible_zero
  | room + 1, st :: rest, _, h, ⟨hst, hrest⟩, hw => by
    obtain ⟨ss, us, vs, rfl, hss, hspell, hspells⟩ := h
    simp only [List.forall_mem_append] at hw
    refine .semicolons hss ?_
    exact (hspell.alike hst hw.2.1).append ((hspells.alike hrest hw.2.2).separated rest)
      (hspells.before hrest) (fun _ t ht => .inr ht) (head_separated hrest)

/-- Branches, with the word that the first of them begins with. -/
theorem Branch.AllSpell.alike : ∀ {room : Nat} {bs : List Branch} {ts : List Token},
    Branch.AllSpell bs ts → Branch.AllLegible room bs → bs ≠ [] → (∀ t ∈ ts, t.Written) →
      ∀ word : Keyword, (Token.keyword word).isPlain = true →
        Alike Token.Follows (.keyword word :: ts) (Branch.tokens word bs)
  | _, [], _, _, _, hne, _, _, _ => absurd rfl hne
  | _, .mk c body :: rest, _, h, ⟨hc, hbody, hlegs⟩, _, hw, word, hplain => by
    obtain ⟨us, vs, ws, rfl, hsp, hblock, hrest⟩ := h
    simp only [List.forall_mem_append, List.forall_mem_cons] at hw
    obtain ⟨hus, -, hvs, hws⟩ := hw
    have halike := hblock.alike hbody hvs
    obtain ⟨rfl, rfl⟩ | ⟨hne, xs, rfl, hxs⟩ := hrest
    · simp only [Branch.tokens, List.append_nil]
      exact (hsp.alike_word hc hus halike rfl rfl).cons hplain
    · have hothers := hxs.alike hlegs hne (List.forall_mem_cons.1 hws).2 .elsif rfl
      refine (hsp.alike_word hc hus (halike.append hothers ?_ (fun hnil => by cases hnil) ?_) rfl
        rfl).cons hplain
      · rintro t ⟨⟩
        exact .keyword rfl
      · obtain _ | ⟨⟨c', body'⟩, bs⟩ := rest
        · rintro t ⟨⟩
        · rintro t ⟨⟩
          exact .keyword rfl

end

end OpsLang
