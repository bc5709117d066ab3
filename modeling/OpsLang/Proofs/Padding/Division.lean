import OpsLang.Proofs.Padding.Item

/-!
# Rows divided into parts

What is read from a row divides the row into the parts of the tree, with semicolons between them,
so that the row is padded to itself (`Reader.Divides`). This needs no more than that the text ends
somewhere in the row : a part without blocks is spelled by its tokens in a row that is cut short
behind it, and it is read from them there (`LocalAt.divides`). Blocks, namespaces and files are
divided by their rounds (`SpacedRound.many_divides`).
-/

namespace OpsLang

/-- What is read is in the relation to the token behind it and to the row it is read from. -/
def Reader.Divides {α : Type} (r : Reader α) (D : Token → α → List Located → Prop) : Prop :=
  ∀ ⦃s a s'⦄, s.HasEnd → r s = .ok a s' → ∃ us, s.Splits us s' ∧ D s'.token a us

theorem Loosened.self {us : List Located} (h : ∀ u ∈ us, u.token = .symbol .semicolon) :
    Loosened us us :=
  ⟨.refl us, h⟩

/-! ## Rounds -/

section Rounds

variable {α : Type} {E : Token → α → List Located → List Located → Prop} {last : Token}
  {as : List α} {us : List Located}

theorem RowPadded.semicolon {u : Located} (hu : u.token = .symbol .semicolon)
    (h : RowPadded E last as us us) : RowPadded E last as (u :: us) (u :: us) := by
  cases as with
  | nil => exact .self (List.forall_mem_cons.2 ⟨hu, Loosened.left h⟩)
  | cons a rest =>
    obtain ⟨ss, ss', vs, vs', ws, ws', hts, hus, hss, hrest⟩ := h
    exact ⟨u :: ss, u :: ss', vs, vs', ws, ws', congrArg (u :: ·) hts, congrArg (u :: ·) hus,
      ⟨hss.1.cons_cons u, List.forall_mem_cons.2 ⟨hu, hss.2⟩⟩, hrest⟩

/-- A semicolon that is passed over behind a part counts among those before the next one. -/
theorem Leaves.splits {after : Stream → Stream} (h : Leaves after) {p q : Stream} (hp : p.HasEnd)
    (hus : (after p).Splits us q) (hrow : RowPadded E last as us us) :
    ∃ vs, p.Splits vs q ∧ RowPadded E last as vs vs := by
  cases h with
  | here => exact ⟨us, hus, hrow⟩
  | past =>
    unfold Stream.pastSemicolon at hus
    split at hus
    · next hsemicolon =>
      have hne : p.token ≠ .eof := by simp [hsemicolon]
      exact ⟨p.here :: us, .cons hp hne hus, hrow.semicolon hsemicolon⟩
    · exact ⟨us, hus, hrow⟩

theorem Leaves.hasEnd {after : Stream → Stream} (h : Leaves after) {p : Stream} (hp : p.HasEnd) :
    (after p).HasEnd := by
  cases h with
  | here => exact hp
  | past =>
    unfold Stream.pastSemicolon
    split
    · next hsemicolon => exact hp.advance (by simp [hsemicolon])
    · exact hp

open Reader Grammar

theorem Grammar.divides_semicolons :
    semicolons.Divides fun _ _ us => ∀ u ∈ us, u.token = .symbol .semicolon := by
  intro s x s' hs h
  rw [semicolons_run] at h
  obtain ⟨as, hmany, -⟩ := Outcome.map_eq_ok.1 h
  refine many_cases (motive := fun s _ s' => s.HasEnd →
    ∃ us, s.Splits us s' ∧ ∀ u ∈ us, u.token = .symbol .semicolon) ?stop ?pass ?item ?last hmany hs
  all_goals simp only [semicolonRound_run]
  case stop =>
    intro s s' hr hs
    split at hr
    · cases hr
    · obtain ⟨-, rfl⟩ := Outcome.ok.inj hr
      exact ⟨[], .nil, by simp⟩
  case pass =>
    intro s s₁ as s' hr _ ih hs
    split at hr
    · next ht =>
      obtain ⟨-, rfl⟩ := Outcome.ok.inj hr
      have hne : s.token ≠ .eof := by simp [ht]
      obtain ⟨us, hus, hall⟩ := ih (hs.advance hne)
      exact ⟨s.here :: us, .cons hs hne hus, List.forall_mem_cons.2 ⟨ht, hall⟩⟩
    · cases hr
  case item =>
    intro s a s₁ as s' hr
    split at hr <;> cases hr
  case last =>
    intro s a s' hr
    split at hr <;> cases hr

variable (last) in
/-- The rounds that read the parts of a row divide it into them, up to where they stop. -/
theorem SpacedRound.many_divides {round turn : Reader (Turn α)} (h : SpacedRound round turn)
    {after : Stream → Stream} (hafter : Leaves after)
    (hlast : ∀ ⦃t a us⦄, E t a us us → E last a us us)
    (hturn : ∀ ⦃s a s'⦄, s.HasEnd → turn s = .ok (.item a) s' →
      ∃ us p, s.Splits us p ∧ E p.token a us us ∧ s' = after p) :
    ∀ {as : List α} {s s' : Stream}, s.HasEnd → many round s = .ok as s' →
      ∃ q, turn q = .ok .stop s' ∧ ∃ us, s.Splits us q ∧ RowPadded E last as us us
  | [], _, _, hs, hr => by
    obtain ⟨s₁, hsemi, hstop⟩ := h.many_nil hr
    obtain ⟨ss, hss, hall⟩ := divides_semicolons hs hsemi
    exact ⟨s₁, hstop, ss, hss, .self hall⟩
  | a :: as, _, s', hs, hr => by
    obtain ⟨s₁, s₂, hsemi, hitem, hrest⟩ := h.many_cons hr
    obtain ⟨ss, hss, hall⟩ := divides_semicolons hs hsemi
    have hs₁ := hss.hasEnd hs
    obtain ⟨us, p, hus, hpart, rfl⟩ := hturn hs₁ hitem
    have hp := hus.hasEnd hs₁
    obtain ⟨q, hstop, vs, hvs, hrow⟩ := many_divides h hafter hlast hturn (hafter.hasEnd hp) hrest
    obtain ⟨ws, hws, hrow⟩ := hafter.splits hp hvs hrow
    refine ⟨q, hstop, ss ++ (us ++ ws), hss.append (hus.append hws), ss, ss, us, us, ws, ws, rfl,
      rfl, .self hall, ?_, hrow⟩
    cases ws with
    | nil => exact hlast hpart
    | cons w ws =>
      rw [hws.1] at hpart
      exact hpart

end Rounds

/-! ## Words of statements -/

/-- A statement with blocks is spelled from its word on. -/
theorem Statement.Spells.first {next : Token} {st : Statement} {ts : List Token}
    (hst : st.hasBlocks = true) (h : st.Spells next ts) :
    ∃ us, ts = .keyword st.opening :: us := by
  cases st with
  | conditional branches otherwise n =>
    cases otherwise with
    | none =>
      obtain ⟨us, rfl, -⟩ := h
      exact ⟨_, rfl⟩
    | some body =>
      obtain ⟨us, vs, rfl, -⟩ := h
      exact ⟨_, rfl⟩
  | whileLoop c body n =>
    obtain ⟨us, vs, rfl, -⟩ := h
    exact ⟨_, rfl⟩
  | forLoop x e body n =>
    obtain ⟨us, vs, rfl, -⟩ := h
    exact ⟨_, rfl⟩
  | _ => cases hst

namespace Grammar

open Reader

variable {room : Nat} {s s' : Stream}

/-! ## Pieces -/

theorem divides_expression (room : Nat) :
    (expression room).Divides fun _ e us => e.Spells (words us) := by
  intro s e s' hs hr
  obtain ⟨us, hus, hspells, -⟩ := LocalAt.divides (P := fun _ e ts => e.Spells ts)
    (local_expression room hs) (fun x x' hx _ hr => by
      obtain ⟨us, hus, hspells, -⟩ := takes_expression room hx hr
      exact ⟨us, hus, hspells⟩) hr
  exact ⟨us, hus, hspells⟩

theorem divides_path : path.Divides fun _ p us => p.Spells (words us) := by
  intro s p s' hs hr
  obtain ⟨us, hus, hspells, -⟩ := LocalAt.divides (P := fun _ p ts => p.Spells ts)
    (local_path hs) (fun x x' hx _ hr => by
      obtain ⟨us, hus, -, hspells⟩ := takes_path hx hr
      exact ⟨us, hus, hspells⟩) hr
  exact ⟨us, hus, hspells⟩

theorem divides_endOf (kind : BlockKind) (line : Nat) :
    (endOf kind line).Divides fun _ _ us => words us = kind.endTokens := by
  intro s x s' hs h
  obtain ⟨hend, hnext, rfl⟩ := endOf_eq_ok.1 h
  have hadvance : s.advance.token = .keyword kind.closer :=
    (Stream.token_advance_of_next (by simp [hnext])).trans hnext
  have hne : s.token ≠ .eof := by simp [hend]
  refine ⟨[s.here, s.advance.here], .cons hs hne ((hs.advance hne).splits_here ?_), ?_⟩
  · simp [hadvance]
  · exact congrArg₂ (fun t t' => [t, t']) hend hadvance

/-! ## Statements with blocks -/

/-- What is read as a block divides the row that it is read from. -/
def BlockReader.Divides (block : BlockReader) : Prop :=
  ∀ kind line stop, (block kind line stop).outcome.Divides fun _ body us =>
    Block.Padded body us us

section Blocks

variable {block : BlockReader} {line : Nat} {st : Statement} (hb : block.Divides)

include hb

/-- A block with its end divides the row that it is read from. -/
theorem BlockReader.Divides.before_end {kind : BlockKind} {line' : Nat} {stop : Bool} {s₁ : Stream}
    {body : Block} {u : Unit} (hs : s.HasEnd)
    (hrun : (block kind line stop).outcome s = .ok body s₁)
    (hend : endOf kind line' s₁ = .ok u s') :
    ∃ vs es, s.Splits (vs ++ es) s' ∧ Block.Padded body vs vs ∧ words es = kind.endTokens := by
  obtain ⟨vs, hvs, hpad⟩ := hb _ _ _ hs hrun
  obtain ⟨es, hes, hwords⟩ := divides_endOf _ _ (hvs.hasEnd hs) hend
  exact ⟨vs, es, hvs.append hes, hpad, hwords⟩

theorem whileLoop_divides (hs : s.HasEnd) (ht : s.token = .keyword .while_)
    (h : (whileLoop (expression room) block line).outcome s = .ok st s') :
    ∃ us, s.Splits us s' ∧ st.Padded s'.token us us := by
  obtain ⟨c, s₁, body, s₂, hc, hdo, hbody, hend, rfl⟩ := whileLoop_eq_ok.1 h
  have hne : s.token ≠ .eof := by simp [ht]
  have hne₁ : s₁.token ≠ .eof := by simp [hdo]
  obtain ⟨cs, hcs, hspells⟩ := divides_expression room (hs.advance hne) hc
  have hs₁ := hcs.hasEnd (hs.advance hne)
  obtain ⟨vs, es, hvs, hpad, hwords⟩ := hb.before_end (hs₁.advance hne₁) hbody hend
  refine ⟨s.here :: (cs ++ s₁.here :: (vs ++ es)),
    .cons hs hne (hcs.append (.cons hs₁ hne₁ hvs)), ?_⟩
  rw [Statement.Padded]
  refine ⟨s.here :: (cs ++ [s₁.here]), vs, vs, es, by simp, by simp, ⟨words cs, ?_, hspells⟩,
    hwords, hpad⟩
  rw [words_cons, words_append]
  exact congrArg₂ (fun t t' => t :: (words cs ++ [t'])) ht hdo

theorem forLoop_divides (hs : s.HasEnd) (ht : s.token = .keyword .for_)
    (h : (forLoop (expression room) block line).outcome s = .ok st s') :
    ∃ us, s.Splits us s' ∧ st.Padded s'.token us us := by
  obtain ⟨n, e, s₁, body, s₂, hn, hin, he, hdo, hbody, hend, rfl⟩ := forLoop_eq_ok.1 h
  have hne : s.token ≠ .eof := by simp [ht]
  have hne' : s.advance.token ≠ .eof := by simp [hn]
  have hne'' : s.advance.advance.token ≠ .eof := by simp [hin]
  have hne₁ : s₁.token ≠ .eof := by simp [hdo]
  have hs' := (hs.advance hne).advance hne'
  obtain ⟨cs, hcs, hspells⟩ := divides_expression room (hs'.advance hne'') he
  have hs₁ := hcs.hasEnd (hs'.advance hne'')
  obtain ⟨vs, es, hvs, hpad, hwords⟩ := hb.before_end (hs₁.advance hne₁) hbody hend
  refine ⟨s.here :: s.advance.here :: s.advance.advance.here :: (cs ++ s₁.here :: (vs ++ es)),
    .cons hs hne (.cons (hs.advance hne) hne' (.cons hs' hne''
      (hcs.append (.cons hs₁ hne₁ hvs)))), ?_⟩
  rw [Statement.Padded]
  refine ⟨s.here :: s.advance.here :: s.advance.advance.here :: (cs ++ [s₁.here]), vs, vs, es,
    by simp, by simp, ⟨words cs, ?_, hspells⟩, hwords, hpad⟩
  simp only [words_cons, words_append, words_nil]
  rw [show s.here.token = _ from ht, show s.advance.here.token = _ from hn,
    show s.advance.advance.here.token = _ from hin, show s₁.here.token = _ from hdo]

/-- A branch is its condition, with the word behind it, and its block. -/
theorem branch_divides {c : Expr} {s₁ : Stream} {body : Block} (hs : s.HasEnd)
    (hc : expression room s = .ok c s₁) (hthen : s₁.token = .keyword .then_)
    (hbody : (block .conditional line true).outcome s₁.advance = .ok body s') :
    ∃ ts vs, s.Splits (ts ++ vs) s' ∧
      (∃ cs, words ts = cs ++ [Token.keyword .then_] ∧ c.Spells cs) ∧ Block.Padded body vs vs := by
  have hne₁ : s₁.token ≠ .eof := by simp [hthen]
  obtain ⟨cs, hcs, hspells⟩ := divides_expression room hs hc
  have hs₁ := hcs.hasEnd hs
  obtain ⟨vs, hvs, hpad⟩ := hb _ _ _ (hs₁.advance hne₁) hbody
  refine ⟨cs ++ [s₁.here], vs, ?_, ⟨words cs, ?_, hspells⟩, hpad⟩
  · rw [List.append_assoc]
    exact hcs.append (.cons hs₁ hne₁ hvs)
  · rw [words_append]
    exact congrArg (fun t => words cs ++ [t]) hthen

/-- The branches behind the first word of a conditional. -/
theorem branches_divides {bs : List Branch} (hs : s.HasEnd)
    (h : many (branch (expression room) block line).outcome s = .ok bs s') :
    bs ≠ [] ∧ ∃ us, s.Splits us s' ∧ Branch.AllPadded bs us us := by
  refine many_cases (motive := fun s bs s' => s.HasEnd →
    bs ≠ [] ∧ ∃ us, s.Splits us s' ∧ Branch.AllPadded bs us us) ?stop ?pass ?item ?last h hs
  case stop =>
    intro s s' hr
    obtain ⟨_, _, _, _, -, -, -, ⟨-, h, -⟩ | ⟨-, h, -⟩⟩ := branch_eq_ok.1 hr <;> cases h
  case pass =>
    intro s s₁ bs s' hr
    obtain ⟨_, _, _, _, -, -, -, ⟨-, h, -⟩ | ⟨-, h, -⟩⟩ := branch_eq_ok.1 hr <;> cases h
  case item =>
    intro s b s₃ bs s' hr _ ih hs
    obtain ⟨c, s₁, body, s₂, hc, hthen, hbody, ⟨helsif, hitem, rfl⟩ | ⟨-, h, -⟩⟩ :=
      branch_eq_ok.1 hr
    · obtain rfl := Turn.item.inj hitem
      have hne₂ : s₂.token ≠ .eof := by simp [helsif]
      obtain ⟨ts, vs, hvs, hhead, hpad⟩ := branch_divides hb hs hc hthen hbody
      have hs₂ := hvs.hasEnd hs
      obtain ⟨hne, ws, hws, hrest⟩ := ih (hs₂.advance hne₂)
      refine ⟨by simp, ts ++ (vs ++ s₂.here :: ws), ?_, ts, vs, vs, _, _, rfl, rfl, hhead, hpad,
        .inr ⟨hne, s₂.here, ws, ws, rfl, rfl, helsif, hrest⟩⟩
      rw [← List.append_assoc]
      exact hvs.append (.cons hs₂ hne₂ hws)
    · cases h
  case last =>
    intro s b s' hr hs
    obtain ⟨c, s₁, body, s₂, hc, hthen, hbody, ⟨-, h, -⟩ | ⟨-, hlast, rfl⟩⟩ := branch_eq_ok.1 hr
    · cases h
    · obtain rfl := Turn.last.inj hlast
      obtain ⟨ts, vs, hvs, hhead, hpad⟩ := branch_divides hb hs hc hthen hbody
      exact ⟨by simp, ts ++ vs, hvs, ts, vs, vs, [], [], by simp, by simp, hhead, hpad,
        .inl ⟨rfl, rfl, rfl⟩⟩

theorem conditional_divides (hs : s.HasEnd) (ht : s.token = .keyword .if_)
    (h : (conditional (expression room) block line).outcome s = .ok st s') :
    ∃ us, s.Splits us s' ∧ st.Padded s'.token us us := by
  obtain ⟨bs, s₁, rest, s₂, hbs, hrest, hend, rfl⟩ := conditional_eq_ok.1 h
  have hne : s.token ≠ .eof := by simp [ht]
  obtain ⟨-, us, hus, hpad⟩ := branches_divides hb (hs.advance hne) hbs
  have hs₁ := hus.hasEnd (hs.advance hne)
  have hword : words [s.here] = [.keyword .if_] := congrArg (fun t => [t]) ht
  rw [otherwise_run] at hrest
  split at hrest
  · next helse =>
    have hne₁ : s₁.token ≠ .eof := by simp [helse]
    obtain ⟨body, hbody, rfl⟩ := Outcome.map_eq_ok.1 hrest
    obtain ⟨vs, es, hvs, hblock, hwords⟩ := hb.before_end (hs₁.advance hne₁) hbody hend
    refine ⟨s.here :: (us ++ s₁.here :: (vs ++ es)),
      .cons hs hne (hus.append (.cons hs₁ hne₁ hvs)), ?_⟩
    rw [Statement.Padded]
    exact ⟨[s.here], us ++ s₁.here :: vs, us ++ s₁.here :: vs, es, by simp, by simp, hword, hwords,
      us, us, s₁.here, vs, vs, rfl, rfl, helse, hpad, hblock⟩
  · obtain ⟨rfl, rfl⟩ := Outcome.ok.inj hrest
    obtain ⟨es, hes, hwords⟩ := divides_endOf _ _ hs₁ hend
    refine ⟨s.here :: (us ++ es), .cons hs hne (hus.append hes), ?_⟩
    rw [Statement.Padded]
    exact ⟨[s.here], us, us, es, rfl, rfl, hword, hwords, hpad⟩

/-! ## Statements and blocks -/

theorem divides_bareStatement
    (htakes : ∀ kind line stop, (block kind line stop).outcome.Takes (BlockRead room))
    (hhalts : ∀ kind line stop, (block kind line stop).outcome.Halts) :
    (bareStatement (expression room) block line).outcome.Divides fun next st us =>
      st.Padded next us us := by
  intro s st s' hs hr
  by_cases hopen : ∃ k, (k = .if_ ∨ k = .while_ ∨ k = .for_) ∧ s.token = .keyword k
  · obtain ⟨k, hk, ht⟩ := hopen
    rw [bareStatement_run, ht] at hr
    obtain rfl | rfl | rfl := hk
    · exact conditional_divides hb hs ht hr
    · exact whileLoop_divides hb hs ht hr
    · exact forLoop_divides hb hs ht hr
  · have hlocal : LocalAt .firm .loose (bareStatement (expression room) block line).outcome s :=
      localAt_bareStatement hs fun k hk ht => hopen ⟨k, hk, ht⟩
    obtain ⟨us, hus, hspells, hrun⟩ := hlocal.divides (P := fun t st ts => st.Spells t ts)
      (fun x x' hx _ hr => by
        obtain ⟨vs, hvs, hread⟩ := bareStatement_read htakes hx hr
        exact ⟨vs, hvs, hread.spells⟩) hr
    have hne : us ≠ [] := ne_nil_of_proceeds
      (proceeds_bareStatement (proceeds_expression room) hhalts line) fun t ht => hrun ht.loose
    have hst : st.hasBlocks = false := by
      by_contra hst
      obtain ⟨vs, hvs⟩ := hspells.first (by simpa using hst)
      obtain ⟨u, us, rfl, hu, -⟩ := words_eq_cons.1 hvs
      refine hopen ⟨st.opening, ?_, ?_⟩
      · cases st <;> simp [Statement.opening]
      · rw [hus.1]
        exact hu
    exact ⟨us, hus, (Statement.padded_iff hst).2 ⟨rfl, hne, hspells⟩⟩

end Blocks

/-- The statements of a block, with the semicolons that are passed over between them. -/
theorem divides_statements (room : Nat) : (statements .strict room).Divides := by
  induction room with
  | zero => exact fun _ _ _ _ _ _ _ hr => by cases hr
  | succ room ih =>
    intro kind line stop s body s' hs h
    rw [statements, Reporter.outcome_many] at h
    obtain ⟨q, hstop, us, hus, hrow⟩ := spacedRound_block.many_divides (.keyword .end_) .past
      (E := fun next (st : Statement) => st.Padded next) (fun _ _ _ h => h.before_keyword rfl)
      (fun _ st _ hs hr => by
        obtain ⟨-, -, hst⟩ := blockTurn_item.1 hr
        obtain ⟨p, hbare, rfl⟩ := statement_eq_ok.1 hst
        obtain ⟨us, hus, hpad⟩ := divides_bareStatement ih (takes_statements room)
          (halts_statements .strict room) hs hbare
        exact ⟨us, p, hus, hpad, rfl⟩) hs h
    obtain rfl := eq_of_blockTurn_stop hstop
    exact ⟨us, hus, Block.padded_iff.2 hrow⟩

/-! ## Declarations -/

theorem typeDeclaration_divides (hs : s.HasEnd) (ht : s.token = .keyword .type) {d : Declaration}
    (h : typeDeclaration (typeAt room) s = .ok d s') :
    ∃ us, s.Splits us s' ∧ d.Padded us us := by
  obtain ⟨us, hus, hspells, -⟩ := LocalAt.divides (P := fun _ d ts => d.Spells ts)
    (localAt_typeDeclaration room hs (by simp [ht])) (fun x x' hx hx' hr => by
      obtain ⟨us, hus, hread⟩ := typeDeclaration_read hx (hx'.trans ht) hr
      exact ⟨us, hus, hread.spells⟩) h
  cases d with
  | space p ds line =>
    obtain ⟨ps, cs, hwords, -⟩ := hspells
    obtain ⟨u, us, rfl, hu, -⟩ := words_eq_cons.1 hwords
    have htoken : s.token = u.token := by rw [hus.1, Stream.token_behind_cons]
    rw [htoken, hu] at ht
    cases ht
  | type n body line => exact ⟨us, hus, rfl, hspells⟩

section Inner

variable {inner : Reader Declaration}
  (hi : inner.Divides fun _ (d : Declaration) us => d.Padded us us)

include hi

/-- The children of a namespace, with the brace behind them. -/
theorem children_divides {ds : List Declaration} (hs : s.HasEnd)
    (h : many (childRound inner) s = .ok ds s') :
    ∃ (us : List Located) (e : Located), s.Splits (us ++ [e]) s' ∧
      e.token = .symbol .rightBrace ∧ Declaration.AllPadded ds us us := by
  obtain ⟨q, hstop, us, hus, hrow⟩ := spacedRound_child.many_divides .eof .here
    (E := fun _ (d : Declaration) => d.Padded) (fun _ _ _ h => h)
    (fun _ d _ hs hr => by
      obtain ⟨us, hus, hpad⟩ := hi hs (childHere_item hr)
      exact ⟨us, _, hus, hpad, rfl⟩) hs h
  obtain ⟨hbrace, rfl⟩ := childHere_stop hstop
  exact ⟨us, q.here, hus.append ((hus.hasEnd hs).splits_here (by simp [hbrace])), hbrace,
    (Declaration.allPadded_iff .eof).2 hrow⟩

theorem namespaceDeclaration_divides (hs : s.HasEnd) (ht : s.token = .keyword .namespace_)
    {d : Declaration} (h : namespaceDeclaration inner s = .ok d s') :
    ∃ us, s.Splits us s' ∧ d.Padded us us := by
  obtain ⟨p, s₁, ds, hp, hbrace, hds, rfl⟩ := namespaceDeclaration_eq_ok.1 h
  have hne : s.token ≠ .eof := by simp [ht]
  have hne₁ : s₁.token ≠ .eof := by simp [hbrace]
  obtain ⟨ps, hps, hspells⟩ := divides_path (hs.advance hne) hp
  have hs₁ := hps.hasEnd (hs.advance hne)
  obtain ⟨vs, e, hvs, he, hpad⟩ := children_divides hi (hs₁.advance hne₁) hds
  refine ⟨s.here :: (ps ++ s₁.here :: (vs ++ [e])),
    .cons hs hne (hps.append (.cons hs₁ hne₁ hvs)), ?_⟩
  rw [Declaration.Padded]
  refine ⟨s.here :: (ps ++ [s₁.here]), vs, vs, [e], by simp, by simp, ⟨words ps, ?_, hspells⟩,
    congrArg (fun t => [t]) he, hpad⟩
  rw [words_cons, words_append]
  exact congrArg₂ (fun t t' => t :: (words ps ++ [t'])) ht hbrace

end Inner

theorem divides_declarationAt (room : Nat) :
    (declarationAt room).Divides fun _ (d : Declaration) us => d.Padded us us := by
  induction room with
  | zero => exact fun _ _ _ _ hr => by cases hr
  | succ room ih =>
    intro s d s' hs hr
    rw [declarationAt, declarationOf_run] at hr
    split at hr
    · next ht => exact namespaceDeclaration_divides ih hs ht hr
    · next ht => exact typeDeclaration_divides hs ht hr
    · cases hr

/-! ## Procedures and items -/

theorem section_divides {kind : BlockKind} {body : Block} (hs : s.HasEnd)
    (ht : s.token = .keyword kind.closer) (h : sectionAt room kind s = .ok body s') :
    ∃ us, s.Splits us s' ∧ SectionPadded kind body us us := by
  obtain ⟨s₁, hbody, hend⟩ := sectionAt_eq_ok.1 h
  have hne : s.token ≠ .eof := by simp [ht]
  obtain ⟨us, es, hus, hpad, hwords⟩ :=
    (divides_statements room).before_end (hs.advance hne) hbody hend
  exact ⟨s.here :: (us ++ es), .cons hs hne hus, [s.here], us, us, es, rfl, rfl,
    congrArg (fun t => [t]) ht, hwords, hpad⟩

theorem divides_optionalSection (kind : BlockKind) :
    (optionalSectionAt room kind).Divides fun _ body us =>
      OptionalSectionPadded kind body us us := by
  intro s body s' hs hr
  rw [optionalSectionAt_run] at hr
  split at hr
  · next ht =>
    obtain ⟨body, hbody, rfl⟩ := Outcome.map_eq_ok.1 hr
    exact section_divides hs ht hbody
  · obtain ⟨rfl, rfl⟩ := Outcome.ok.inj hr
    exact ⟨[], .nil, rfl, rfl⟩

theorem divides_procedureAt (room : Nat) :
    (procedureAt room).Divides fun _ (p : Procedure) us => p.Padded us us := by
  intro s p s' hs hr
  obtain ⟨n, pre, s₁, main, s₂, conf, s₃, hword, hn, hpre, hm, hmain, hconf, hend, rfl⟩ :=
    procedureAt_eq_ok.1 hr
  have hne : s.token ≠ .eof := by simp [hword]
  have hne' : s.advance.token ≠ .eof := by simp [hn]
  have hs' := (hs.advance hne).advance hne'
  obtain ⟨ps, hps, hprepad⟩ := divides_optionalSection _ hs' hpre
  have hs₁ := hps.hasEnd hs'
  have hcloser : s₁.token = .keyword BlockKind.main.closer := hm
  obtain ⟨ms, hms, hmainpad⟩ := section_divides hs₁ hcloser hmain
  have hs₂ := hms.hasEnd hs₁
  obtain ⟨cs, hcs, hconfpad⟩ := divides_optionalSection _ hs₂ hconf
  obtain ⟨es, hes, hwords⟩ := divides_endOf _ _ (hcs.hasEnd hs₂) hend
  refine ⟨s.here :: s.advance.here :: (ps ++ (ms ++ (cs ++ es))),
    .cons hs hne (.cons (hs.advance hne) hne' (hps.append (hms.append (hcs.append hes)))),
    [s.here, s.advance.here], ps ++ (ms ++ cs), ps ++ (ms ++ cs), es, by simp, by simp, ?_, hwords,
    ps, ps, ms, ms, cs, cs, rfl, rfl, hprepad, hmainpad, hconfpad⟩
  exact congrArg₂ (fun t t' => [t, t']) hword hn

theorem divides_itemAt (room : Nat) :
    (itemAt room).Divides fun _ (i : Item) us => i.Padded us us := by
  intro s i s' hs hr
  rw [itemAt_run] at hr
  split at hr
  · obtain ⟨p, hp, rfl⟩ := Outcome.map_eq_ok.1 hr
    exact divides_procedureAt room hs hp
  · obtain ⟨d, hd, rfl⟩ := Outcome.map_eq_ok.1 hr
    exact divides_declarationAt (room + 1) hs hd
  · obtain ⟨d, hd, rfl⟩ := Outcome.map_eq_ok.1 hr
    exact divides_declarationAt (room + 1) hs hd
  · cases hr

/-- The items of a file, up to the end of the text. -/
theorem items_divides {is : List Item} (hs : s.HasEnd)
    (h : many (fileRoundAt room) s = .ok is s') :
    s'.token = .eof ∧ ∃ us, s.Splits us s' ∧
      RowPadded (fun _ (i : Item) => i.Padded) .eof is us us := by
  obtain ⟨q, hstop, hus⟩ := spacedRound_file.many_divides .eof .here
    (E := fun _ (i : Item) => i.Padded) (fun _ _ _ h => h)
    (fun _ i _ hs hr => by
      obtain ⟨us, hus, hpad⟩ := divides_itemAt room hs (itemTurn_item hr).2
      exact ⟨us, _, hus, hpad, rfl⟩) hs h
  obtain ⟨he, rfl⟩ := itemTurn_stop hstop
  exact ⟨he, hus⟩

end Grammar

end OpsLang
