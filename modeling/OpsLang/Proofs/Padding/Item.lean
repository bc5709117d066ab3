import OpsLang.Proofs.Padding.Statement

/-!
# Items with more semicolons

`Item.Padded` relates a row of an item to one with more semicolons in its blocks, or behind the
opening braces of its namespaces and behind their children. An item that is read from the first
row is read from the second (`padsAt_itemAt`).
-/

namespace OpsLang

/-! ## Padded items -/

mutual

/-- The row `us` is the row `ts` of the declaration, with semicolons put into its namespaces. -/
def Declaration.Padded : Declaration → List Located → List Located → Prop
  | .space p ds _, ts, us =>
    Enclosed (fun hs => ∃ ps, hs = .keyword .namespace_ :: (ps ++ [.symbol .leftBrace]) ∧
      p.Spells ps) [.symbol .rightBrace] (Declaration.AllPadded ds) ts us
  | d, ts, us => us = ts ∧ d.Spells (words ts)

/-- The row `us` is the row `ts` of the children of a namespace, with semicolons put before,
between and behind them, and into their namespaces. -/
def Declaration.AllPadded : List Declaration → List Located → List Located → Prop
  | [], ts, us => Loosened ts us
  | d :: ds, ts, us =>
    ∃ ss ss' vs vs' ws ws', ts = ss ++ (vs ++ ws) ∧ us = ss' ++ (vs' ++ ws') ∧ Loosened ss ss' ∧
      d.Padded vs vs' ∧ Declaration.AllPadded ds ws ws'

end

/-- The row `us` is the row `ts` of a section, with semicolons put into its block. -/
def SectionPadded (kind : BlockKind) (body : Block) : List Located → List Located → Prop :=
  Enclosed (· = [.keyword kind.closer]) kind.endTokens (Block.Padded body)

/-- The row `us` is the row `ts` of a section that may be missing, with semicolons put into its
block. -/
def OptionalSectionPadded (kind : BlockKind) : Option Block → List Located → List Located → Prop
  | some body, ts, us => SectionPadded kind body ts us
  | none, ts, us => ts = [] ∧ us = []

/-- The row `us` is the row `ts` of the procedure, with semicolons put into its blocks. -/
def Procedure.Padded (p : Procedure) : List Located → List Located → Prop :=
  Enclosed (· = [.keyword .procedure, .name p.name]) BlockKind.procedure.endTokens fun vs vs' =>
    ∃ ps ps' ms ms' cs cs', vs = ps ++ (ms ++ cs) ∧ vs' = ps' ++ (ms' ++ cs') ∧
      OptionalSectionPadded .preconditions p.preconditions ps ps' ∧
        SectionPadded .main p.main ms ms' ∧
          OptionalSectionPadded .confirmation p.confirmation cs cs'

/-- The row `us` is the row `ts` of the item, with semicolons put into its blocks or
namespaces. -/
def Item.Padded : Item → List Located → List Located → Prop
  | .procedure p => p.Padded
  | .declaration d => d.Padded

/-- Children are parts of a namespace as they are of any row. -/
theorem Declaration.allPadded_iff (last : Token) : ∀ {ds : List Declaration}
    {ts us : List Located}, Declaration.AllPadded ds ts us ↔
      RowPadded (fun _ (d : Declaration) => d.Padded) last ds ts us
  | [], _, _ => by simp only [Declaration.AllPadded, RowPadded]
  | d :: ds, _, _ => by
    simp only [Declaration.AllPadded, RowPadded, allPadded_iff last]

/-! ### Where padded rows begin -/

section First

variable {ts us : List Located}

theorem Declaration.Padded.first {d : Declaration} (h : d.Padded ts us) :
    ∃ v ws ws' k, ts = v :: ws ∧ us = v :: ws' ∧ v.token = .keyword k ∧
      match d with
      | .space _ _ _ => k = .namespace_
      | .type _ _ _ => k = .type := by
  cases d with
  | space p ds line =>
    rw [Declaration.Padded] at h
    obtain ⟨v, ws, ws', hts, hus, hv⟩ := h.first fun _ ⟨ps, hhs, _⟩ => ⟨_, hhs⟩
    exact ⟨v, ws, ws', _, hts, hus, hv, rfl⟩
  | type n body line =>
    obtain ⟨rfl, vs, hvs, -⟩ := h
    obtain ⟨v, ws, rfl, hv, -⟩ := words_eq_cons.1 hvs
    exact ⟨v, ws, ws, _, rfl, rfl, hv, rfl⟩

theorem SectionPadded.first {kind : BlockKind} {body : Block} (h : SectionPadded kind body ts us) :
    ∃ v ws ws', ts = v :: ws ∧ us = v :: ws' ∧ v.token = .keyword kind.closer :=
  Enclosed.first h fun _ hhs => ⟨[], hhs⟩

theorem Item.Padded.first {i : Item} (h : i.Padded ts us) :
    ∃ v ws ws', ts = v :: ws ∧ us = v :: ws' ∧ v.token ≠ .symbol .semicolon := by
  cases i with
  | procedure p =>
    have hp : p.Padded ts us := h
    obtain ⟨v, ws, ws', hts, hus, hv⟩ := Enclosed.first hp fun _ hhs => ⟨_, hhs⟩
    exact ⟨v, ws, ws', hts, hus, by simp [hv]⟩
  | declaration d =>
    have hd : d.Padded ts us := h
    obtain ⟨v, ws, ws', k, hts, hus, hv, -⟩ := hd.first
    exact ⟨v, ws, ws', hts, hus, by simp [hv]⟩

/-- Rows go on in the same way before an optional section, if they do behind it. -/
theorem OptionalSectionPadded.joins {kind : BlockKind} {body : Option Block} {x t : Stream}
    (h : OptionalSectionPadded kind body ts us) (ht : Seam.firm.Joins x t) :
    Seam.firm.Joins (x.behind ts) (t.behind us) := by
  cases body with
  | none =>
    obtain ⟨rfl, rfl⟩ := h
    exact ht
  | some body =>
    obtain ⟨v, ws, ws', rfl, rfl, -⟩ := SectionPadded.first h
    rfl

end First

namespace Grammar

open Reader

variable {room : Nat} {s s' x : Stream} {ts us : List Located}

/-! ## Declarations -/

theorem padsAt_path (hx : x.HasEnd) {p : Path} (hp : p.Spells (words ts)) :
    PadsAt .loose path p ts ts x := by
  refine LocalAt.exact (P := fun _ p ts => p.Spells ts) (local_path (hx.behind ts)) ?_ ?_ hp
  · intro s s' hs _ hr
    obtain ⟨us, hus, -, hspells⟩ := takes_path hs hr
    exact ⟨us, hus, hspells⟩
  · exact fun _ _ _ _ _ _ h h' heq => p.prefixFree h h' heq

theorem padsAt_typeDeclaration (hx : x.HasEnd) {n : String} {body : TypeBody} {line : Nat}
    (h : (Declaration.type n body line).Spells (words ts)) :
    PadsAt .loose (typeDeclaration (typeAt room)) (.type n body line) ts ts x := by
  have ht : (x.behind ts).token = .keyword .type := by
    obtain ⟨us, hus, -⟩ := h
    obtain ⟨v, ws, rfl, hv, -⟩ := words_eq_cons.1 hus
    exact hv
  refine LocalAt.exact (P := fun _ d ts => d.Spells ts)
    (localAt_typeDeclaration room (hx.behind ts) (by simp [ht])) ?_ ?_ h
  · intro s s' hs hs' hr
    obtain ⟨us, hus, hread⟩ := typeDeclaration_read hs (hs'.trans ht) hr
    exact ⟨us, hus, hread.spells⟩
  · exact fun _ _ _ _ _ _ h h' heq => Declaration.prefixFree_type n body line h h' heq

theorem spacedRound_child {inner : Reader Declaration} :
    SpacedRound (childRound inner) (childHere inner) where
  run _ := rfl
  turns s t s' h := by
    rw [childHere_run] at h
    split at h
    · cases h
      exact .inl rfl
    · obtain ⟨d, -, rfl⟩ := Outcome.map_eq_ok.1 h
      exact .inr ⟨d, rfl⟩
    · obtain ⟨d, -, rfl⟩ := Outcome.map_eq_ok.1 h
      exact .inr ⟨d, rfl⟩
    · cases h

theorem childHere_stop {inner : Reader Declaration} (h : childHere inner s = .ok .stop s') :
    s.token = .symbol .rightBrace ∧ s' = s.advance := by
  rw [childHere_run] at h
  split at h
  · next hbrace => exact ⟨hbrace, (Outcome.ok.inj h).2.symm⟩
  · obtain ⟨_, -, h⟩ := Outcome.map_eq_ok.1 h
    cases h
  · obtain ⟨_, -, h⟩ := Outcome.map_eq_ok.1 h
    cases h
  · cases h

theorem childHere_item {inner : Reader Declaration} {d : Declaration}
    (h : childHere inner s = .ok (.item d) s') : inner s = .ok d s' := by
  rw [childHere_run] at h
  split at h
  · cases h
  · obtain ⟨d', hd, heq⟩ := Outcome.map_eq_ok.1 h
    rwa [← Turn.item.inj heq]
  · obtain ⟨d', hd, heq⟩ := Outcome.map_eq_ok.1 h
    rwa [← Turn.item.inj heq]
  · cases h

theorem childHere_padded {inner : Reader Declaration} {d : Declaration}
    (hinner : PadsAt .loose inner d ts us x) (h : d.Padded ts us)
    (hr : childHere inner (x.behind ts) = .ok (.item d) s') :
    s' = x ∧ ∀ ⦃t⦄, Seam.loose.Joins x t → childHere inner (t.behind us) = .ok (.item d) t := by
  obtain ⟨v, ws, ws', k, rfl, rfl, hv, hk⟩ := h.first
  have hrun : ∀ s : Stream, s.token = v.token → childHere inner s = (inner s).map .item := by
    intro s hs
    rw [childHere_run, hs, hv]
    cases d <;> cases hk <;> rfl
  obtain ⟨rfl, hpad⟩ := hinner (childHere_item hr)
  refine ⟨rfl, fun t ht => ?_⟩
  rw [hrun _ rfl, hpad ht, Outcome.map_ok]

theorem partsBegin_declaration : PartsBegin fun _ (d : Declaration) => d.Padded := by
  intro next d ts us h
  obtain ⟨v, ws, ws', k, rfl, rfl, hv, -⟩ := h.first
  exact ⟨v, ws, ws', rfl, rfl, by simp [hv]⟩

theorem padsAt_namespace {inner : Reader Declaration}
    (hinner : ∀ ⦃d ts us x⦄, Stream.HasEnd x → d.Padded ts us → PadsAt .loose inner d ts us x)
    (hx : x.HasEnd) {p : Path} {ds : List Declaration} {line : Nat}
    (h : (Declaration.space p ds line).Padded ts us) :
    PadsAt .loose (namespaceDeclaration inner) (.space p ds line) ts us x := by
  rw [Declaration.Padded] at h
  obtain ⟨hs, vs, vs', es, rfl, rfl, ⟨ps, hhs, hp⟩, hes, hds⟩ := h
  obtain ⟨k, hs, rfl, -, hhs⟩ := words_eq_cons.1 hhs
  obtain ⟨ps, bs, rfl, rfl, hbs⟩ := words_eq_append.1 hhs
  obtain ⟨b, rfl, hb⟩ := words_eq_singleton.1 hbs
  obtain ⟨e, rfl, he⟩ := words_eq_singleton.1 hes
  intro s' hr
  simp only [List.cons_append, List.append_assoc, List.nil_append] at hr ⊢
  obtain ⟨_, s₁, _, hprun, -, hmany, heq⟩ := namespaceDeclaration_eq_ok.1 hr
  obtain ⟨rfl, rfl, rfl⟩ := Declaration.space.inj heq
  rw [Stream.advance_behind_cons, Stream.behind_append] at hprun
  obtain ⟨rfl, hppad⟩ := padsAt_path (hx.behind _) hp hprun
  rw [Stream.advance_behind_cons, Stream.behind_append] at hmany
  -- The closing brace is what the rounds stop at, and they take it.
  have hclose : ∀ t : Stream, childHere inner (t.behind [e]) = .ok .stop t := fun t => by
    rw [childHere_run, Stream.token_behind_cons, he, Stream.advance_behind_cons, Stream.behind_nil]
  obtain ⟨hstop, hpad⟩ := many_padded spacedRound_child .here partsBegin_declaration
    (x := x.behind [e]) (by simp [he]) (hx.behind [e]) (fun _ _ _ h => h)
    (fun _ _ _ _ _ hp hd hrun => childHere_padded (hinner hp hd) hd hrun)
    ((Declaration.allPadded_iff .eof).1 hds) hmany
  rw [hclose] at hstop
  obtain ⟨-, rfl⟩ := Outcome.ok.inj hstop
  refine ⟨rfl, fun t _ => namespaceDeclaration_eq_ok.2
    ⟨p, t.behind (b :: (vs' ++ [e])), ds, ?_, hb, ?_, rfl⟩⟩
  · rw [Stream.advance_behind_cons, Stream.behind_append]
    exact hppad (.inl rfl)
  · rw [Stream.advance_behind_cons, Stream.behind_append]
    exact hpad rfl (hclose t)

theorem padsAt_declarationAt : ∀ (room : Nat) ⦃d ts us x⦄, Stream.HasEnd x → d.Padded ts us →
    PadsAt .loose (declarationAt room) d ts us x
  | 0, _, _, _, _, _, _, _, hr => by cases hr
  | room + 1, d, ts, us, x, hx, h, s', hr => by
    obtain ⟨v, ws, ws', k, rfl, rfl, hv, hk⟩ := h.first
    have hword : ∀ t : Stream, (t.behind (v :: ws)).token = .keyword k ∧
        (t.behind (v :: ws')).token = .keyword k := fun _ => ⟨hv, hv⟩
    cases d with
    | space p ds line =>
      obtain rfl : k = .namespace_ := hk
      simp only [declarationAt, declarationOf_run, hword] at hr ⊢
      exact padsAt_namespace (padsAt_declarationAt room) hx h hr
    | type n body line =>
      obtain rfl : k = .type := hk
      simp only [declarationAt, declarationOf_run, hword] at hr ⊢
      obtain ⟨hus, hspells⟩ := h
      rw [hus]
      exact padsAt_typeDeclaration hx hspells hr

/-! ## Procedures -/

theorem padsAt_section {kind : BlockKind} {body : Block} (hx : x.HasEnd)
    (h : SectionPadded kind body ts us) : PadsAt .loose (sectionAt room kind) body ts us x := by
  obtain ⟨hs, vs, vs', es, rfl, rfl, hhs, hes, hbody⟩ := h
  obtain ⟨k, rfl, -⟩ := words_eq_singleton.1 hhs
  intro s' hr
  simp only [List.singleton_append] at hr ⊢
  obtain ⟨s₁, hrun, hend⟩ := sectionAt_eq_ok.1 hr
  rw [Stream.advance_behind_cons] at hrun
  obtain ⟨rfl, hpad⟩ := (pads_statements room).before_end hx hbody hes hrun hend
  refine ⟨rfl, fun t _ => sectionAt_eq_ok.2 ⟨t.behind es, ?_, endOf_of_words hes⟩⟩
  rw [Stream.advance_behind_cons]
  exact hpad t

theorem padsAt_optionalSection {kind : BlockKind} {body : Option Block} (hx : x.HasEnd)
    (h : OptionalSectionPadded kind body ts us) :
    PadsAt .firm (optionalSectionAt room kind) body ts us x := by
  intro s' hr
  cases body with
  | none =>
    obtain ⟨rfl, rfl⟩ := h
    rw [Stream.behind_nil, optionalSectionAt_run] at hr
    split at hr
    · obtain ⟨_, -, h⟩ := Outcome.map_eq_ok.1 hr
      cases h
    · next hne =>
      obtain ⟨-, rfl⟩ := Outcome.ok.inj hr
      refine ⟨rfl, fun t ht => ?_⟩
      rw [Stream.behind_nil, optionalSectionAt_run, if_neg (by rwa [ht.token_eq])]
  | some body =>
    have hsection : SectionPadded kind body ts us := h
    obtain ⟨v, ws, ws', rfl, rfl, hv⟩ := hsection.first
    have hrun : ∀ (t : Stream) (ws : List Located), optionalSectionAt room kind
        (t.behind (v :: ws)) = (sectionAt room kind (t.behind (v :: ws))).map some := fun t ws => by
      rw [optionalSectionAt_run]
      exact if_pos hv
    rw [hrun] at hr
    obtain ⟨body', hr, heq⟩ := Outcome.map_eq_ok.1 hr
    obtain rfl := (Option.some.inj heq).symm
    obtain ⟨rfl, hpad⟩ := padsAt_section hx hsection hr
    refine ⟨rfl, fun t ht => ?_⟩
    rw [hrun, hpad ht.loose, Outcome.map_ok]

theorem padsAt_procedure {p : Procedure} (hx : x.HasEnd) (h : p.Padded ts us) :
    PadsAt .loose (procedureAt room) p ts us x := by
  obtain ⟨hs, _, _, es, rfl, rfl, hhs, hes, ps, ps', ms, ms', cs, cs', rfl, rfl, hps, hms, hcs⟩ := h
  obtain ⟨k, hs, rfl, hk, hhs⟩ := words_eq_cons.1 hhs
  obtain ⟨n, rfl, hn⟩ := words_eq_singleton.1 hhs
  intro s' hr
  simp only [List.cons_append, List.append_assoc, List.nil_append] at hr ⊢
  obtain ⟨_, _, s₁, _, s₂, _, s₃, -, -, hpre, -, hmain, hconf, hend, rfl⟩ :=
    procedureAt_eq_ok.1 hr
  simp only [Stream.advance_behind_cons] at hpre
  rw [Stream.behind_append] at hpre
  obtain ⟨rfl, hprepad⟩ := padsAt_optionalSection (hx.behind _) hps hpre
  rw [Stream.behind_append] at hmain
  obtain ⟨rfl, hmainpad⟩ := padsAt_section (hx.behind _) hms hmain
  rw [Stream.behind_append] at hconf
  obtain ⟨rfl, hconfpad⟩ := padsAt_optionalSection (hx.behind es) hcs hconf
  rw [endOf_of_words hes] at hend
  obtain ⟨-, rfl⟩ := Outcome.ok.inj hend
  obtain ⟨m, ws, ws', rfl, rfl, hm⟩ := hms.first
  refine ⟨rfl, fun t _ => procedureAt_eq_ok.2 ⟨_, _, t.behind (m :: ws' ++ (cs' ++ es)), _,
    t.behind (cs' ++ es), _, t.behind es, hk, hn, ?_, hm, ?_, ?_, endOf_of_words hes, rfl⟩⟩
  · simp only [Stream.advance_behind_cons]
    rw [Stream.behind_append]
    exact hprepad rfl
  · rw [Stream.behind_append]
    refine hmainpad (Seam.Joins.loose (j := .firm) ?_)
    rw [Stream.behind_append, Stream.behind_append]
    exact hcs.joins (joins_of_words hes t)
  · rw [Stream.behind_append]
    exact hconfpad (joins_of_words hes t)

/-! ## Items -/

theorem padsAt_itemAt {i : Item} (hx : x.HasEnd) (h : i.Padded ts us) :
    PadsAt .loose (itemAt room) i ts us x := by
  intro s' hr
  cases i with
  | procedure p =>
    have hp : p.Padded ts us := h
    obtain ⟨v, ws, ws', rfl, rfl, hv⟩ := Enclosed.first hp fun _ hhs => ⟨_, hhs⟩
    have hrun : ∀ (t : Stream) (ws : List Located), itemAt room (t.behind (v :: ws)) =
        (procedureAt room (t.behind (v :: ws))).map .procedure := fun t ws => by
      rw [itemAt_run, Stream.token_behind_cons, hv]
    rw [hrun] at hr
    obtain ⟨p', hr, heq⟩ := Outcome.map_eq_ok.1 hr
    obtain rfl := (Item.procedure.inj heq).symm
    obtain ⟨rfl, hpad⟩ := padsAt_procedure hx hp hr
    refine ⟨rfl, fun t ht => ?_⟩
    rw [hrun, hpad ht, Outcome.map_ok]
  | declaration d =>
    have hd : d.Padded ts us := h
    obtain ⟨v, ws, ws', k, rfl, rfl, hv, hk⟩ := hd.first
    have hrun : ∀ (t : Stream) (ws : List Located), itemAt room (t.behind (v :: ws)) =
        (declaration room (t.behind (v :: ws))).map .declaration := fun t ws => by
      rw [itemAt_run, Stream.token_behind_cons, hv]
      cases d <;> cases hk <;> rfl
    rw [hrun] at hr
    obtain ⟨d', hr, heq⟩ := Outcome.map_eq_ok.1 hr
    obtain rfl := (Item.declaration.inj heq).symm
    obtain ⟨rfl, hpad⟩ := padsAt_declarationAt (room + 1) hx hd hr
    refine ⟨rfl, fun t ht => ?_⟩
    rw [hrun, show declaration room = declarationAt (room + 1) from rfl, hpad ht, Outcome.map_ok]

theorem partsBegin_item : PartsBegin fun _ (i : Item) => i.Padded :=
  fun _ _ _ _ h => Item.Padded.first h

/-- What a round of a file does behind the semicolons before it. -/
def itemTurn (room : Nat) : Reader (Turn Item) := fun s =>
  if s.token = .eof then .ok .stop s else (itemAt room s).map .item

theorem spacedRound_file : SpacedRound (fileRoundAt room) (itemTurn room) where
  run s := by
    simp only [fileRoundAt, bind_run, peek_run, Outcome.andThen_ok, ite_run]
    rfl
  turns s t s' h := by
    unfold itemTurn at h
    split at h
    · cases h
      exact .inl rfl
    · obtain ⟨i, -, rfl⟩ := Outcome.map_eq_ok.1 h
      exact .inr ⟨i, rfl⟩

theorem itemTurn_stop (h : itemTurn room s = .ok .stop s') : s.token = .eof ∧ s' = s := by
  unfold itemTurn at h
  split at h
  · next he => exact ⟨he, (Outcome.ok.inj h).2.symm⟩
  · obtain ⟨_, -, h⟩ := Outcome.map_eq_ok.1 h
    cases h

theorem itemTurn_item {i : Item} (h : itemTurn room s = .ok (.item i) s') :
    s.token ≠ .eof ∧ itemAt room s = .ok i s' := by
  unfold itemTurn at h
  split at h
  · cases h
  · next he =>
    obtain ⟨i', hi, heq⟩ := Outcome.map_eq_ok.1 h
    exact ⟨he, by rwa [← Turn.item.inj heq]⟩

theorem itemTurn_padded {i : Item} (hx : x.HasEnd) (h : i.Padded ts us)
    (hr : itemTurn room (x.behind ts) = .ok (.item i) s') :
    s' = x ∧ ∀ ⦃t⦄, Seam.loose.Joins x t → itemTurn room (t.behind us) = .ok (.item i) t := by
  obtain ⟨he, hi⟩ := itemTurn_item hr
  obtain ⟨rfl, hpad⟩ := padsAt_itemAt hx h hi
  obtain ⟨v, ws, ws', rfl, rfl, -⟩ := h.first
  refine ⟨rfl, fun t ht => ?_⟩
  rw [itemTurn, if_neg (show (t.behind (v :: ws')).token ≠ .eof from he), hpad ht, Outcome.map_ok]

end Grammar

end OpsLang
