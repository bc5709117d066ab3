import OpsLang.Proofs.Canonical.File
import OpsLang.Proofs.Spelling.Statement

/-!
# Spellings of files

The grammar that types, declarations, procedures and files are read by, as a relation in the
manner of `Statement.Spells` : it leaves open the semicolons between declarations and items, a
comma behind the last field, and the spelling of an array size. Every file that is read is
legible, and spelled by the tokens before the end of the text (`parseFile_read`).
-/

namespace OpsLang

/-! ## Spellings -/

mutual

/-- The tokens are those of the type. -/
def TypeExpr.Spells : TypeExpr → List Token → Prop
  | .primitive p, ts => ts = [.name p.text]
  | .array element size, ts =>
    ∃ us x, ts = .symbol .leftBracket ::
        (us ++ [.symbol .semicolon, .number x, .symbol .rightBracket]) ∧
      element.Spells us ∧ (Numeral.ofLexeme x).toUInt64? = some size
  | .struct fields, ts =>
    ∃ us, ts = .keyword .struct :: .symbol .leftBrace :: (us ++ [.symbol .rightBrace]) ∧
      Field.AllSpell fields us
  | .named p, ts => p.Spells ts

/-- The tokens are those of the fields with commas between them. One more comma may stand
behind the last field. -/
def Field.AllSpell : List Field → List Token → Prop
  | [], ts => ts = []
  | .mk n t :: fields, ts =>
    ∃ u us vs, ts = u :: .symbol .colon :: (us ++ vs) ∧ u.IsMember n ∧ t.Spells us ∧
      (fields = [] ∧ vs = [] ∨ ∃ ws, vs = .symbol .comma :: ws ∧ Field.AllSpell fields ws)

end

mutual

/-- The tokens are those of the declaration. -/
def Declaration.Spells : Declaration → List Token → Prop
  | .space p ds _, ts =>
    ∃ us vs, ts = .keyword .namespace_ ::
        (us ++ .symbol .leftBrace :: (vs ++ [.symbol .rightBrace])) ∧
      p.Spells us ∧ Declaration.AllSpell ds vs
  | .type n body _, ts => ∃ us, ts = .keyword .type :: .name n :: us ∧ body.type.Spells us

/-- The tokens are those of the declarations of a namespace. -/
def Declaration.AllSpell : List Declaration → List Token → Prop
  | [], ts => ∀ t ∈ ts, t = .symbol .semicolon
  | d :: ds, ts =>
    ∃ ss us vs, ts = ss ++ (us ++ vs) ∧ (∀ t ∈ ss, t = .symbol .semicolon) ∧ d.Spells us ∧
      Declaration.AllSpell ds vs

end

/-- The tokens are those of a section, from its keyword to its end. -/
def SectionSpells (kind : BlockKind) (body : Block) (ts : List Token) : Prop :=
  ∃ us, ts = .keyword kind.closer :: (us ++ kind.endTokens) ∧ Block.Spells body us

/-- The tokens are those of a section that may be missing. -/
def OptionalSectionSpells (kind : BlockKind) : Option Block → List Token → Prop
  | some body, ts => SectionSpells kind body ts
  | none, ts => ts = []

/-- The tokens are those of the procedure. -/
def Procedure.Spells (p : Procedure) (ts : List Token) : Prop :=
  ∃ us vs ws, ts = .keyword .procedure :: .name p.name ::
      (us ++ (vs ++ (ws ++ BlockKind.procedure.endTokens))) ∧
    OptionalSectionSpells .preconditions p.preconditions us ∧ SectionSpells .main p.main vs ∧
    OptionalSectionSpells .confirmation p.confirmation ws

/-- The tokens are those of the item. -/
def Item.Spells : Item → List Token → Prop
  | .procedure p, ts => p.Spells ts
  | .declaration d, ts => d.Spells ts

/-- The tokens are those of the items of a file. -/
def Item.AllSpell : List Item → List Token → Prop
  | [], ts => ∀ t ∈ ts, t = .symbol .semicolon
  | i :: is, ts =>
    ∃ ss us vs, ts = ss ++ (us ++ vs) ∧ (∀ t ∈ ss, t = .symbol .semicolon) ∧ i.Spells us ∧
      Item.AllSpell is vs

/-- The tokens before the end of the text are those of the file. -/
def SourceFile.Spells (f : SourceFile) (ts : List Token) : Prop :=
  Item.AllSpell f.items ts

/-! ## Legible spellings -/

/-- The tokens are those of a type inside `room` levels. -/
def TypeRead (room : Nat) : TypeExpr → List Token → Prop :=
  Legibly TypeExpr.Spells (TypeExpr.Legible room)

/-- The tokens are those of a declaration inside `room` levels. -/
def DeclarationRead (room : Nat) : Declaration → List Token → Prop :=
  Legibly Declaration.Spells (Declaration.Legible room)

/-- The tokens are those of an item. -/
def ItemRead : Item → List Token → Prop :=
  Legibly Item.Spells (Item.Legible maxNesting)

namespace Grammar

open Reader

variable {room : Nat} {s s' : Stream}

/-! ## Reading types -/

theorem takes_namedType : namedType.Takes (TypeRead (room + 1)) := by
  intro s t s' hs h
  rw [namedType_run, Outcome.andThen_eq_ok] at h
  obtain ⟨⟨segments⟩, s₁, hp, h⟩ := h
  obtain ⟨us, rfl, hne, hsp⟩ := takes_path hs hp
  have hnamed : (∀ n, segments = [n] → Primitive.ofText? n = none) →
      TypeRead (room + 1) (.named ⟨segments⟩) (words us) :=
    fun hprim => ⟨hsp, fun hw => ⟨hsp.legible hne hw, hprim⟩⟩
  split at h
  · next n hn =>
    obtain rfl : segments = [n] := hn
    split at h
    · next prim hprim =>
      cases h
      have htext : prim.text = n := by simpa using List.find?_some hprim
      obtain ⟨_, rfl, hus⟩ := hsp
      exact ⟨us, rfl, by rw [hus, ← htext]; rfl, fun _ => trivial⟩
    · next hprim =>
      cases h
      refine ⟨us, rfl, hnamed ?_⟩
      rintro _ ⟨⟩
      exact hprim
  · next hn =>
    cases h
    exact ⟨us, rfl, hnamed fun n hn' => absurd hn' (hn n)⟩

theorem takes_arraySize : arraySize.Takes fun n ts =>
    ∃ x, (Numeral.ofLexeme x).toUInt64? = some n ∧ ts = [.number x] := by
  intro s n s' hs h
  rw [arraySize_run] at h
  split at h
  · next x hx =>
    split at h
    · next m hm =>
      obtain ⟨rfl, hadv⟩ := Outcome.ok.inj h
      exact ⟨[s.here], eq_behind_of_advance hs (by simp [hx]) hadv, x, hm,
        congrArg (fun t => [t]) hx⟩
    · cases h
  · cases h

/-- What a round of fields takes. -/
def FieldTurn (room : Nat) : Turn Field → List Token → Prop
  | .stop, ts => ts = []
  | .item (.mk n t), ts =>
    ∃ u us, u.IsMember n ∧ TypeRead room t us ∧
      ts = u :: .symbol .colon :: (us ++ [.symbol .comma])
  | .last (.mk n t), ts =>
    ∃ u us, u.IsMember n ∧ TypeRead room t us ∧ ts = u :: .symbol .colon :: us
  | .pass, _ => False

theorem field_legible {n : String} {t : TypeExpr} {u : Token} (hu : u.IsMember n)
    (hw : u.Written) (ht : t.Legible room) : (Field.mk n t).Legible room := by
  have hmember := hu.eq_member hw
  exact ⟨by rw [← hmember]; exact ⟨hu, hw⟩, ht⟩

section Inner

variable {inner : Reader TypeExpr} (hi : inner.Takes (TypeRead room))

include hi

theorem takes_arrayType : (arrayType inner).Takes (TypeRead (room + 1)) := by
  refine ((takes_symbol .leftBracket).bind fun _ => hi.bind fun element =>
    (takes_symbol .semicolon).bind fun _ => takes_arraySize.bind fun size =>
      (takes_symbol .rightBracket).bind fun _ => takes_pure (TypeExpr.array element size)).mono ?_
  rintro _ _ ⟨_, _, _, rfl, ⟨element, us, _, hel, ⟨_, _, _, rfl, ⟨size, _, _, ⟨x, hx, rfl⟩,
    ⟨_, _, _, rfl, ⟨rfl, rfl⟩, rfl⟩, rfl⟩, rfl⟩, rfl⟩, rfl⟩
  refine ⟨⟨us, x, rfl, hel.spells, hx⟩, fun hw => hel.legible ?_⟩
  simp only [List.forall_mem_append] at hw
  exact hw.2.1

theorem takes_fieldRound : (fieldRound inner).Takes (FieldTurn room) := by
  have hfield : (field inner).Takes fun f ts =>
      ∃ u us, u.IsMember f.name ∧ TypeRead room f.type us ∧ ts = u :: .symbol .colon :: us := by
    refine ((takes_member _).bind fun n => (takes_symbol .colon).bind fun _ => hi.bind fun t =>
      takes_pure (Field.mk n t)).mono ?_
    rintro _ _ ⟨n, _, _, ⟨u, hu, rfl⟩, ⟨_, _, _, rfl, ⟨t, us, _, ht, ⟨rfl, rfl⟩, rfl⟩, rfl⟩, rfl⟩
    exact ⟨u, us, hu, ht, by simp⟩
  refine (takes_peek.bind fun t =>
    Takes.ite (P := FieldTurn room) (fun _ => ?_) fun _ => ?_).mono ?_
  · refine (takes_pure _).mono ?_
    rintro t _ ⟨rfl, rfl⟩
    rfl
  · refine (hfield.bind fun f => Takes.ifEat (by simp) (takes_pure (Turn.item f))
      (takes_pure (Turn.last f))).mono ?_
    rintro t _ ⟨⟨n, type⟩, _, _, ⟨u, us, hu, ht, rfl⟩, ⟨_, ⟨rfl, rfl⟩, rfl⟩ | ⟨rfl, rfl⟩, rfl⟩
    · exact ⟨u, us, hu, ht, rfl⟩
    · exact ⟨u, us, hu, ht, by simp⟩
  · rintro t _ ⟨_, _, us, rfl, ht, rfl⟩
    exact ht

omit hi in
theorem fields_read {fs : List Field} {ts : List Token} (h : Rounds (FieldTurn room) fs ts) :
    Legibly Field.AllSpell (Field.AllLegible room) fs ts := by
  induction h with
  | stop h => exact ⟨h, fun _ => trivial⟩
  | pass h => exact h.elim
  | @item f fs ts ts' h _ ih =>
    obtain ⟨n, t⟩ := f
    obtain ⟨u, us, hu, ht, rfl⟩ := h
    refine ⟨⟨u, us, .symbol .comma :: ts', by simp, hu, ht.spells, .inr ⟨ts', rfl, ih.spells⟩⟩,
      fun hw => ?_⟩
    simp only [List.forall_mem_append, List.forall_mem_cons] at hw
    obtain ⟨⟨huw, -, hus, -⟩, hts'⟩ := hw
    exact ⟨field_legible hu huw (ht.legible hus), ih.legible hts'⟩
  | @last f ts h =>
    obtain ⟨n, t⟩ := f
    obtain ⟨u, us, hu, ht, rfl⟩ := h
    refine ⟨⟨u, us, [], by simp, hu, ht.spells, .inl ⟨rfl, rfl⟩⟩, fun hw => ?_⟩
    simp only [List.forall_mem_cons] at hw
    exact ⟨field_legible hu hw.1 (ht.legible hw.2.2), trivial⟩

theorem takes_structType : (structType inner).Takes (TypeRead (room + 1)) := by
  rw [structType_eq]
  refine ((takes_keyword .struct).bind fun _ => (takes_symbol .leftBrace).bind fun _ =>
    (takes_many (takes_fieldRound hi)).bind fun fs => (takes_symbol .rightBrace).bind fun _ =>
      takes_pure (TypeExpr.struct fs)).mono ?_
  rintro _ _ ⟨_, _, _, rfl, ⟨_, _, _, rfl, ⟨fs, us, _, hfs, ⟨_, _, _, rfl, ⟨rfl, rfl⟩, rfl⟩,
    rfl⟩, rfl⟩, rfl⟩
  have hread := fields_read hfs
  refine ⟨⟨us, rfl, hread.spells⟩, fun hw => hread.legible ?_⟩
  simp only [List.forall_mem_append] at hw
  exact hw.2.2.1

theorem takes_typeOf : (typeOf inner).Takes (TypeRead (room + 1)) := by
  intro s t s' hs h
  rw [typeOf_run] at h
  split at h
  · exact takes_structType hi hs h
  · exact takes_arrayType hi hs h
  · exact takes_namedType hs h
  · cases h

end Inner

theorem takes_typeAt (room : Nat) : (typeAt room).Takes (TypeRead room) := by
  induction room with
  | zero => exact takes_failAt _
  | succ room ih => exact takes_typeOf ih

/-! ## Reading declarations -/

/-- What a round of the declarations of a namespace takes. -/
def ChildTurn (room : Nat) : Turn Declaration → List Token → Prop
  | .stop, ts => ∃ ss, (∀ t ∈ ss, t = .symbol .semicolon) ∧ ts = ss ++ [.symbol .rightBrace]
  | .item d, ts =>
    ∃ ss us, (∀ t ∈ ss, t = .symbol .semicolon) ∧ DeclarationRead room d us ∧ ts = ss ++ us
  | _, _ => False

theorem typeDeclaration_read (hs : s.Ends) (ht : s.token = .keyword .type) {d : Declaration}
    (h : typeDeclaration (typeAt room) s = .ok d s') :
    ∃ us, s = s'.behind us ∧ DeclarationRead (room + 1) d (words us) := by
  rw [typeDeclaration_run, bind_run, Outcome.andThen_eq_ok] at h
  obtain ⟨n, s₁, hn, h⟩ := h
  rw [bind_run, Outcome.andThen_eq_ok] at h
  obtain ⟨t, s₂, htype, h⟩ := h
  obtain ⟨us, hus, hname⟩ := takes_name _ hs.advance hn
  have hs₁ : s₁.Ends := by
    have hadv := hs.advance
    rw [hus] at hadv
    exact hadv.of_behind
  obtain ⟨vs, rfl, hread⟩ := takes_typeOf (takes_typeAt room) hs₁ htype
  have hrow : s = s₂.behind (s.here :: (us ++ vs)) := by
    refine hs.eq_behind_cons (by simp [ht]) ?_
    rw [hus, Stream.behind_append]
  have hwords : words (s.here :: (us ++ vs)) = .keyword .type :: .name n :: words vs := by
    rw [words_cons, words_append, hname]
    exact congrArg (· :: .name n :: words vs) ht
  have hd : ∀ body : TypeBody, body.type = t →
      DeclarationRead (room + 1) (.type n body s.line) (words (s.here :: (us ++ vs))) := by
    rintro body rfl
    rw [hwords]
    refine ⟨⟨words vs, rfl, hread.spells⟩, fun hw => ?_⟩
    simp only [List.forall_mem_cons] at hw
    exact ⟨hw.2.1, hread.legible hw.2.2⟩
  split at h
  · cases h
    exact ⟨_, hrow, hd (.struct _) rfl⟩
  · cases h
    exact ⟨_, hrow, hd (.primitive _) rfl⟩
  · cases h
    exact ⟨_, hrow, hd (.array _ _) rfl⟩
  · cases h

section Inner

variable {inner : Reader Declaration} (hi : inner.Takes (DeclarationRead room))

include hi

theorem takes_childRound : (childRound inner).Takes (ChildTurn room) := by
  intro s t s' hs h
  rw [childRound_run, Outcome.andThen_eq_ok] at h
  obtain ⟨⟨⟩, s₁, hsemi, h⟩ := h
  obtain ⟨ss, rfl, hss⟩ := takes_semicolons hs hsemi
  have hitem : (inner s₁).map Turn.item = .ok t s' →
      ∃ us, s₁.behind ss = s'.behind us ∧ ChildTurn room t (words us) := by
    intro h
    obtain ⟨d, hd, rfl⟩ := Outcome.map_eq_ok.1 h
    obtain ⟨us, rfl, hread⟩ := hi hs.of_behind hd
    exact ⟨ss ++ us, Stream.behind_append.symm, words ss, words us, hss, hread, words_append⟩
  split at h
  · next hclose =>
    cases h
    have hs₁ := hs.of_behind
    refine ⟨ss ++ [s₁.here], ?_, words ss, hss, ?_⟩
    · rw [Stream.behind_append, hs₁.behind_here (by simp [hclose])]
    · rw [words_append]
      exact congrArg (fun t => words ss ++ [t]) hclose
  · exact hitem h
  · exact hitem h
  · cases h

omit hi in
/-- The declarations of a namespace, with the brace behind them. -/
theorem children_read {ds : List Declaration} {ts : List Token}
    (h : Rounds (ChildTurn room) ds ts) :
    ∃ us, ts = us ++ [Token.symbol .rightBrace] ∧
      Legibly Declaration.AllSpell (Declaration.AllLegible room) ds us := by
  induction h with
  | stop h =>
    obtain ⟨ss, hss, rfl⟩ := h
    exact ⟨ss, rfl, hss, fun _ => trivial⟩
  | pass h => exact h.elim
  | item h _ ih =>
    obtain ⟨ss, us, hss, hd, rfl⟩ := h
    obtain ⟨vs, rfl, hrest⟩ := ih
    refine ⟨ss ++ (us ++ vs), by simp, ⟨ss, us, vs, rfl, hss, hd.spells, hrest.spells⟩,
      fun hw => ?_⟩
    simp only [List.forall_mem_append] at hw
    exact ⟨hd.legible hw.2.1, hrest.legible hw.2.2⟩
  | last h => exact h.elim

theorem namespaceDeclaration_read (hs : s.Ends) (ht : s.token = .keyword .namespace_)
    {d : Declaration} (h : namespaceDeclaration inner s = .ok d s') :
    ∃ us, s = s'.behind us ∧ DeclarationRead (room + 1) d (words us) := by
  rw [namespaceDeclaration_run] at h
  obtain ⟨us, hus, p, ps, _, ⟨hne, hsp⟩, ⟨_, _, _, rfl, ⟨ds, vs, _, hds, ⟨rfl, rfl⟩, rfl⟩, rfl⟩,
      htok⟩ :=
    (takes_path.bind fun p => (takes_symbol .leftBrace).bind fun _ =>
      (takes_many (takes_childRound hi)).bind fun ds =>
        takes_pure (Declaration.space p ds s.line)) hs.advance h
  obtain ⟨cs, rfl, hread⟩ := children_read hds
  have hwords : words (s.here :: us) =
      .keyword .namespace_ :: (ps ++ .symbol .leftBrace :: (cs ++ [Token.symbol .rightBrace])) := by
    rw [words_cons, htok, List.append_nil]
    exact congrArg (· :: _) ht
  refine ⟨_, hs.eq_behind_cons (by simp [ht]) hus, ?_⟩
  rw [hwords]
  refine ⟨⟨ps, cs, rfl, hsp, hread.spells⟩, fun hw => ?_⟩
  simp only [List.forall_mem_cons, List.forall_mem_append] at hw
  obtain ⟨-, hps, -, hcs, -⟩ := hw
  exact ⟨hsp.legible hne hps, hread.legible hcs⟩

end Inner

theorem takes_declarationAt (room : Nat) :
    (declarationAt room).Takes (DeclarationRead room) := by
  induction room with
  | zero => exact takes_failAt _
  | succ room ih =>
    intro s d s' hs h
    rw [declarationAt, declarationOf_run] at h
    split at h
    · next ht => exact namespaceDeclaration_read ih hs ht h
    · next ht => exact typeDeclaration_read hs ht h
    · cases h

/-! ## Reading procedures and files -/

/-- The tokens are those of a section. -/
def SectionRead (kind : BlockKind) : Block → List Token → Prop :=
  Legibly (SectionSpells kind) (Block.Legible maxNesting)

theorem section_read (kind : BlockKind) (hs : s.Ends) (ht : s.token = .keyword kind.closer)
    {b : Block} (h : (section_ .strict kind).outcome s = .ok b s') :
    ∃ us, s = s'.behind us ∧ SectionRead kind b (words us) := by
  simp only [section_, Reporter.outcome_bind, Reporter.outcome_liftM, Reporter.outcome_pure] at h
  rw [bind_run, here_run, Outcome.andThen_ok] at h
  obtain ⟨us, _, hus, hwords, _, bs, _, hb, ⟨_, _, _, rfl, ⟨rfl, rfl⟩, rfl⟩, rfl⟩ :=
    ((takes_statements maxNesting kind s.line false).bind fun b =>
      (takes_endOf kind s.line).bind fun _ => takes_pure b).before.skip hs (by simp [ht]) h
  refine ⟨us, hus, ?_⟩
  rw [hwords, ht, List.append_nil]
  refine ⟨⟨bs, rfl, hb.spells⟩, fun hw => hb.legible ?_⟩
  simp only [List.forall_mem_cons, List.forall_mem_append] at hw
  exact hw.2.1

theorem takes_optionalSection (kind : BlockKind) :
    (optionalSection .strict kind).outcome.Takes
      (Legibly (OptionalSectionSpells kind) fun b => ∀ body ∈ b, Block.Legible maxNesting body) := by
  intro s b s' hs h
  simp only [optionalSection, Reporter.outcome_bind, Reporter.outcome_liftM, Reporter.outcome_ite,
    Reporter.outcome_pure, bind_run, peek_run, Outcome.andThen_ok, ite_run] at h
  split at h
  · next ht =>
    obtain ⟨body, hbody, rfl⟩ := Outcome.map_eq_ok.1 h
    obtain ⟨us, hus, hread⟩ := section_read kind hs ht hbody
    exact ⟨us, hus, hread.spells, fun hw => by simpa using hread.legible hw⟩
  · cases h
    exact ⟨[], rfl, rfl, by simp⟩

theorem takes_mainSection (line : Nat) (b : Bool) :
    (mainAhead line b >>= fun _ => (section_ .strict .main).outcome).Takes
      (SectionRead .main) := by
  intro s body s' hs h
  rw [bind_run, Outcome.andThen_eq_ok] at h
  obtain ⟨⟨⟩, s₁, hahead, h⟩ := h
  obtain ⟨rfl, ht⟩ := mainAhead_eq_ok hahead
  exact section_read .main hs ht h

theorem takes_procedureEnd (line : Nat) (b : Bool) :
    (endAhead b >>= fun _ => endOf .procedure line).Takes
      fun _ ts => ts = BlockKind.procedure.endTokens := by
  intro s _ s' hs h
  rw [bind_run, Outcome.andThen_eq_ok] at h
  obtain ⟨⟨⟩, s₁, hahead, h⟩ := h
  obtain rfl := endAhead_eq_ok hahead
  exact takes_endOf _ _ hs h

theorem takes_procedure : (procedure .strict).outcome.Takes
    (Legibly Procedure.Spells (Procedure.Legible maxNesting)) := by
  intro s p s' hs h
  simp only [procedure, Reporter.outcome_bind, Reporter.outcome_liftM, Reporter.outcome_pure] at h
  rw [bind_run, here_run, Outcome.andThen_ok] at h
  have htakes := (takes_keyword .procedure).bind fun _ =>
    (takes_name "procedure name").bind fun n =>
      (takes_optionalSection .preconditions).bind fun pre =>
        (takes_mainSection s.line pre.isSome).bind fun main =>
          (takes_optionalSection .confirmation).bind fun conf =>
            (takes_procedureEnd s.line conf.isSome).bind fun _ =>
              takes_pure (Procedure.mk n pre main conf s.line)
  simp only [bind_bind] at htakes
  obtain ⟨us, hus, _, _, _, rfl, ⟨n, _, _, rfl, ⟨pre, ps, _, hpre, ⟨main, ms, _, hmain,
    ⟨conf, cs, _, hconf, ⟨_, _, _, rfl, ⟨rfl, rfl⟩, rfl⟩, rfl⟩, rfl⟩, rfl⟩, rfl⟩, hwords⟩ :=
    htakes hs h
  refine ⟨us, hus, ?_⟩
  rw [hwords, List.append_nil]
  refine ⟨⟨ps, ms, cs, rfl, hpre.spells, hmain.spells, hconf.spells⟩, fun hw => ?_⟩
  simp only [List.forall_mem_append, List.forall_mem_cons] at hw
  obtain ⟨-, ⟨hn, -⟩, hps, hms, hcs, -⟩ := hw
  exact ⟨hn, hpre.legible hps, hmain.legible hms, hconf.legible hcs⟩

/-- What a round of a file takes. -/
def ItemTurn : Turn Item → List Token → Prop
  | .stop, ts => ∀ t ∈ ts, t = .symbol .semicolon
  | .item i, ts => ∃ ss us, (∀ t ∈ ss, t = .symbol .semicolon) ∧ ItemRead i us ∧ ts = ss ++ us
  | _, _ => False

theorem takes_item : (item .strict).outcome.Takes ItemRead := by
  intro s i s' hs h
  have hdecl : (declaration maxNesting s).map Item.declaration = .ok i s' →
      ∃ us, s = s'.behind us ∧ ItemRead i (words us) := by
    intro h
    obtain ⟨d, hd, rfl⟩ := Outcome.map_eq_ok.1 h
    obtain ⟨us, hus, hread⟩ := takes_declarationAt (maxNesting + 1) hs hd
    exact ⟨us, hus, hread.spells, hread.legible⟩
  rw [item_run] at h
  split at h
  · obtain ⟨p, hp, rfl⟩ := Outcome.map_eq_ok.1 h
    obtain ⟨us, hus, hread⟩ := takes_procedure hs hp
    exact ⟨us, hus, hread.spells, hread.legible⟩
  · exact hdecl h
  · exact hdecl h
  · cases h

theorem takes_fileRound : fileRound.outcome.Takes ItemTurn := by
  intro s t s' hs h
  obtain ⟨rfl, hsemi, -⟩ | ⟨i, s₁, rfl, hsemi, -, hi⟩ := fileRound_cases h
  · exact takes_semicolons hs hsemi
  · obtain ⟨ss, rfl, hss⟩ := takes_semicolons hs hsemi
    obtain ⟨us, rfl, hread⟩ := takes_item hs.of_behind hi
    exact ⟨ss ++ us, Stream.behind_append.symm, words ss, words us, hss, hread, words_append⟩

theorem items_read {is : List Item} {ts : List Token} (h : Rounds ItemTurn is ts) :
    Legibly Item.AllSpell (fun is => ∀ i ∈ is, i.Legible maxNesting) is ts := by
  induction h with
  | stop h => exact ⟨h, by simp⟩
  | pass h => exact h.elim
  | item h _ ih =>
    obtain ⟨ss, us, hss, hi, rfl⟩ := h
    refine ⟨⟨ss, us, _, List.append_assoc .., hss, hi.spells, ih.spells⟩, fun hw => ?_⟩
    simp only [List.forall_mem_append] at hw
    exact List.forall_mem_cons.2 ⟨hi.legible hw.1.2, ih.legible hw.2⟩
  | last h => exact h.elim

end Grammar

open Grammar Reader

/-- A file that is read from a row is spelled by the tokens before the end of the text, and
legible. -/
theorem parseFile_read {us : List Located} {e : Located} {f : SourceFile}
    (he : e.token = .eof) (hw : ∀ u ∈ us, u.token.Written)
    (h : parseFile (us ++ [e]) = .accepted f) : f.Spells (words us) ∧ f.Legible maxNesting := by
  have hends : EndsOnce (us ++ [e]) := endsOnce_append_singleton.2
    ⟨he, fun u hu => (hw u hu).ne_eof⟩
  have hs := Stream.ends_ofTokens hends
  rw [parseFile_eq] at h
  cases hrun : many fileRound.outcome (.ofTokens (us ++ [e])) with
  | ok is s' =>
    rw [hrun] at h
    cases h
    obtain ⟨vs, hvs, hrounds⟩ := takes_many takes_fileRound hs hrun
    have hrow : us ++ [e] = vs ++ [s'.here] := by
      have hs' := hs
      rw [hvs] at hs'
      rw [← Stream.row_ofTokens hends, hvs, Stream.row_behind,
        hs'.of_behind.row_of_eof (many_fileRound_token hrun)]
    obtain ⟨rfl, -⟩ := List.append_inj' hrow rfl
    have hread := items_read hrounds
    exact ⟨hread.spells, hread.legible (forall_mem_words.2 hw)⟩
  | fail d s' =>
    rw [hrun] at h
    cases h
  | endless =>
    rw [hrun] at h
    cases h

/-- A text that can be read is a row of tokens that can be written, and its end. -/
theorem exists_row_of_parseSource {text : String} {f : SourceFile}
    (h : parseSource text = .accepted f) :
    ∃ (us : List Located) (e : Located), tokenize text = .ok (us ++ [e]) ∧ e.token = .eof ∧
      (∀ u ∈ us, u.token.Written) ∧ parseFile (us ++ [e]) = .accepted f := by
  unfold parseSource ofText at h
  split at h
  · next ts hts =>
    obtain ⟨us, e, rfl, he, hw⟩ := tokenize_spec hts
    exact ⟨us, e, hts, he, hw, h⟩
  · cases h

end OpsLang
