import OpsLang.Proofs.Mending.File
import OpsLang.Proofs.Parenthesized.File
import OpsLang.Proofs.Spelling.File

/-!
# What readers build is well formed

Every tree that is read from a text is well formed, and no condition behind `confirm` in it
is one that reads as an activity (`SourceFile.Sound`). A file that was read strictly is
legible, and a legible tree is well formed : its data are those of its canonical tokens, each
of which can be written (`SourceFile.Legible.sound`).

A recovering reading builds no other trees : it comes to the file that the mended row is read
as, and the semicolons in that row can be written too (`sound_of_recoverFrom`).
-/

namespace OpsLang

/-! ## Properties of all statements -/

mutual

/-- The property holds of the statement and of all statements inside it. -/
def Statement.Every (p : Statement → Prop) : Statement → Prop
  | .conditional branches none n =>
    p (.conditional branches none n) ∧ Branch.AllEvery p branches
  | .conditional branches (some body) n =>
    p (.conditional branches (some body) n) ∧ Branch.AllEvery p branches ∧ Block.Every p body
  | .whileLoop c body n => p (.whileLoop c body n) ∧ Block.Every p body
  | .forLoop x e body n => p (.forLoop x e body n) ∧ Block.Every p body
  | .activity mode q as n => p (.activity mode q as n)
  | .check c n => p (.check c n)
  | .wait c n => p (.wait c n)
  | .assign x v n => p (.assign x v n)
  | .expr v n => p (.expr v n)

/-- The property holds of all statements of the block and of all statements inside them. -/
def Block.Every (p : Statement → Prop) : List Statement → Prop
  | [] => True
  | st :: rest => st.Every p ∧ Block.Every p rest

/-- The property holds of all statements in the branches. -/
def Branch.AllEvery (p : Statement → Prop) : List Branch → Prop
  | [] => True
  | .mk _ body :: rest => Block.Every p body ∧ Branch.AllEvery p rest

end

/-- The property holds of all statements of the procedure. -/
structure Procedure.Every (p : Statement → Prop) (q : Procedure) : Prop where
  preconditions : ∀ b ∈ q.preconditions, Block.Every p b
  main : Block.Every p q.main
  confirmation : ∀ b ∈ q.confirmation, Block.Every p b

/-- The property holds of all statements of the file. -/
def SourceFile.Every (p : Statement → Prop) (f : SourceFile) : Prop :=
  ∀ q ∈ f.procedures, q.Every p

/-- A condition behind `confirm` is no bare name, property or call. -/
def Statement.ChecksCondition : Statement → Prop
  | .check c _ => c.readsAsActivity = false
  | _ => True

/-- The file is well formed, and activities and conditions behind `confirm` are kept apart. -/
structure SourceFile.Sound (f : SourceFile) : Prop where
  wellFormed : f.WellFormed
  conditions : f.Every Statement.ChecksCondition

/-! ## Names, numbers and units -/

/-- What can stand behind a dot, as the reader tests it : a name, or a unit spelling of word
characters. -/
theorem isMemberName_iff {n : String} :
    IsMemberName n ↔ IsName n ∨ n ∈ unitSpellings ∧ n.toList.all isWordChar = true := by
  refine or_congr_right (and_congr_right fun hunit => ⟨fun hplain => ?_, fun hword => ?_⟩)
  · obtain rfl | ⟨⟨-, -, hchars⟩, -⟩ := unitSpellings_shape n hunit
    · exact absurd (by decide) hplain.2
    · refine List.all_eq_true.2 fun c hc => (hchars c hc).resolve_right ?_
      rintro rfl
      exact hplain.1 hc
  · have hall := List.all_eq_true.1 hword
    exact ⟨fun h => absurd (hall _ h) (by decide), fun h => absurd (hall _ h) (by decide)⟩

theorem Token.IsMember.isMemberName {n : String} {t : Token} (h : t.IsMember n)
    (hw : t.Written) : IsMemberName n := by
  rcases h with rfl | ⟨rfl, hword⟩
  · exact .inl hw
  · exact isMemberName_iff.2 (.inr ⟨hw, hword⟩)

theorem Numeral.wellFormed_of_isNumber {v : Numeral} (h : IsNumber v.lexeme.toList)
    (hkind : v = .ofLexeme v.lexeme) : v.WellFormed := by
  obtain ⟨us, e, htokens, hus, -, he⟩ := (Writes.number h).tokenize_eq
  exact ⟨⟨_, htokens, by simp [hus, he]⟩, hkind⟩

/-! ## Trees with tokens that can be written -/

theorem MembersSpell.isMemberName : ∀ {ns : List String} {ts : List Token}, MembersSpell ns ts →
    (∀ t ∈ ts, t.Written) → ∀ n ∈ ns, IsMemberName n
  | [], _, _, _ => by simp
  | n :: ns, _, h, hw => by
    obtain ⟨t, us, ht, hns, rfl⟩ := h
    simp only [List.forall_mem_cons] at hw ⊢
    exact ⟨ht.isMemberName hw.2.1, hns.isMemberName hw.2.2⟩

theorem Path.Spells.wellFormed {p : Path} {ts : List Token} (h : p.Spells ts)
    (hw : ∀ t ∈ ts, t.Written) : p.WellFormed := by
  obtain ⟨_ | ⟨n, ns⟩⟩ := p
  · trivial
  · obtain ⟨us, hns, rfl⟩ := h
    obtain ⟨hn, hus⟩ := List.forall_mem_cons.1 hw
    exact ⟨hn, hns.isMemberName hus⟩

theorem Path.Legible.wellFormed {p : Path} (h : p.Legible) : p.WellFormed :=
  h.spells.wellFormed h.written

mutual

/-- A tree that shows all its data is well formed if the tokens of a spelling of it can be
written. -/
theorem Expr.Spells.wellFormed : ∀ {e : Expr} {ts : List Token}, e.Spells ts →
    e.Every Expr.ProperAt → (∀ t ∈ ts, t.Written) → e.WellFormed
  | .name n, _, h, _, hw => by
    obtain rfl := h
    exact hw (.name n) List.mem_cons_self
  | .number v, _, h, hp, hw => by
    obtain rfl := h
    exact Numeral.wellFormed_of_isNumber (hw (.number v.lexeme) List.mem_cons_self) hp
  | .measure v u, _, h, hp, hw => by
    obtain rfl := h
    have hnumber : IsNumber v.lexeme.toList := hw (.number v.lexeme) List.mem_cons_self
    exact ⟨Numeral.wellFormed_of_isNumber hnumber hp.1, hp.2⟩
  | .string _, _, _, _, _ | .truth _, _, _, _, _ => trivial
  | .property p, _, h, hp, hw => ⟨hp, Path.Spells.wellFormed (p := p) h hw⟩
  | .call p as, _, h, hp, hw => by
    obtain ⟨us, vs, hpath, has, rfl⟩ := h
    simp only [List.forall_mem_append, List.forall_mem_cons] at hw
    exact ⟨⟨hp.1, hpath.wellFormed hw.1⟩, has.wellFormed hp.2 hw.2.2.1⟩
  | .binary op l r, _, h, hp, hw => by
    obtain ⟨us, vs, hl, hr, rfl⟩ := h
    simp only [List.forall_mem_append, List.forall_mem_cons] at hw
    exact ⟨hl.wellFormed hp.2.1 hw.1, hr.wellFormed hp.2.2 hw.2.2⟩
  | .unary op e, _, h, hp, hw => by
    obtain ⟨us, he, rfl⟩ := h
    exact Expr.Spells.wellFormed (e := e) he hp.2 (List.forall_mem_cons.1 hw).2
  | .parens e, _, h, hp, hw => by
    obtain ⟨us, he, rfl⟩ := h
    simp only [List.forall_mem_append, List.forall_mem_cons] at hw
    exact Expr.Spells.wellFormed (e := e) he hp.2 hw.2.1

theorem Argument.AllSpell.wellFormed : ∀ {as : List Argument} {ts : List Token},
    Argument.AllSpell as ts → Argument.AllEvery Expr.ProperAt as → (∀ t ∈ ts, t.Written) →
      Argument.AllWellFormed as
  | [], _, _, _, _ => trivial
  | a :: as, _, h, hp, hw => by
    obtain ⟨us, vs, ha, rfl, hrest⟩ := h
    obtain ⟨hus, hvs⟩ := List.forall_mem_append.1 hw
    refine ⟨?_, ?_⟩
    · cases a with
      | positional v => exact Expr.Spells.wellFormed (e := v) ha hp.1 hus
      | named n v =>
        obtain ⟨ws, hv, rfl⟩ := ha
        simp only [List.forall_mem_cons] at hus
        exact ⟨hus.1, Expr.Spells.wellFormed (e := v) hv hp.1 hus.2.2⟩
    · obtain ⟨rfl, -⟩ | ⟨ws, hws, rfl⟩ := hrest
      · trivial
      · exact hws.wellFormed hp.2 (List.forall_mem_cons.1 hvs).2

end

theorem Expr.Legible.wellFormed {room : Nat} {e : Expr} (h : e.Legible room) : e.WellFormed :=
  h.spells.wellFormed h.proper h.written

theorem Argument.AllLegible.wellFormed {room : Nat} {as : List Argument}
    (h : Argument.AllLegible room as) : Argument.AllWellFormed as :=
  h.spells.wellFormed h.proper h.written

mutual

/-- A legible statement is well formed, and so are the conditions behind `confirm` in it. -/
theorem Statement.Legible.sound : ∀ {room : Nat} {st : Statement}, st.Legible room →
    st.WellFormed ∧ st.Every Statement.ChecksCondition
  | _, .activity _ _ _ _, ⟨hp, has⟩ => ⟨⟨⟨hp.ne_nil, hp.wellFormed⟩, has.wellFormed⟩, trivial⟩
  | _, .check _ _, ⟨hc, hact⟩ => ⟨hc.wellFormed, hact⟩
  | _, .wait c _, h => ⟨Expr.Legible.wellFormed (e := c) h, trivial⟩
  | _, .assign _ _ _, ⟨hn, hv⟩ => ⟨⟨hn, hv.wellFormed⟩, trivial⟩
  | _, .conditional _ none _, ⟨hne, hbranches⟩ => by
    obtain ⟨hwf, hevery⟩ := Branch.sound_of_legible hbranches
    exact ⟨⟨hne, hwf⟩, trivial, hevery⟩
  | _, .conditional _ (some _) _, ⟨hne, hbranches, hbody⟩ => by
    obtain ⟨hwf, hevery⟩ := Branch.sound_of_legible hbranches
    obtain ⟨hbwf, hbevery⟩ := Block.sound_of_legible hbody
    exact ⟨⟨hne, hwf, hbwf⟩, trivial, hevery, hbevery⟩
  | _, .whileLoop _ _ _, ⟨hc, hbody⟩ => by
    obtain ⟨hwf, hevery⟩ := Block.sound_of_legible hbody
    exact ⟨⟨hc.wellFormed, hwf⟩, trivial, hevery⟩
  | _, .forLoop _ _ _ _, ⟨hn, he, hbody⟩ => by
    obtain ⟨hwf, hevery⟩ := Block.sound_of_legible hbody
    exact ⟨⟨hn, he.wellFormed, hwf⟩, trivial, hevery⟩
  | _, .expr v _, h => ⟨Expr.Legible.wellFormed (e := v) h, trivial⟩

theorem Block.sound_of_legible : ∀ {room : Nat} {body : List Statement},
    Block.Legible room body → Block.WellFormed body ∧ Block.Every Statement.ChecksCondition body
  | 0, _, h => absurd h Block.not_legible_zero
  | _ + 1, [], _ => ⟨trivial, trivial⟩
  | _ + 1, _ :: _, ⟨hst, hrest⟩ => by
    obtain ⟨hwf, hevery⟩ := hst.sound
    obtain ⟨hrwf, hrevery⟩ := Block.sound_of_legible hrest
    exact ⟨⟨hwf, hrwf⟩, hevery, hrevery⟩

theorem Branch.sound_of_legible : ∀ {room : Nat} {branches : List Branch},
    Branch.AllLegible room branches →
      Branch.AllWellFormed branches ∧ Branch.AllEvery Statement.ChecksCondition branches
  | _, [], _ => ⟨trivial, trivial⟩
  | _, .mk _ _ :: _, ⟨hc, hbody, hrest⟩ => by
    obtain ⟨hwf, hevery⟩ := Block.sound_of_legible hbody
    obtain ⟨hrwf, hrevery⟩ := Branch.sound_of_legible hrest
    exact ⟨⟨hc.wellFormed, hwf, hrwf⟩, hevery, hrevery⟩

end

mutual

theorem TypeExpr.Legible.wellFormed : ∀ {room : Nat} {t : TypeExpr}, t.Legible room → t.WellFormed
  | 0, _, h => absurd h TypeExpr.not_legible_zero
  | _ + 1, .primitive _, _ => trivial
  | _ + 1, .array element _, h => TypeExpr.Legible.wellFormed (t := element) h
  | _ + 1, .struct fields, h =>
    Field.wellFormed_of_legible (show Field.AllLegible _ fields from h)
  | _ + 1, .named _, ⟨hp, hprim⟩ => ⟨⟨hp.ne_nil, hp.wellFormed⟩, hprim⟩

theorem Field.wellFormed_of_legible : ∀ {room : Nat} {fields : List Field},
    Field.AllLegible room fields → Field.AllWellFormed fields
  | _, [], _ => trivial
  | _, .mk _ _ :: _, ⟨⟨⟨hmember, hw⟩, ht⟩, hrest⟩ =>
    ⟨⟨hmember.isMemberName hw, ht.wellFormed⟩, Field.wellFormed_of_legible hrest⟩

end

mutual

theorem Declaration.Legible.wellFormed : ∀ {room : Nat} {d : Declaration}, d.Legible room →
    d.WellFormed
  | 0, _, h => absurd h Declaration.not_legible_zero
  | _ + 1, .space _ _ _, ⟨hp, hds⟩ =>
    ⟨⟨hp.ne_nil, hp.wellFormed⟩, Declaration.wellFormed_of_legible hds⟩
  | _ + 1, .type _ _ _, ⟨hn, hbody⟩ => ⟨hn, hbody.wellFormed⟩

theorem Declaration.wellFormed_of_legible : ∀ {room : Nat} {ds : List Declaration},
    Declaration.AllLegible room ds → Declaration.AllWellFormed ds
  | _, [], _ => trivial
  | _, _ :: _, ⟨hd, hds⟩ => ⟨hd.wellFormed, Declaration.wellFormed_of_legible hds⟩

end

theorem Procedure.Legible.sound {room : Nat} {p : Procedure} (h : p.Legible room) :
    p.WellFormed ∧ p.Every Statement.ChecksCondition where
  left :=
    ⟨h.name, fun b hb => (Block.sound_of_legible (h.preconditions b hb)).1,
      (Block.sound_of_legible h.main).1,
      fun b hb => (Block.sound_of_legible (h.confirmation b hb)).1⟩
  right :=
    ⟨fun b hb => (Block.sound_of_legible (h.preconditions b hb)).2,
      (Block.sound_of_legible h.main).2,
      fun b hb => (Block.sound_of_legible (h.confirmation b hb)).2⟩

theorem Item.Legible.wellFormed {room : Nat} {i : Item} (h : i.Legible room) : i.WellFormed := by
  cases i with
  | procedure p => exact (Procedure.Legible.sound h).1
  | declaration d => exact Declaration.Legible.wellFormed h

/-- A legible file is well formed, and so are the conditions behind `confirm` in it. -/
theorem SourceFile.Legible.sound {room : Nat} {f : SourceFile} (h : f.Legible room) :
    f.Sound := by
  refine ⟨fun i hi => (h i hi).wellFormed, fun p hp => ?_⟩
  obtain ⟨i, hi, heq⟩ := List.mem_filterMap.1 hp
  cases i with
  | procedure q =>
    obtain rfl := Option.some.inj heq
    exact (Procedure.Legible.sound (h _ hi)).2
  | declaration d => cases heq

/-! ## Mended rows -/

/-- Some row is mended for the pieces, and its tokens can be written if those of the pieces
can. -/
theorem Piece.exists_mended : ∀ {ps : List Piece}, (∀ t ∈ Piece.row ps, t.token.Written) →
    ∃ us, Piece.Mended ps us ∧ ∀ u ∈ us, u.token.Written
  | [], _ => ⟨[], .nil, by simp⟩
  | p :: ps, hw => by
    rw [Piece.row_cons, List.forall_mem_append] at hw
    obtain ⟨us, hus, huw⟩ := Piece.exists_mended hw.2
    cases p with
    | kept t =>
      have ht : t.token.Written := hw.1 t (by simp [Piece.tokens])
      exact ⟨t :: us, .cons rfl hus, List.forall_mem_cons.2 ⟨ht, huw⟩⟩
    | skipped t ts =>
      have hsemicolon : Piece.MendedBy (.skipped t ts) ⟨.symbol .semicolon, t.span⟩ := rfl
      exact ⟨_, .cons hsemicolon hus, List.forall_mem_cons.2 ⟨trivial, huw⟩⟩

open Grammar

/-- What a recovering reading finds in the tokens of a text is sound. -/
theorem sound_of_recoverFrom {us : List Located} {e : Located} (he : e.token = .eof)
    (hw : ∀ u ∈ us, u.token.Written) {cap count : Nat} {found : Findings}
    (h : recoverFrom cap count (.ofTokens (us ++ [e])) = some found) :
    SourceFile.Sound ⟨found.items⟩ := by
  have hends : EndsOnce (us ++ [e]) :=
    endsOnce_append_singleton.2 ⟨he, fun u hu => (hw u hu).ne_eof⟩
  obtain ⟨ps, rfl, hparse⟩ := parseFile_of_recoverFrom hends h
  obtain ⟨vs, hvs, hvw⟩ := Piece.exists_mended hw
  exact (parseFile_read he hvw (hparse hvs)).2.sound

/-- Every file that is read from a text that has tokens is sound, whether it is read strictly
or recovering from faults. -/
theorem sound_of_tokenize {text : String} {ts : List Located} (h : tokenize text = .ok ts) :
    (∀ f, parseFile ts = .accepted f → f.Sound) ∧
      ∀ maxErrors, ∃ r, recoverFile maxErrors ts = some r ∧ r.file.Sound := by
  obtain ⟨us, e, rfl, he, hw⟩ := tokenize_spec h
  refine ⟨fun f hf => (parseFile_read he hw hf).2.sound, fun maxErrors => ?_⟩
  have hends : EndsOnce (us ++ [e]) :=
    endsOnce_append_singleton.2 ⟨he, fun u hu => (hw u hu).ne_eof⟩
  obtain ⟨found, hfound, hread⟩ := exists_recoverFile hends.endsLast maxErrors
  exact ⟨_, hread, sound_of_recoverFrom he hw hfound⟩

/-- A unit behind a dot, a condition behind `confirm`, and a fault. -/
theorem sound_of_tokenize_fault :
    ∃ ts, tokenize "procedure p main confirm tank.m > 2 kg; = end main end procedure" = .ok ts ∧
      (∀ f, parseFile ts = .accepted f → f.Sound) ∧
        ∀ maxErrors, ∃ r, recoverFile maxErrors ts = some r ∧ r.file.Sound := by
  have hok : (tokenize "procedure p main confirm tank.m > 2 kg; = end main end procedure").isOk =
      true := by
    cbv
  obtain ⟨ts, h⟩ := exists_tokenize_of_isOk hok
  exact ⟨ts, h, sound_of_tokenize h⟩

end OpsLang
