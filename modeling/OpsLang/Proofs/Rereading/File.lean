import OpsLang.Proofs.Rereading.Statement
import OpsLang.Proofs.Retelling.File

/-!
# Files read back

The text of every file that can be read is read as that file again, but for the lines
(`parseSource_text`). No parenthesis is added on the way and no level of nesting, since what
was read is legible (`parseFile_retold`) and legible trees are read back from their canonical
tokens. Equal files without lines have equal texts (`SourceFile.text_unlined`), so a second
text is the first one.
-/

namespace OpsLang

/-! ## Files without lines -/

mutual

/-- The declaration with every line set to zero. -/
def Declaration.unlined : Declaration → Declaration
  | .space p ds _ => .space p (Declaration.allUnlined ds) 0
  | .type n body _ => .type n body 0

/-- The declarations with every line set to zero. -/
def Declaration.allUnlined : List Declaration → List Declaration
  | [] => []
  | d :: ds => d.unlined :: Declaration.allUnlined ds

end

/-- The procedure with every line set to zero. -/
def Procedure.unlined (p : Procedure) : Procedure where
  name := p.name
  preconditions := p.preconditions.map Block.unlined
  main := Block.unlined p.main
  confirmation := p.confirmation.map Block.unlined
  line := 0

/-- The item with every line set to zero. -/
def Item.unlined : Item → Item
  | .procedure p => .procedure p.unlined
  | .declaration d => .declaration d.unlined

/-- The file with every line set to zero. -/
def SourceFile.unlined (f : SourceFile) : SourceFile :=
  ⟨f.items.map Item.unlined⟩

mutual

theorem Declaration.lines_unlined : ∀ (level : Nat) (d : Declaration),
    d.unlined.lines level = d.lines level
  | _, .space _ [] _ => rfl
  | level, .space _ (d :: ds) _ => by
    simp only [Declaration.unlined, Declaration.allUnlined, Declaration.lines,
      Declaration.lines_unlined (level + 1) d, Declaration.allLines_unlined (level + 1) ds]
  | _, .type _ _ _ => rfl

theorem Declaration.allLines_unlined : ∀ (level : Nat) (ds : List Declaration),
    Declaration.allLines level (Declaration.allUnlined ds) = Declaration.allLines level ds
  | _, [] => rfl
  | level, d :: ds => by
    simp only [Declaration.allUnlined, Declaration.allLines, Declaration.lines_unlined level d,
      Declaration.allLines_unlined level ds]

end

theorem sectionLines_unlined (kind : BlockKind) (body : Block) :
    sectionLines kind (Block.unlined body) = sectionLines kind body := by
  simp only [sectionLines, Block.lines_unlined 2 body]

theorem optionalSectionLines_unlined (kind : BlockKind) (body : Option Block) :
    optionalSectionLines kind (body.map Block.unlined) = optionalSectionLines kind body := by
  cases body with
  | none => rfl
  | some body => exact sectionLines_unlined kind body

theorem Item.lines_unlined (i : Item) : i.unlined.lines = i.lines := by
  cases i with
  | procedure p =>
    simp only [Item.unlined, Item.lines, Procedure.unlined, Procedure.lines,
      sectionLines_unlined, optionalSectionLines_unlined]
  | declaration d => exact Declaration.lines_unlined 0 d

/-- The text does not show the lines of a file. -/
theorem SourceFile.text_unlined (f : SourceFile) : f.unlined.text = f.text := by
  simp [SourceFile.text, SourceFile.unlined, Item.lines_unlined, Function.comp_def]

namespace Grammar

open Reader

variable {room : Nat}

/-! ## Types -/

theorem yields_namedType_primitive (p : Primitive) :
    namedType.Yields (· ≠ .symbol .dot) [.name p.text] (· = .primitive p) := by
  intro us s hus _ hs
  have hpath : (Path.single p.text).Spells (words us) := ⟨[], rfl, hus⟩
  have hrun := path_of_spells hs (by simp [Path.single]) hpath
  refine ⟨_, ?_, rfl⟩
  rw [namedType_run, hrun]
  simp [Path.single, Primitive.ofText?_text]

theorem yields_namedType_named {p : Path} (hp : p.Legible)
    (hprim : ∀ n, p.segments = [n] → Primitive.ofText? n = none) :
    namedType.Yields (· ≠ .symbol .dot) p.tokens (· = .named p) := by
  intro us s hus hf hs
  obtain ⟨p, hrun, rfl⟩ := yields_path hp hus hf hs
  refine ⟨_, ?_, rfl⟩
  rw [namedType_run, hrun, Outcome.andThen_ok]
  split
  · next n hn => rw [hprim n hn]
  · rfl

theorem yields_arraySize (n : UInt64) :
    arraySize.Yields (fun _ => True) [.number (toString n.toNat)] (· = n) := by
  intro us s hus _ _
  obtain ⟨u, rfl, hu⟩ := words_eq_singleton.1 hus
  refine ⟨n, ?_, rfl⟩
  rw [arraySize_run, Stream.token_behind_cons, hu]
  simp only [Numeral.toUInt64?_decimal]
  rfl

section Inner

variable {inner : Reader TypeExpr}

theorem yields_arrayType {element : TypeExpr} (size : UInt64)
    (h : inner.Yields (· ≠ .symbol .dot) element.tokens (· = element)) :
    (arrayType inner).Yields (fun _ => True) (TypeExpr.array element size).tokens
      (· = .array element size) := by
  refine .symbol (h.andThen (by simp) ?_)
  rintro _ rfl
  refine .symbol ((yields_arraySize size).andThen trivial ?_)
  rintro _ rfl
  exact .symbol (.pure rfl)

theorem yields_field {n : String} {t : TypeExpr} (hn : (Token.member n).IsMember n)
    (ht : inner.Yields (· ≠ .symbol .dot) t.tokens (· = t)) :
    (field inner).Yields (· ≠ .symbol .dot) (Field.mk n t).tokens (· = .mk n t) := by
  refine .member hn (.symbol (ht.map ?_))
  rintro _ rfl
  rfl

/-- The tokens of a field, and the comma behind it if one is there. -/
theorem yields_fieldRound {n : String} {t : TypeExpr} (hn : (Token.member n).IsMember n)
    (ht : inner.Yields (· ≠ .symbol .dot) t.tokens (· = t)) {ok : Token → Prop}
    {ts : List Token} {P : Turn Field → Prop} (hok : ∀ u, First ok ts u → u ≠ .symbol .dot)
    (h : Yields (do
      if ← eat (.symbol .comma) then return Turn.item (Field.mk n t)
      else return Turn.last (Field.mk n t)) ok ts P) :
    (fieldRound inner).Yields ok ((Field.mk n t).tokens ++ ts) P := by
  refine .peek ?_
  rw [if_neg (isMember_ne hn).2]
  refine (yields_field hn ht).bind hok ?_
  rintro _ rfl
  exact h

theorem yields_fields : ∀ {fs : List Field}, Field.AllLegible room fs →
    (∀ f ∈ fs, inner.Yields (· ≠ .symbol .dot) f.type.tokens (· = f.type)) →
      Yields (many (fieldRound inner)) (· = .symbol .rightBrace) (Field.allTokens fs) (· = fs)
  | [], _, _ => by
    refine Yields.many_stop (.peek_nil ?_)
    rintro t rfl
    rw [if_pos rfl]
    exact .pure rfl
  | [.mk n t], ⟨⟨⟨hn, _⟩, _⟩, _⟩, hinner => by
    have ht := hinner _ List.mem_cons_self
    have hround : (fieldRound inner).Yields (· = .symbol .rightBrace)
        ((Field.mk n t).tokens ++ []) fun x => ∃ f, x = .last f ∧ f = .mk n t := by
      refine yields_fieldRound hn ht ?_ (.eat_not ?_ (.pure ⟨_, rfl, rfl⟩))
      · rintro u rfl
        simp
      · rintro u rfl
        simp
    refine hround.many_last.mono (fun _ h => h) ?_
    rintro _ ⟨_, rfl, rfl⟩
    rfl
  | .mk n t :: g :: fs, ⟨⟨⟨hn, _⟩, _⟩, hlegs⟩, hinner => by
    obtain ⟨ht, hinners⟩ := List.forall_mem_cons.1 hinner
    have hround : (fieldRound inner).Yields (fun _ => True)
        ((Field.mk n t).tokens ++ [Token.symbol .comma])
          fun x => ∃ f, x = .item f ∧ f = .mk n t := by
      refine yields_fieldRound hn ht ?_ (.eat (.pure ⟨_, rfl, rfl⟩))
      rintro u rfl
      simp
    have hall := hround.many_item (by simp) (fun _ _ => trivial) (yields_fields hlegs hinners)
    rw [List.append_assoc] at hall
    refine hall.mono (fun _ h => h) ?_
    rintro _ ⟨_, _, rfl, rfl, rfl⟩
    rfl

theorem yields_structType {fs : List Field} (hfs : Field.AllLegible room fs)
    (h : ∀ f ∈ fs, inner.Yields (· ≠ .symbol .dot) f.type.tokens (· = f.type)) :
    (structType inner).Yields (fun _ => True) (TypeExpr.struct fs).tokens (· = .struct fs) := by
  rw [structType_eq]
  refine .keyword (.symbol ((yields_fields hfs h).andThen rfl ?_))
  rintro _ rfl
  exact .symbol (.pure rfl)

end Inner

mutual

/-- The canonical tokens of a type are read as the type. -/
theorem yields_typeAt : ∀ {room : Nat} (t : TypeExpr), t.Legible room →
    (typeAt room).Yields (· ≠ .symbol .dot) t.tokens (· = t)
  | 0, _, h => absurd h TypeExpr.not_legible_zero
  | _ + 1, .primitive p, _ => .peek (yields_namedType_primitive p)
  | _ + 1, .array element size, h =>
    .peek ((yields_arrayType size (yields_typeAt element h)).mono (fun _ _ => trivial)
      fun _ h => h)
  | _ + 1, .struct fs, h =>
    .peek ((yields_structType h (yields_fieldTypes fs h)).mono (fun _ _ => trivial) fun _ h => h)
  | _ + 1, .named p, ⟨hp, hprim⟩ => by
    have hnamed := yields_namedType_named hp hprim
    obtain ⟨_ | ⟨n, ns⟩⟩ := p
    · exact absurd rfl hp.ne_nil
    · exact .peek hnamed

theorem yields_fieldTypes : ∀ {room : Nat} (fs : List Field), Field.AllLegible room fs →
    ∀ f ∈ fs, (typeAt room).Yields (· ≠ .symbol .dot) f.type.tokens (· = f.type)
  | _, [], _ => by simp
  | _, .mk _ t :: fs, ⟨⟨_, ht⟩, hfs⟩ =>
    List.forall_mem_cons.2 ⟨yields_typeAt t ht, yields_fieldTypes fs hfs⟩

end

/-! ## Declarations -/

theorem yields_typeDeclaration {n : String} {body : TypeBody}
    (h : body.type.Legible (room + 1)) :
    (typeDeclaration (typeAt room)).Yields (· ≠ .symbol .dot)
      (.keyword .type :: .name n :: body.type.tokens) (fun d => d.unlined = .type n body 0) := by
  refine .here fun u => .skip (.name ?_)
  have htype : (typeOf (typeAt room)).Yields (· ≠ .symbol .dot) body.type.tokens
      (· = body.type) := yields_typeAt body.type h
  refine htype.bind_nil ?_
  rintro _ rfl
  cases body <;> exact .pure rfl

/-- The declaration is read back but for its lines. -/
def DeclarationYields (inner : Reader Declaration) (d : Declaration) : Prop :=
  inner.Yields (· ≠ .symbol .dot) d.tokens fun d' => d'.unlined = d.unlined

theorem Declaration.begins (d : Declaration) :
    ∃ k ts, d.tokens = .keyword k :: ts ∧ (k = .namespace_ ∨ k = .type) := by
  cases d with
  | space p ds n => exact ⟨_, _, rfl, .inl rfl⟩
  | type n body line => exact ⟨_, _, rfl, .inr rfl⟩

theorem Item.begins (i : Item) : ∃ k ts, i.tokens = .keyword k :: ts := by
  rcases i with p | d
  · exact ⟨_, _, rfl⟩
  · obtain ⟨k, ts, heq, -⟩ := Declaration.begins d
    exact ⟨k, ts, heq⟩

section Inner

variable {inner : Reader Declaration}

theorem yields_childRound {d : Declaration} (h : DeclarationYields inner d) :
    (childRound inner).Yields (· ≠ .symbol .dot) d.tokens
      fun t => ∃ d', t = .item d' ∧ d'.unlined = d.unlined := by
  have hitem : (inner >>= fun d => pure (Turn.item d)).Yields (· ≠ .symbol .dot) d.tokens
      fun t => ∃ d', t = .item d' ∧ d'.unlined = d.unlined :=
    Yields.map h fun d' hd' => ⟨d', rfl, hd'⟩
  obtain ⟨k, ts, heq, hk⟩ := Declaration.begins d
  rw [heq] at hitem ⊢
  refine .semicolons (by rintro _ rfl; simp) (.peek ?_)
  rcases hk with rfl | rfl <;> exact hitem

theorem yields_children : ∀ {ds : List Declaration}, (∀ d ∈ ds, DeclarationYields inner d) →
    Yields (many (childRound inner)) (fun _ => True)
      (Declaration.allTokens ds ++ [Token.symbol .rightBrace])
      fun ds' => Declaration.allUnlined ds' = Declaration.allUnlined ds
  | [], _ => by
    have hround : (childRound inner).Yields (fun _ => True) [.symbol .rightBrace] (· = .stop) :=
      .semicolons (by rintro _ rfl; simp) (.peek (.skip (.pure rfl)))
    refine hround.many_stop.mono (fun _ h => h) ?_
    rintro _ rfl
    rfl
  | d :: ds, h => by
    obtain ⟨hd, hds⟩ := List.forall_mem_cons.1 h
    obtain ⟨k, ts, heq, -⟩ := Declaration.begins d
    have hall := (yields_childRound hd).many_item (by simp [heq]) ?_ (yields_children hds)
    · rw [Declaration.allTokens, List.append_assoc]
      refine hall.mono (fun _ h => h) ?_
      rintro _ ⟨d', ds', rfl, hd', hds'⟩
      rw [Declaration.allUnlined, Declaration.allUnlined, hd', hds']
    · intro t ht
      cases ds with
      | nil =>
        obtain rfl := ht
        simp
      | cons d' ds =>
        obtain ⟨k', ts', heq', -⟩ := Declaration.begins d'
        rw [Declaration.allTokens, heq'] at ht
        obtain rfl := ht
        simp

theorem yields_namespaceDeclaration {p : Path} (hp : p.Legible) {ds : List Declaration}
    (h : ∀ d ∈ ds, DeclarationYields inner d) (n : Nat) :
    (namespaceDeclaration inner).Yields (fun _ => True) (Declaration.space p ds n).tokens
      fun d => d.unlined = (Declaration.space p ds n).unlined := by
  refine .here fun u => .skip ((yields_path hp).andThen (by simp) ?_)
  rintro _ rfl
  refine .symbol ((yields_children h).map fun ds' heq => ?_)
  rw [Declaration.unlined, Declaration.unlined, heq]

end Inner

mutual

/-- The canonical tokens of a declaration are read as the declaration. -/
theorem yields_declarationAt : ∀ {room : Nat} (d : Declaration), d.Legible room →
    DeclarationYields (declarationAt room) d
  | 0, _, h => absurd h Declaration.not_legible_zero
  | _ + 1, .space _ ds n, ⟨hp, hds⟩ =>
    .peek ((yields_namespaceDeclaration hp (yields_declarations ds hds) n).mono
      (fun _ _ => trivial) fun _ h => h)
  | _ + 1, .type _ _ _, ⟨_, hbody⟩ => .peek (yields_typeDeclaration hbody)

theorem yields_declarations : ∀ {room : Nat} (ds : List Declaration),
    Declaration.AllLegible room ds → ∀ d ∈ ds, DeclarationYields (declarationAt room) d
  | _, [], _ => by simp
  | _, d :: ds, ⟨hd, hds⟩ =>
    List.forall_mem_cons.2 ⟨yields_declarationAt d hd, yields_declarations ds hds⟩

end

/-! ## Procedures -/

theorem yields_section (kind : BlockKind) {body : Block} (h : Block.Legible room body) :
    (sectionAt room kind).Yields (fun _ => True) (sectionTokens kind body)
      fun b => Block.unlined b = Block.unlined body := by
  refine .here fun u => .skip ((yields_block body h kind _ false).andThen rfl fun b heq => ?_)
  exact (yields_endOf kind _).map fun _ _ => heq

theorem yields_optionalSection {kind : BlockKind} {body : Option Block}
    (h : ∀ b ∈ body, Block.Legible room b) :
    (optionalSectionAt room kind).Yields (· ≠ .keyword kind.closer)
      (optionalSectionTokens kind body)
      fun b => b.map Block.unlined = body.map Block.unlined := by
  cases body with
  | none =>
    refine .peek_nil fun t ht => ?_
    rw [if_neg ht]
    exact .pure rfl
  | some body =>
    refine .peek ?_
    rw [if_pos rfl]
    have hsection := yields_section kind (h body rfl)
    exact (hsection.mono (fun _ _ => trivial) fun _ h => h).map fun b heq => congrArg some heq

/-- The canonical tokens of a procedure are read as the procedure. -/
theorem yields_procedure {p : Procedure} (h : p.Legible room) :
    (procedureAt room).Yields (fun _ => True) p.tokens fun q => q.unlined = p.unlined := by
  refine .here fun u => .keyword (.name ?_)
  refine (yields_optionalSection h.preconditions).bind (by rintro _ rfl; simp [BlockKind.closer])
    fun pre hpre => .look (b := ()) ?_ ?_
  · intro s hs
    replace hs : s.token = .keyword .main := hs
    rw [mainAhead_run, hs]
  refine (yields_section .main h.main).bind (fun _ _ => trivial) fun main hmain => ?_
  refine (yields_optionalSection h.confirmation).bind (by rintro _ rfl; simp [BlockKind.closer])
    fun conf hconf => .look (b := ()) ?_ ?_
  · intro s hs
    replace hs : s.token = .keyword .end_ := hs
    rw [endAhead_run, hs]
  refine (yields_endOf .procedure _).map fun _ _ => ?_
  simp only [Procedure.unlined, hpre, hmain, hconf]

/-! ## Files -/

/-- The canonical tokens of an item are read as the item. -/
theorem yields_item {i : Item} (h : i.Legible room) :
    (itemAt room).Yields (· ≠ .symbol .dot) i.tokens fun j => j.unlined = i.unlined := by
  intro us s hus hf hs
  cases i with
  | procedure p =>
    obtain ⟨q, hrun, hq⟩ := yields_procedure h hus hf trivial
    have htoken : (s.behind us).token = .keyword .procedure := token_behind_of_words hus
    refine ⟨.procedure q, ?_, congrArg Item.procedure hq⟩
    rw [itemAt_run, htoken]
    exact congrArg (Outcome.map Item.procedure) hrun
  | declaration d =>
    obtain ⟨d', hrun, hd⟩ := yields_declarationAt d h hus hf hs
    obtain ⟨k, ts, heq, hk⟩ := Declaration.begins d
    have htoken : (s.behind us).token = .keyword k := token_behind_of_words (hus.trans heq)
    refine ⟨.declaration d', ?_, congrArg Item.declaration hd⟩
    rw [itemAt_run, htoken]
    rcases hk with rfl | rfl <;> exact congrArg (Outcome.map Item.declaration) hrun

theorem yields_fileRound {i : Item} (h : i.Legible room) :
    (fileRoundAt room).Yields (· ≠ .symbol .dot) i.tokens
      fun t => ∃ j, t = .item j ∧ j.unlined = i.unlined := by
  have hitem : (itemAt room >>= fun i => pure (Turn.item i)).Yields
      (· ≠ .symbol .dot) i.tokens fun t => ∃ j, t = .item j ∧ j.unlined = i.unlined :=
    (yields_item h).map fun j hj => ⟨j, rfl, hj⟩
  obtain ⟨k, ts, heq⟩ := Item.begins i
  rw [heq] at hitem ⊢
  refine .semicolons (by rintro _ rfl; simp) (.peek ?_)
  rw [if_neg (by simp)]
  exact hitem

theorem yields_items : ∀ {is : List Item}, (∀ i ∈ is, i.Legible room) →
    Yields (many (fileRoundAt room)) (· = .eof) (is.flatMap Item.tokens)
      fun js => js.map Item.unlined = is.map Item.unlined
  | [], _ => by
    have hround : (fileRoundAt room).Yields (· = .eof) [] (· = .stop) := by
      refine .semicolons (by rintro _ rfl; simp) (.peek_nil fun t ht => ?_)
      rw [if_pos ht]
      exact .pure rfl
    refine hround.many_stop.mono (fun _ h => h) ?_
    rintro _ rfl
    rfl
  | i :: is, h => by
    obtain ⟨hi, his⟩ := List.forall_mem_cons.1 h
    obtain ⟨k, ts, heq⟩ := Item.begins i
    have hall := (yields_fileRound hi).many_item (by simp [heq]) ?_ (yields_items his)
    · refine hall.mono (fun _ h => h) ?_
      rintro _ ⟨j, js, rfl, hj, hjs⟩
      rw [List.map_cons, List.map_cons, hj, hjs]
    · intro t ht
      cases is with
      | nil =>
        obtain rfl := ht
        simp
      | cons j is =>
        obtain ⟨k', ts', heq'⟩ := Item.begins j
        rw [List.flatMap_cons, heq'] at ht
        obtain rfl := ht
        simp

end Grammar

open Grammar Reader

/-- A row that has the canonical tokens of a legible file is that file but for the lines. -/
theorem parseFile_of_legible {f : SourceFile} (hf : f.Legible maxNesting) {us : List Located}
    {e : Located} (he : e.token = .eof) (hus : words us = f.tokens) (hfused : Fused us) :
    ∃ g, parseFile (us ++ [e]) = .accepted g ∧ g.unlined = f.unlined := by
  have hend : Stream.token ⟨e, []⟩ = .eof := he
  obtain ⟨js, hrun, hjs⟩ := yields_items hf hus hfused hend
  have hrow : us ++ [e] = us ++ Stream.row ⟨e, []⟩ := rfl
  refine ⟨⟨js⟩, ?_, congrArg SourceFile.mk hjs⟩
  rw [parseFile_eq, fileRound_outcome, hrow, Stream.ofTokens_append_row, hrun]
  rfl

/-- The text of a file that was read is read as that file again but for the lines. -/
theorem exists_parseSource_text {text : String} {f : SourceFile}
    (h : parseSource text = .accepted f) :
    ∃ g, parseSource f.text = .accepted g ∧ g.unlined = f.unlined := by
  unfold parseSource ofText at h
  split at h
  · next ts hts =>
    obtain ⟨vs, e, rfl, he, hw⟩ := tokenize_spec hts
    obtain ⟨hleg, -⟩ := parseFile_retold he hw h
    obtain ⟨us, e', htext, hus, hfused, he'⟩ := SourceFile.tokenize_text hleg
    obtain ⟨g, hg, hlines⟩ := parseFile_of_legible hleg he' hus hfused
    exact ⟨g, by simp only [parseSource, ofText, htext, hg], hlines⟩
  · cases h

theorem SourceFile.text_eq_of_unlined {f g : SourceFile} (h : g.unlined = f.unlined) :
    g.text = f.text := by
  rw [← g.text_unlined, h, f.text_unlined]

/-- The text of a file that was read is read as that file again but for the lines, and so has
the same text. -/
theorem parseSource_text {text : String} {f : SourceFile} (h : parseSource text = .accepted f) :
    ∃ g, parseSource f.text = .accepted g ∧ g.unlined = f.unlined ∧ g.text = f.text := by
  obtain ⟨g, hg, hlines⟩ := exists_parseSource_text h
  exact ⟨g, hg, hlines, SourceFile.text_eq_of_unlined hlines⟩

/-- Two expressions that only a semicolon keeps apart. -/
theorem parseSource_text_separated :
    let f : SourceFile := ⟨[.procedure ⟨"Go", none,
      [.expr (.name "pump") 1, .expr (.unary .neg (.name "valve")) 1], none, 1⟩]⟩
    parseSource "procedure Go main pump; -valve end main end procedure" = .accepted f ∧
      ∃ g, parseSource f.text = .accepted g ∧ g.unlined = f.unlined ∧ g.text = f.text := by
  intro f
  have h : parseSource "procedure Go main pump; -valve end main end procedure" =
      .accepted f := by cbv
  exact ⟨h, parseSource_text h⟩

end OpsLang
