import Mathlib
import OpsLang.Proofs.Retelling.Statement
import OpsLang.Proofs.Spelling.File

/-!
# Files and their canonical tokens

What is read as a type, a declaration, a procedure or a file comes to the same significant
tokens as its canonical text (`significant_text`) : nothing that a reader passes over is lost,
but for optional punctuation.
-/

namespace OpsLang

/-! ## Types -/

theorem decimalSize_of_value {x : String} {n : UInt64}
    (h : (Numeral.ofLexeme x).toUInt64? = some n) : decimalSize x = toString n.toNat := by
  simp [decimalSize, h]

/-- An array size comes to its decimal spelling. -/
theorem shows_size {ok : Token → Prop} {x : String} {n : UInt64}
    (h : (Numeral.ofLexeme x).toUInt64? = some n) :
    Shows ok [.symbol .semicolon, .number x, .symbol .rightBracket]
      [.number (toString n.toNat), .symbol .rightBracket] := by
  refine Shows.semicolon fun u rest hu => ?_
  rw [List.cons_append, List.singleton_append, significant_cons rfl,
    significant_cons_of_isPlain rfl]
  simp [Token.kept, decimalSize_of_value h]

theorem Token.Follows.symbol {y : Symbol} (h : (Token.symbol y).endsOperand = true)
    (hop : BinaryOp.ofToken? (.symbol y) = none) (hy : y ≠ .assign ∧ y ≠ .rightBracket) :
    Token.Follows (.symbol y) :=
  ⟨h, hop, by simpa using hy.1, by simpa [NotBracket] using hy.2⟩

theorem Path.Spells.alike {p : Path} {ts : List Token} (h : p.Spells ts)
    (hw : ∀ t ∈ ts, t.Written) : Alike (fun _ => True) ts p.tokens :=
  .of_shows (h.shows hw) (.of_isPlain p.isPlain_tokens)

theorem Token.Follows.eof : Token.Follows .eof :=
  ⟨rfl, rfl, by simp, by simp [NotBracket]⟩

/-- Parts that come to the same outside of statements, where nothing depends on the token
behind. -/
theorem Alike.parts {us us' ts ts' : List Token} (h : Alike (fun _ => True) us ts)
    (h' : Alike (fun _ => True) us' ts') (hhead : ∀ t ∈ ts'.head?, t.Follows) :
    Alike (fun _ => True) (us ++ us') (ts ++ ts') :=
  h.append h' (fun _ _ => trivial) (fun _ _ _ => trivial) hhead

theorem isMember_ne {n : String} {t : Token} (h : t.IsMember n) :
    t ≠ .symbol .rightParen ∧ t ≠ .symbol .rightBrace := by
  rcases h with rfl | ⟨rfl, -⟩ <;> simp

theorem isPlain_member (n : String) : (Token.member n).isPlain = true := by
  unfold Token.member
  split <;> rfl

mutual

/-- A type comes to the same as its canonical tokens. -/
theorem TypeExpr.Spells.alike : ∀ {room : Nat} {t : TypeExpr} {ts : List Token}, t.Spells ts →
    t.Legible room → (∀ u ∈ ts, u.Written) → Alike (fun _ => True) ts t.tokens
  | 0, _, _, _, hleg, _ => absurd hleg TypeExpr.not_legible_zero
  | _ + 1, .primitive p, _, h, _, _ => by
    obtain rfl := h
    exact Alike.nil.cons rfl
  | room + 1, .array element size, _, h, hleg, hw => by
    obtain ⟨us, x, rfl, hel, hx⟩ := h
    have helement : element.Legible room := hleg
    simp only [List.forall_mem_cons, List.forall_mem_append] at hw
    have hsize : Alike (fun _ => True) [.symbol .semicolon, .number x, .symbol .rightBracket]
        [.symbol .semicolon, .number (toString size.toNat), .symbol .rightBracket] :=
      ⟨_, shows_size hx, shows_size (Numeral.toUInt64?_decimal size)⟩
    refine ((hel.alike helement hw.2.1).parts hsize ?_).cons rfl
    rintro t ⟨⟩
    exact .semicolon
  | room + 1, .struct fields, _, h, hleg, hw => by
    obtain ⟨us, rfl, hfields⟩ := h
    have hlegs : Field.AllLegible room fields := hleg
    simp only [List.forall_mem_cons, List.forall_mem_append] at hw
    exact ((hfields.alike hlegs hw.2.2.1).cons rfl).cons rfl
  | _ + 1, .named p, _, h, _, hw => Path.Spells.alike (p := p) h hw

/-- The fields of a struct, with the brace behind them, come to the same as their canonical
tokens. -/
theorem Field.AllSpell.alike : ∀ {room : Nat} {fields : List Field} {ts : List Token},
    Field.AllSpell fields ts → Field.AllLegible room fields → (∀ u ∈ ts, u.Written) →
      Alike (fun _ => True) (ts ++ [Token.symbol .rightBrace])
        (Field.allTokens fields ++ [Token.symbol .rightBrace])
  | _, [], _, h, _, _ => by
    obtain rfl := h
    exact Alike.nil.cons rfl
  | room, .mk n t :: fields, _, h, ⟨⟨hn, ht⟩, hlegs⟩, hw => by
    obtain ⟨u, us, vs, rfl, hu, hsp, hrest⟩ := h
    simp only [List.forall_mem_cons, List.forall_mem_append] at hw
    obtain ⟨huw, -, hus, hvs⟩ := hw
    obtain rfl := hu.eq_member huw
    have hbehind : Alike (fun _ => True) (vs ++ [Token.symbol .rightBrace])
        ((if fields.isEmpty then [] else .symbol .comma :: Field.allTokens fields) ++
          [.symbol .rightBrace]) := by
      obtain ⟨rfl, rfl⟩ | ⟨ws, rfl, hws⟩ := hrest
      · exact Alike.nil.cons rfl
      · have hothers := hws.alike hlegs (List.forall_mem_cons.1 hvs).2
        cases fields with
        | nil =>
          obtain rfl := hws
          exact ⟨_, Shows.lastComma.append_cons (Shows.nil.cons rfl) (.inr rfl),
            Shows.nil.cons rfl⟩
        | cons f fields =>
          obtain ⟨n', t'⟩ := f
          obtain ⟨u', us', vs', rfl, hu', -⟩ := hws
          exact hothers.comma (isMember_ne hu') (isMember_ne hlegs.1.1.1)
    have hhead : ∀ u ∈ ((if fields.isEmpty then [] else .symbol .comma :: Field.allTokens fields) ++
        [.symbol .rightBrace] : List Token).head?, u.Follows := by
      split <;> rintro u ⟨⟩ <;> exact .symbol rfl rfl (by decide)
    have hfield := (((hsp.alike ht hus).parts hbehind hhead).cons (t := .symbol .colon) rfl).cons
      (isPlain_member n)
    simpa [Field.allTokens, Field.tokens] using hfield

end

/-! ## Declarations -/

mutual

/-- A declaration comes to the same as its canonical tokens. -/
theorem Declaration.Spells.alike : ∀ {room : Nat} {d : Declaration} {ts : List Token},
    d.Spells ts → d.Legible room → (∀ t ∈ ts, t.Written) → Alike (fun _ => True) ts d.tokens
  | 0, _, _, _, hleg, _ => absurd hleg Declaration.not_legible_zero
  | room + 1, .space p ds _, _, h, ⟨_, hlegs⟩, hw => by
    obtain ⟨us, vs, rfl, hsp, hds⟩ := h
    simp only [List.forall_mem_cons, List.forall_mem_append] at hw
    obtain ⟨-, hus, -, hvs, -⟩ := hw
    refine ((hsp.alike hus).parts ((hds.alike hlegs hvs).cons rfl) ?_).cons rfl
    rintro t ⟨⟩
    exact .symbol rfl rfl (by decide)
  | _ + 1, .type n body _, _, h, ⟨_, hbody⟩, hw => by
    obtain ⟨us, rfl, hsp⟩ := h
    simp only [List.forall_mem_cons] at hw
    exact ((hsp.alike hbody hw.2.2).cons rfl).cons rfl

/-- The declarations of a namespace, with the brace behind them, come to the same as their
canonical tokens. -/
theorem Declaration.AllSpell.alike : ∀ {room : Nat} {ds : List Declaration} {ts : List Token},
    Declaration.AllSpell ds ts → Declaration.AllLegible room ds → (∀ t ∈ ts, t.Written) →
      Alike (fun _ => True) (ts ++ [Token.symbol .rightBrace])
        (Declaration.allTokens ds ++ [Token.symbol .rightBrace])
  | _, [], _, h, _, _ => Alike.semicolons h (Alike.nil.cons rfl)
  | _, d :: ds, _, h, ⟨hd, hlegs⟩, hw => by
    obtain ⟨ss, us, vs, rfl, hss, hsp, hds⟩ := h
    simp only [List.forall_mem_append] at hw
    rw [Declaration.allTokens, List.append_assoc, List.append_assoc, List.append_assoc]
    refine Alike.semicolons hss ((hsp.alike hd hw.2.1).parts (hds.alike hlegs hw.2.2) ?_)
    cases ds with
    | nil =>
      rintro t ⟨⟩
      exact .symbol rfl rfl (by decide)
    | cons d' ds =>
      cases d' <;> rintro t ⟨⟩ <;> exact .keyword rfl

end

/-! ## Procedures -/

theorem SectionSpells.alike {room : Nat} {kind : BlockKind} {body : Block} {ts : List Token}
    (h : SectionSpells kind body ts) (hleg : Block.Legible room body)
    (hw : ∀ t ∈ ts, t.Written) : Alike (fun _ => True) ts (sectionTokens kind body) := by
  obtain ⟨us, rfl, hsp⟩ := h
  simp only [List.forall_mem_cons, List.forall_mem_append] at hw
  exact (Block.alike_end (hsp.alike hleg hw.2.1) kind).cons (by cases kind <;> rfl)

theorem OptionalSectionSpells.alike {room : Nat} {kind : BlockKind} {body : Option Block}
    {ts : List Token} (h : OptionalSectionSpells kind body ts)
    (hleg : ∀ b ∈ body, Block.Legible room b) (hw : ∀ t ∈ ts, t.Written) :
    Alike (fun _ => True) ts (optionalSectionTokens kind body) := by
  cases body with
  | none =>
    obtain rfl := h
    exact Alike.nil
  | some body => exact SectionSpells.alike h (hleg body rfl) hw

theorem Procedure.Spells.alike {room : Nat} {p : Procedure} {ts : List Token} (h : p.Spells ts)
    (hleg : p.Legible room) (hw : ∀ t ∈ ts, t.Written) :
    Alike (fun _ => True) ts p.tokens := by
  obtain ⟨us, vs, ws, rfl, hpre, hmain, hconf⟩ := h
  simp only [List.forall_mem_cons, List.forall_mem_append] at hw
  obtain ⟨-, -, hus, hvs, hws, -⟩ := hw
  have hend : Alike (fun _ => True) BlockKind.procedure.endTokens BlockKind.procedure.endTokens :=
    Block.alike_end .nil .procedure
  have hconfEnd := (hconf.alike hleg.confirmation hws).parts hend (by
    rintro t ⟨⟩
    exact .keyword rfl)
  have hmainEnd := (hmain.alike hleg.main hvs).parts hconfEnd (by
    cases p.confirmation <;> rintro t ⟨⟩ <;> exact .keyword rfl)
  have hpreEnd := (hpre.alike hleg.preconditions hus).parts hmainEnd (by
    rintro t ⟨⟩
    exact .keyword rfl)
  exact (hpreEnd.cons rfl).cons rfl

/-! ## Files -/

theorem Item.Spells.alike {room : Nat} {i : Item} {ts : List Token} (h : i.Spells ts)
    (hleg : i.Legible room) (hw : ∀ t ∈ ts, t.Written) : Alike (fun _ => True) ts i.tokens := by
  cases i with
  | procedure p => exact Procedure.Spells.alike h hleg hw
  | declaration d => exact Declaration.Spells.alike h hleg hw

theorem item_tokens_eq_cons (i : Item) : ∃ t ts, i.tokens = t :: ts ∧ t.Follows := by
  rcases i with p | ⟨d⟩
  · exact ⟨_, _, rfl, .keyword rfl⟩
  · cases d <;> exact ⟨_, _, rfl, .keyword rfl⟩

theorem Item.AllSpell.alike {room : Nat} {is : List Item} {ts : List Token}
    (h : Item.AllSpell is ts) (hleg : ∀ i ∈ is, i.Legible room) (hw : ∀ t ∈ ts, t.Written) :
    Alike (fun _ => True) ts (is.flatMap Item.tokens) := by
  induction is generalizing ts with
  | nil =>
    have halike : Alike (fun _ => True) (ts ++ []) [] := Alike.semicolons h .nil
    rwa [List.append_nil] at halike
  | cons i is ih =>
    obtain ⟨ss, us, vs, rfl, hss, hi, his⟩ := h
    obtain ⟨hlegi, hlegs⟩ := List.forall_mem_cons.1 hleg
    simp only [List.forall_mem_append] at hw
    rw [List.flatMap_cons]
    refine Alike.semicolons hss ((hi.alike hlegi hw.2.1).parts (ih his hlegs hw.2.2) ?_)
    cases is with
    | nil => rintro t ⟨⟩
    | cons j is =>
      obtain ⟨t, ts, heq, hfollows⟩ := item_tokens_eq_cons j
      rw [List.flatMap_cons, heq]
      rintro u ⟨⟩
      exact hfollows

/-- A file is legible and comes to the same as the tokens it was read from. -/
theorem parseFile_retold {us : List Located} {e : Located} {f : SourceFile}
    (he : e.token = .eof) (hw : ∀ u ∈ us, u.token.Written)
    (h : parseFile (us ++ [e]) = .accepted f) :
    f.Legible maxNesting ∧ Alike (fun _ => True) (words us) f.tokens := by
  obtain ⟨hsp, hleg⟩ := parseFile_read he hw h
  exact ⟨hleg, Item.AllSpell.alike hsp hleg (forall_mem_words.2 hw)⟩

/-- The text of a file comes to the same significant tokens as the text it was read from. -/
theorem significant_text {text : String} {f : SourceFile} (h : parseSource text = .accepted f) :
    ∃ ts us, tokenize text = .ok ts ∧ tokenize f.text = .ok us ∧
      significant (words ts) = significant (words us) := by
  unfold parseSource ofText at h
  split at h
  · next ts hts =>
    obtain ⟨vs, e, rfl, he, hw⟩ := tokenize_spec hts
    obtain ⟨hleg, ws, hus, hts'⟩ := parseFile_retold he hw h
    obtain ⟨us, e', htext, hus', -, he'⟩ := SourceFile.tokenize_text hleg
    refine ⟨_, _, hts, htext, ?_⟩
    rw [words_append, words_append, hus']
    have hend : words [e] = [.eof] := congrArg (fun t => [t]) he
    have hend' : words [e'] = [.eof] := congrArg (fun t => [t]) he'
    rw [hend, hend', hus .eof [] trivial, hts' .eof [] .eof]
  · cases h

/-- A comment, a semicolon and an empty argument list, none of which the canonical text has. -/
theorem significant_text_optional_tokens :
    let f : SourceFile := ⟨[.procedure ⟨"Go", none,
      [.activity .initiate ⟨["a", "b"]⟩ [] 1], none, 1⟩]⟩
    parseSource "procedure Go main initiate a.b(); # go\nend main end procedure" = .accepted f ∧
      ∃ ts us,
        tokenize "procedure Go main initiate a.b(); # go\nend main end procedure" = .ok ts ∧
        tokenize f.text = .ok us ∧ significant (words ts) = significant (words us) := by
  intro f
  have h : parseSource "procedure Go main initiate a.b(); # go\nend main end procedure" =
      .accepted f := by cbv
  exact ⟨h, significant_text h⟩

end OpsLang
