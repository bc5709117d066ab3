import Mathlib
import OpsLang.Proofs.Highlighting.Statement
import OpsLang.Proofs.Spelling.File

/-!
# Names of files

In a file that can be read every name and every unit is shown in the role that the grammar gives
it (`highlight_names`), but for one case that concerns activities : the classifier takes an
activity behind `initiate and confirm` for the beginning of a condition if an operator stands
behind it, where the reader begins another statement (`highlight_activities`,
`highlight_activities_before_sign`).

Both rest on one comparison of the mentions of the file with the names of the row
(`showsAll_of_parseFile`), put together along the spelling of the file.
-/

namespace OpsLang

open Highlight

/-! ## Types -/

/-- A dotted name behind these tokens is a type. -/
structure TypePlace (before : List Token) : Prop where
  ne_dot : before.head? ≠ some (.symbol .dot)
  declared : declared? before = none
  type : inTypePosition before = true

/-- A name behind these tokens and before a colon is a field. -/
structure FieldPlace (before : List Token) : Prop where
  ne_dot : before.head? ≠ some (.symbol .dot)
  declared : declared? before = none

section Places

variable {before after us : List Token} {next : Token} {n : String}

theorem typePlace_colon (us : List Token) : TypePlace (.symbol .colon :: us) :=
  ⟨by simp, rfl, rfl⟩

theorem typePlace_bracket (us : List Token) : TypePlace (.symbol .leftBracket :: us) :=
  ⟨by simp, rfl, rfl⟩

theorem typePlace_declaration (n : String) (us : List Token) :
    TypePlace (.name n :: .keyword .type :: us) :=
  ⟨by simp, rfl, rfl⟩

/-- A segment of the name of a type. -/
theorem shownAs_type (hb : TypePlace before) (hnext : next.Apart) (n : String)
    (first last : Bool) :
    Mention.ShownAs ⟨n, PathUse.type.role first last⟩
      ⟨n, segmentCategory before (next :: after) first last,
        operatorBehind (next :: after)⟩ := by
  refine .of_eq rfl ?_
  have hcolon := hnext.ne_colon
  simp [segmentCategory, hb.declared, hb.type, startsWith, hcolon, PathUse.role, Role.category]

/-- A segment of the name of a namespace. -/
theorem shownAs_space (us stop : List Token) (n : String) (first last : Bool) :
    Mention.ShownAs ⟨n, PathUse.space.role first last⟩
      ⟨n, segmentCategory (.keyword .namespace_ :: us) stop first last, operatorBehind stop⟩ :=
  .of_eq rfl rfl

/-- A name that is declared. -/
theorem shownAs_declared (role : Role) (hb : before.head? ≠ some (.symbol .dot))
    (h : declared? before = some role.category) (operator : Bool) :
    Mention.ShownAs ⟨n, role⟩ ⟨n, tokenCategory before (.name n) after, operator⟩ := by
  refine .of_eq rfl ?_
  show nameCategory before after = _
  rw [nameCategory_eq, beyondPath_of_head hb, segmentCategory, h]

/-- The name of a field. -/
theorem shownAs_field {u : Token} (hu : u.IsMember n) (hb : FieldPlace before)
    (operator : Bool) :
    Mention.ShownAs ⟨n, .field⟩
      ⟨n, tokenCategory before u (.symbol .colon :: after), operator⟩ := by
  have hname : tokenCategory before u (.symbol .colon :: after) =
      nameCategory before (.symbol .colon :: after) := by
    rcases hu with rfl | ⟨rfl, -⟩
    · rfl
    · simp [tokenCategory, startsWith]
  refine .of_eq rfl ?_
  show tokenCategory before u _ = _
  rw [hname, nameCategory_eq, beyondPath_of_head hb.ne_dot, inPath_of_head hb.ne_dot,
    segmentCategory, hb.declared]
  rfl

end Places

mutual

/-- The names of a type are shown in their roles. -/
theorem TypeExpr.Spells.shown : ∀ {t : TypeExpr} {ts before after : List Token} {next : Token},
    t.Spells ts → TypePlace before → next.Apart →
      ShowsAll t.mentions (showings before ts (next :: after))
  | .primitive p, _, _, _, _, h, hb, hnext => by
    have hpath : Path.Spells ⟨[p.text]⟩ [.name p.text] := ⟨[], rfl, rfl⟩
    obtain rfl := h
    exact hpath.shown .type hb.ne_dot (head_cons_ne_dot hnext.ne_dot)
      (shownAs_type hb hnext)
  | .named p, _, _, _, _, h, hb, hnext =>
    Path.Spells.shown (p := p) h .type hb.ne_dot (head_cons_ne_dot hnext.ne_dot)
      (shownAs_type hb hnext)
  | .array element size, _, before, after, next, h, _, _ => by
    obtain ⟨us, x, rfl, hel, -⟩ := h
    rw [showings_cons_of_not rfl, showings_append_of_not (by simp [isSegment])]
    exact TypeExpr.Spells.shown (t := element) hel (typePlace_bracket before)
      Token.apart_semicolon
  | .struct fields, _, before, after, next, h, _, _ => by
    obtain ⟨us, rfl, hfields⟩ := h
    rw [showings_keyword, showings_cons_of_not rfl, showings_append_of_not (by simp [isSegment])]
    exact hfields.shown ⟨by simp, rfl⟩

/-- The names of fields, and those of their types, are shown in their roles. -/
theorem Field.AllSpell.shown : ∀ {fields : List Field} {ts before after : List Token},
    Field.AllSpell fields ts → FieldPlace before →
      ShowsAll (Field.allMentions fields) (showings before ts (.symbol .rightBrace :: after))
  | [], _, _, _, h, _ => by
    obtain rfl := h
    exact .nil
  | .mk n t :: fields, _, before, after, h, hb => by
    obtain ⟨u, us, vs, rfl, hu, ht, hrest⟩ := h
    have hplace := typePlace_colon (u :: before)
    rw [showings_cons (isSegment_of_isMember hu), text_of_isMember hu,
      showings_cons_of_not (t := .symbol .colon) rfl, showings_append]
    refine ShowsAll.cons (shownAs_field hu hb _) ?_
    obtain ⟨rfl, rfl⟩ | ⟨ws, rfl, hws⟩ := hrest
    · exact (ht.shown hplace ⟨by simp, by simp⟩).append .nil
    · have hcomma : (Token.symbol .comma).Apart := ⟨by simp, by simp⟩
      refine (ht.shown hplace hcomma).append ?_
      rw [showings_cons_of_not rfl]
      exact hws.shown ⟨by simp, rfl⟩

end

/-! ## Declarations -/

theorem Declaration.Spells.begins {d : Declaration} {ts : List Token} (h : d.Spells ts) :
    ∃ k us, ts = .keyword k :: us := by
  cases d with
  | space p ds n =>
    obtain ⟨us, vs, rfl, -⟩ := h
    exact ⟨_, _, rfl⟩
  | type n body line =>
    obtain ⟨us, rfl, -⟩ := h
    exact ⟨_, _, rfl⟩

/-- What stands first in a part that begins with semicolons or a word joins nothing to a name
before it. -/
theorem apart_of_semicolons {ss us vs ts : List Token} {t : Token}
    (h : t :: ts = ss ++ (us ++ vs)) (hss : ∀ t ∈ ss, t = .symbol .semicolon)
    (hus : ∃ k ws, us = .keyword k :: ws) : t.Apart := by
  obtain ⟨k, ws, rfl⟩ := hus
  cases ss with
  | nil =>
    cases h
    exact Token.apart_keyword k
  | cons s ss =>
    cases h
    rw [hss t List.mem_cons_self]
    exact Token.apart_semicolon

theorem Declaration.AllSpell.head_apart {ds : List Declaration} {t : Token} {ts : List Token}
    (h : Declaration.AllSpell ds (t :: ts)) : t.Apart := by
  cases ds with
  | nil =>
    rw [h t List.mem_cons_self]
    exact Token.apart_semicolon
  | cons d ds =>
    obtain ⟨ss, us, vs, heq, hss, hd, -⟩ := h
    exact apart_of_semicolons heq hss hd.begins

mutual

/-- The names of a declaration are shown in their roles. -/
theorem Declaration.Spells.shown : ∀ {d : Declaration} {ts before after : List Token}
    {next : Token}, d.Spells ts → next.Apart →
      ShowsAll d.mentions (showings before ts (next :: after))
  | .space p ds _, _, before, after, next, h, _ => by
    obtain ⟨us, vs, rfl, hp, hds⟩ := h
    rw [showings_keyword, showings_append, showings_cons_of_not (t := .symbol .leftBrace) rfl,
      showings_append_of_not (by simp [isSegment])]
    refine ShowsAll.append ?_ (hds.shown ⟨by simp, by simp⟩)
    exact hp.shown .space (by simp) (head_cons_ne_dot (by simp)) (shownAs_space _ _)
  | .type n body _, _, before, after, next, h, hnext => by
    obtain ⟨us, rfl, hbody⟩ := h
    rw [showings_keyword, showings_cons rfl]
    exact .cons (shownAs_declared .type (by simp) rfl _)
      (hbody.shown (typePlace_declaration n before) hnext)

/-- The names of the declarations of a namespace are shown in their roles. -/
theorem Declaration.AllSpell.shown : ∀ {ds : List Declaration} {ts before after : List Token}
    {next : Token}, Declaration.AllSpell ds ts → next.Apart →
      ShowsAll (Declaration.allMentions ds) (showings before ts (next :: after))
  | [], _, _, _, _, h, _ => by
    rw [showings_semicolons h]
    exact .nil
  | d :: ds, _, before, after, next, h, hnext => by
    obtain ⟨ss, us, vs, rfl, hss, hd, hds⟩ := h
    rw [showings_append, showings_semicolons hss, List.nil_append, showings_append]
    refine ShowsAll.append ?_ (hds.shown hnext)
    cases vs with
    | nil => exact hd.shown hnext
    | cons v vs => exact hd.shown hds.head_apart

end

/-! ## What stands before an item -/

/-- What stands last in a part of a row, or before it if it is empty. -/
theorem head_reverse_append {us before : List Token} {t : Token}
    (h : (us.reverse ++ before).head? = some t) : t ∈ us ∨ us = [] ∧ before.head? = some t := by
  cases hus : us.reverse with
  | nil =>
    rw [List.reverse_eq_nil_iff] at hus
    subst hus
    exact .inr ⟨rfl, h⟩
  | cons v vs =>
    rw [hus, List.cons_append, List.head?_cons] at h
    cases h
    refine .inl (List.mem_reverse.1 ?_)
    rw [hus]
    exact List.mem_cons_self

theorem MembersSpell.ne_keyword : ∀ {ns : List String} {ts : List Token}, MembersSpell ns ts →
    ∀ t ∈ ts, ∀ k, t ≠ .keyword k
  | [], _, h => by
    obtain rfl := h
    simp
  | n :: ns, _, h => by
    obtain ⟨t, us, ht, hns, rfl⟩ := h
    have hmember : ∀ k, t ≠ .keyword k := by
      rcases ht with rfl | ⟨rfl, -⟩ <;> simp
    simpa using ⟨hmember, hns.ne_keyword⟩

theorem Path.Spells.ne_keyword {p : Path} {ts : List Token} (h : p.Spells ts) :
    ∀ t ∈ ts, ∀ k, t ≠ .keyword k := by
  obtain ⟨_ | ⟨n, ns⟩⟩ := p
  · obtain rfl := h
    simp
  · obtain ⟨us, hns, rfl⟩ := h
    simpa using hns.ne_keyword

/-- No item ends in `end`, which would take the next `procedure` for its own. -/
theorem Item.Spells.last_ne_end {i : Item} {ts before : List Token} (h : i.Spells ts) :
    (ts.reverse ++ before).head? ≠ some (.keyword .end_) := by
  cases i with
  | procedure p =>
    obtain ⟨us, vs, ws, rfl, -⟩ := h
    simp [BlockKind.endTokens, BlockKind.closer]
  | declaration d =>
    cases d with
    | space p ds n =>
      obtain ⟨us, vs, rfl, -⟩ := h
      simp
    | type n body line =>
      obtain ⟨us, rfl, hbody⟩ := h
      have hlast : (us.reverse ++ (Token.name n :: .keyword .type :: before)).head? ≠
          some (.keyword .end_) := by
        cases htype : body.type with
        | primitive p =>
          rw [htype] at hbody
          obtain rfl := hbody
          simp
        | array element size =>
          rw [htype] at hbody
          obtain ⟨vs, x, rfl, -⟩ := hbody
          simp
        | struct fields =>
          rw [htype] at hbody
          obtain ⟨vs, rfl, -⟩ := hbody
          simp
        | named p =>
          rw [htype] at hbody
          intro hhead
          obtain hmem | ⟨-, hname⟩ := head_reverse_append hhead
          · exact Path.Spells.ne_keyword (p := p) hbody _ hmem _ rfl
          · cases hname
      simpa using hlast

/-! ## Procedures and items -/

section Sections

variable {kind : BlockKind} {us before after : List Token}

theorem SectionSpells.shown {room : Nat} {body : Block} (h : SectionSpells kind body us)
    (hkind : kind ≠ .procedure) (hleg : Block.Legible room body)
    (hb : before.head? ≠ some (.keyword .type)) :
    ShowsAll (Block.mentions body) (showings before us after) := by
  obtain ⟨vs, rfl, hbody⟩ := h
  have hplain : Plain (.keyword kind.closer :: before) := by
    refine plain_cons ?_ hb
    cases kind <;> first
      | rfl
      | exact absurd rfl hkind
  rw [showings_keyword, showings_append, showings_endTokens, List.append_nil]
  exact hbody.shown hleg hplain rfl

theorem OptionalSectionSpells.shown {room : Nat} {body : Option Block}
    (h : OptionalSectionSpells kind body us) (hkind : kind ≠ .procedure)
    (hleg : ∀ b ∈ body, Block.Legible room b) (hb : before.head? ≠ some (.keyword .type)) :
    ShowsAll (optionalMentions body) (showings before us after) := by
  cases body with
  | none =>
    obtain rfl := h
    exact .nil
  | some body => exact SectionSpells.shown h hkind (hleg body rfl) hb

theorem SectionSpells.last_ne_type {body : Block} (h : SectionSpells kind body us) :
    (us.reverse ++ before).head? ≠ some (.keyword .type) := by
  obtain ⟨vs, rfl, -⟩ := h
  cases kind <;> simp [BlockKind.endTokens, BlockKind.closer]

theorem OptionalSectionSpells.last_ne_type {body : Option Block}
    (h : OptionalSectionSpells kind body us) (hb : before.head? ≠ some (.keyword .type)) :
    (us.reverse ++ before).head? ≠ some (.keyword .type) := by
  cases body with
  | none =>
    obtain rfl := h
    exact hb
  | some body => exact SectionSpells.last_ne_type h

end Sections

/-- The names of a procedure are shown in their roles. -/
theorem Procedure.Spells.shown {room : Nat} {p : Procedure} {ts before after : List Token}
    (h : p.Spells ts) (hleg : p.Legible room) (hb : before.head? ≠ some (.keyword .end_)) :
    ShowsAll p.mentions (showings before ts after) := by
  obtain ⟨us, vs, ws, rfl, hus, hvs, hws⟩ := h
  have hname : declared? (.keyword .procedure :: before) = some Role.procedure.category := by
    have hend : startsWith (.keyword .end_) before = false := by simpa [startsWith] using hb
    simp [declared?, hend, Role.category]
  have hstart : (Token.name p.name :: .keyword .procedure :: before).head? ≠
      some (.keyword .type) := by simp
  have hpre := hus.last_ne_type hstart
  rw [showings_keyword, showings_cons rfl]
  refine ShowsAll.cons (shownAs_declared .procedure (by simp) hname _) ?_
  rw [showings_append, showings_append, showings_append, showings_endTokens, List.append_nil]
  exact (hus.shown (by simp) hleg.preconditions hstart).append
    ((hvs.shown (by simp) hleg.main hpre).append
      (hws.shown (by simp) hleg.confirmation hvs.last_ne_type))

theorem Item.Spells.begins {i : Item} {ts : List Token} (h : i.Spells ts) :
    ∃ k us, ts = .keyword k :: us := by
  cases i with
  | procedure p =>
    obtain ⟨us, vs, ws, rfl, -⟩ := h
    exact ⟨_, _, rfl⟩
  | declaration d => exact Declaration.Spells.begins h

theorem Item.AllSpell.head_apart {is : List Item} {t : Token} {ts : List Token}
    (h : Item.AllSpell is (t :: ts)) : t.Apart := by
  cases is with
  | nil =>
    rw [h t List.mem_cons_self]
    exact Token.apart_semicolon
  | cons i is =>
    obtain ⟨ss, us, vs, heq, hss, hi, -⟩ := h
    exact apart_of_semicolons heq hss hi.begins

/-- The names of items are shown in their roles. -/
theorem Item.AllSpell.shown {room : Nat} {is : List Item} {ts before after : List Token}
    {next : Token} (h : Item.AllSpell is ts) (hleg : ∀ i ∈ is, i.Legible room)
    (hb : before.head? ≠ some (.keyword .end_)) (hnext : next.Apart) :
    ShowsAll (is.flatMap Item.mentions) (showings before ts (next :: after)) := by
  induction is generalizing ts before with
  | nil =>
    rw [showings_semicolons h]
    exact .nil
  | cons i is ih =>
    obtain ⟨ss, us, vs, rfl, hss, hi, his⟩ := h
    obtain ⟨hlegi, hlegs⟩ := List.forall_mem_cons.1 hleg
    have hstart : (ss.reverse ++ before).head? ≠ some (.keyword .end_) := by
      intro hhead
      obtain hmem | ⟨-, hbefore⟩ := head_reverse_append hhead
      · cases hss _ hmem
      · exact hb hbefore
    have hitem : ∀ {next : Token} {after : List Token}, next.Apart →
        ShowsAll i.mentions (showings (ss.reverse ++ before) us (next :: after)) := by
      intro next after hnext
      cases i with
      | procedure p => exact Procedure.Spells.shown hi hlegi hstart
      | declaration d => exact Declaration.Spells.shown hi hnext
    rw [List.flatMap_cons, showings_append, showings_semicolons hss, List.nil_append,
      showings_append]
    refine ShowsAll.append ?_ (ih his hlegs hi.last_ne_end)
    cases vs with
    | nil => exact hitem hnext
    | cons v vs => exact hitem his.head_apart

/-! ## Rows of texts -/

section Rows

variable {us : List Located} {e : Located}

/-- The highlights of tokens behind others. -/
def highlightsFrom (before : List Token) (us : List Located) : List Highlight :=
  List.zipWith (fun u c => ⟨u.span, c⟩) us (categories before (words us ++ [.eof]))

theorem highlightsFrom_cons (before : List Token) (u : Located) (us : List Located) :
    highlightsFrom before (u :: us) =
      ⟨u.span, tokenCategory before u.token (words us ++ [Token.eof])⟩ ::
        highlightsFrom (u.token :: before) us :=
  rfl

/-- A row that ends once has a highlight for each of its tokens before the end. -/
theorem highlight_eq (he : e.token = .eof) (hus : ∀ u ∈ us, u.token ≠ .eof) :
    highlight (us ++ [e]) = highlightsFrom [] us := by
  have hwords : words (us ++ [e]) = words us ++ [Token.eof] := by simp [he]
  suffices hrows : ∀ before, (((us ++ [e]).zip (categories before (words us ++ [Token.eof]))).filter
      fun r => r.1.token != .eof).map (fun r => ⟨r.1.span, r.2⟩) = highlightsFrom before us by
    rw [highlight, ← words, hwords, hrows]
  clear hwords
  induction us with
  | nil => simp [categories, highlightsFrom, he]
  | cons u us ih =>
    intro before
    obtain ⟨hu, hrest⟩ := List.forall_mem_cons.1 hus
    have hkept : (u.token != .eof) = true := by simpa using hu
    simp only [words_cons, List.cons_append, categories, List.zip_cons_cons, List.filter_cons,
      hkept, if_true, List.map_cons, highlightsFrom_cons, ih hrest]

/-- The names of a row that ends once are those of its tokens before the end. -/
theorem shownNames_eq (he : e.token = .eof) (hus : ∀ u ∈ us, u.token ≠ .eof) :
    shownNames (us ++ [e]) = showings [] (words us) [.eof] := by
  rw [shownNames, highlight_eq he hus]
  suffices hrows : ∀ before, shownFrom (us ++ [e]) (highlightsFrom before us) =
      showings before (words us) [.eof] from hrows []
  clear hus
  induction us with
  | nil => simp [shownFrom, highlightsFrom]
  | cons u us ih =>
    intro before
    have hwords : words (us ++ [e]) = words us ++ [Token.eof] := by simp [he]
    simp only [words_cons, List.cons_append, highlightsFrom_cons, shownFrom, showings, ih, hwords]

/-- Nothing but a name or a unit is shown as the name of a procedure or as a unit. -/
theorem tokenCategory_ne {t : Token} (h : isSegment t = false) (before after : List Token) :
    tokenCategory before t after ≠ .procedureName ∧ tokenCategory before t after ≠ .unit := by
  unfold tokenCategory
  split <;> first
    | cases h
      done
    | simp
  all_goals split_ifs <;> simp

/-- No token of a row but a name or a unit is shown as the name of a procedure or as a unit. -/
theorem category_ne_of_zip (he : e.token = .eof) (hus : ∀ u ∈ us, u.token ≠ .eof) :
    ∀ r ∈ (us ++ [e]).zip (highlight (us ++ [e])), isSegment r.1.token = false →
      r.2.category ≠ .procedureName ∧ r.2.category ≠ .unit := by
  rw [highlight_eq he hus]
  suffices hrows : ∀ before, ∀ r ∈ (us ++ [e]).zip (highlightsFrom before us),
      isSegment r.1.token = false → r.2.category ≠ .procedureName ∧ r.2.category ≠ .unit from
    hrows []
  clear hus
  induction us with
  | nil => simp [highlightsFrom]
  | cons u us ih =>
    intro before
    rw [highlightsFrom_cons, List.cons_append, List.zip_cons_cons, List.forall_mem_cons]
    exact ⟨fun h => tokenCategory_ne h _ _, ih _⟩

/-- The mentions of a file that is read from a row are shown one by one. -/
theorem showsAll_of_parseFile {f : SourceFile} (he : e.token = .eof)
    (hw : ∀ u ∈ us, u.token.Written) (h : parseFile (us ++ [e]) = .accepted f) :
    ShowsAll f.mentions (shownNames (us ++ [e])) := by
  have hne : ∀ u ∈ us, u.token ≠ .eof := fun u hu => (hw u hu).ne_eof
  rw [shownNames_eq he hne]
  obtain ⟨hsp, hleg⟩ := parseFile_read he hw h
  exact Item.AllSpell.shown hsp hleg (by simp) ⟨by simp, by simp⟩

end Rows

/-! ## Roles that are shown -/

/-- A name or a unit that belongs to no activity is shown in its role. Only names of procedures
and units are shown as such. -/
structure Mention.NameShownAs (m : Mention) (s : Shown) : Prop where
  text : s.text = m.text
  category : m.role.mode? = none → s.category = m.role.category
  procedure_iff : s.category = .procedureName ↔ m.role = .procedure
  unit_iff : s.category = .unit ↔ m.role = .unit

/-- In a text that can be read every name and every unit that belongs to no activity is shown in
its role, and nothing else is shown as the name of a procedure or as a unit. -/
theorem highlight_names {text : String} {f : SourceFile} (h : parseSource text = .accepted f) :
    ∃ ts, tokenize text = .ok ts ∧
      List.Forall₂ Mention.NameShownAs f.mentions (shownNames ts) ∧
      ∀ r ∈ ts.zip (highlight ts), isSegment r.1.token = false →
        r.2.category ≠ .procedureName ∧ r.2.category ≠ .unit := by
  obtain ⟨us, e, hts, he, hw, hfile⟩ := exists_row_of_parseSource h
  refine ⟨_, hts, (showsAll_of_parseFile he hw hfile).imp fun m s hs => ?_,
    category_ne_of_zip he fun u hu => (hw u hu).ne_eof⟩
  have hcategory : m.role.mode? = none → s.category = m.role.category := fun hmode =>
    hs.category (by simp [hmode])
  refine ⟨hs.text, hcategory, ⟨hs.procedure, fun hm => ?_⟩, ⟨hs.unit, fun hm => ?_⟩⟩
  · rw [hcategory (by rw [hm]; rfl), hm]
    rfl
  · rw [hcategory (by rw [hm]; rfl), hm]
    rfl

/-- The same word as the name of a function and as a unit. -/
theorem highlight_names_unit :
    let f : SourceFile := ⟨[.procedure ⟨"P", none, [.assign "x" (.call ⟨["a", "V"]⟩
      [.named "n" (.measure (.ofLexeme "2") ⟨"V", .electrical⟩)]) 1], none, 1⟩]⟩
    parseSource "procedure P main x = a.V(n = 2 V) end main end procedure" = .accepted f ∧
      ∃ ts, tokenize "procedure P main x = a.V(n = 2 V) end main end procedure" = .ok ts ∧
        List.Forall₂ Mention.NameShownAs f.mentions (shownNames ts) ∧
        ∀ r ∈ ts.zip (highlight ts), isSegment r.1.token = false →
          r.2.category ≠ .procedureName ∧ r.2.category ≠ .unit := by
  intro f
  have h : parseSource "procedure P main x = a.V(n = 2 V) end main end procedure" =
      .accepted f := by cbv
  exact ⟨h, highlight_names h⟩

/-- A name that belongs to an activity is shown in its role, but perhaps if the activity is
initiated and confirmed with an operator behind it. -/
structure Mention.ActivityShownAs (m : Mention) (s : Shown) : Prop where
  text : s.text = m.text
  category : ∀ mode, m.role.mode? = some mode →
    (mode = .initiateAndConfirm → s.operatorBehind = false) → s.category = m.role.category

/-- In a text that can be read the names of activities are shown in their roles, but perhaps if
they are initiated and confirmed with an operator behind them. -/
theorem highlight_activities {text : String} {f : SourceFile}
    (h : parseSource text = .accepted f) :
    ∃ ts, tokenize text = .ok ts ∧
      List.Forall₂ Mention.ActivityShownAs f.mentions (shownNames ts) := by
  obtain ⟨us, e, hts, he, hw, hfile⟩ := exists_row_of_parseSource h
  refine ⟨_, hts, (showsAll_of_parseFile he hw hfile).imp fun m s hs => ⟨hs.text, ?_⟩⟩
  intro mode hmode hoperator
  refine hs.category fun hconfirmed => hoperator ?_
  exact Option.some.inj (hmode.symm.trans hconfirmed)

/-- An activity that is initiated and confirmed, with a semicolon before the next sign. -/
theorem highlight_activities_semicolon :
    let f : SourceFile := ⟨[.procedure ⟨"P", none, [
      .activity .initiateAndConfirm ⟨["a", "B"]⟩ [] 1, .expr (.unary .neg (.name "x")) 1],
      none, 1⟩]⟩
    parseSource "procedure P main initiate and confirm a.B; -x end main end procedure" =
        .accepted f ∧
      ∃ ts, tokenize "procedure P main initiate and confirm a.B; -x end main end procedure" =
          .ok ts ∧
        List.Forall₂ Mention.ActivityShownAs f.mentions (shownNames ts) := by
  intro f
  have h : parseSource "procedure P main initiate and confirm a.B; -x end main end procedure" =
      .accepted f := by cbv
  exact ⟨h, highlight_activities h⟩

/-- An activity that is initiated and confirmed right before a sign is shown as a value and its
property : the classifier sees the beginning of a difference. -/
theorem highlight_activities_before_sign :
    let f : SourceFile := ⟨[.procedure ⟨"P", none, [
      .activity .initiateAndConfirm ⟨["a", "B"]⟩ [] 1, .expr (.unary .neg (.name "x")) 1],
      none, 1⟩]⟩
    parseSource "procedure P main initiate and confirm a.B -x end main end procedure" =
        .accepted f ∧
      f.mentions = [⟨"P", .procedure⟩, ⟨"a", .activitySpace .initiateAndConfirm⟩,
        ⟨"B", .activity .initiateAndConfirm⟩, ⟨"x", .variableName⟩] ∧
      (tokenize "procedure P main initiate and confirm a.B -x end main end procedure").map
          (fun ts => (shownNames ts).map fun s => (s.text, s.category)) =
        .ok [("P", .procedureName), ("a", .variableName), ("B", .property),
          ("x", .variableName)] := by
  intro f
  exact ⟨by cbv, rfl, by cbv⟩

end OpsLang
