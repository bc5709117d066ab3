import OpsLang.Proofs.Agreement
import OpsLang.Proofs.Relining.Statement
import OpsLang.Proofs.Rereading.File

/-!
# Files on other lines

The layout of a row has no meaning beyond the units : where two rows have the same tokens, and a
unit behind a number stands on the line of the number in both or in neither, they are read as the
same file but for its lines, or both are refused at the same token with diagnostics of one kind that
list the same and found the same (`parseFile_relined`). Lines are carried into trees, into the
diagnostic of an open block, and nowhere else (`matches_fileRoundAt`).
-/

namespace OpsLang

namespace Grammar

open Reader

/-! ## Types -/

theorem steady_namedType : namedType.Steady := by
  refine steady_path.bind fun p => ?_
  split
  · split <;> exact steady_pure _
  · exact steady_pure _

theorem tellAlike_badSize (lexeme : String) :
    TellAlike (fun s => s.badSize lexeme) (fun s => s.badSize lexeme) where
  span _ := rfl
  span' _ := rfl
  alike s s' h := ⟨rfl, rfl, by simp only [Stream.badSize, h]⟩

theorem steady_arraySize : arraySize.Steady := by
  refine steady_peek.bind fun t => ?_
  split
  · split
    · exact steady_skip.bind fun _ => steady_pure _
    · exact matches_failAt (tellAlike_badSize _)
  · exact steady_refuse _

section Types

variable {inner : Reader TypeExpr} (hi : inner.Steady)

include hi

theorem steady_arrayType : (arrayType inner).Steady :=
  (steady_symbol _).bind fun _ => hi.bind fun _ => (steady_symbol _).bind fun _ =>
    steady_arraySize.bind fun _ => (steady_symbol _).bind fun _ => steady_pure _

theorem steady_structType : (structType inner).Steady := by
  have hfield : (field inner).Steady :=
    (steady_member _).bind fun _ => (steady_symbol _).bind fun _ => hi.bind fun _ => steady_pure _
  have hround : (fieldRound inner).Steady :=
    steady_peek.bind fun _ => (steady_pure _).ite <| hfield.bind fun _ =>
      (steady_eat _).bind fun _ => (steady_pure _).ite (steady_pure _)
  rw [structType_eq]
  exact (steady_keyword _).bind fun _ => (steady_symbol _).bind fun _ => hround.many.bind fun _ =>
    (steady_symbol _).bind fun _ => steady_pure _

theorem steady_typeOf : (typeOf inner).Steady := by
  refine steady_peek.bind fun t => ?_
  split
  · exact steady_structType hi
  · exact steady_arrayType hi
  · exact steady_namedType
  · exact steady_refuse _

end Types

theorem steady_typeAt (room : Nat) : (typeAt room).Steady := by
  induction room with
  | zero => exact matches_tooDeep
  | succ room ih => exact steady_typeOf ih

/-! ## Declarations -/

/-- The declarations are the same but for their lines. -/
def SameDeclaration (d d' : Declaration) : Prop :=
  d'.unlined = d.unlined

theorem allUnlined_of_sameDeclaration {ds ds' : List Declaration}
    (h : List.Forall₂ SameDeclaration ds ds') :
    Declaration.allUnlined ds' = Declaration.allUnlined ds := by
  induction h with
  | nil => rfl
  | cons h _ ih => exact congrArg₂ List.cons h ih

theorem tellAlike_bareAlias (n : String) (p : Path) :
    TellAlike (fun s => s.bareAlias n p) (fun s => s.bareAlias n p) where
  span _ := rfl
  span' _ := rfl
  alike _ _ _ := ⟨rfl, rfl, rfl⟩

theorem matches_typeDeclaration {inner : Reader TypeExpr} (hi : inner.Steady) :
    Matches SameDeclaration (typeDeclaration inner) (typeDeclaration inner) := by
  refine matches_here.bind fun _ _ _ => .after steady_skip fun _ => .after (steady_name _) fun n =>
    .after (steady_typeOf hi) fun t => ?_
  cases t with
  | named p => exact matches_failAt (tellAlike_bareAlias n p)
  | _ => exact matches_pure rfl

section Children

variable {inner : Reader Declaration} (hi : Matches SameDeclaration inner inner)

include hi

theorem matches_childRound :
    Matches (Turn.Matches SameDeclaration) (childRound inner) (childRound inner) := by
  refine .after steady_semicolons fun _ => .after steady_peek fun t => ?_
  split
  · exact .after steady_skip fun _ => matches_pure .stop
  · exact hi.bind fun _ _ h => matches_pure (.item h)
  · exact hi.bind fun _ _ h => matches_pure (.item h)
  · exact matches_failAt (tellAlike_expecting _)

theorem matches_namespaceDeclaration :
    Matches SameDeclaration (namespaceDeclaration inner) (namespaceDeclaration inner) := by
  have hchildren : Matches (List.Forall₂ SameDeclaration) (many (childRound inner))
      (many (childRound inner)) := (matches_childRound hi).many
  exact matches_here.bind fun _ _ _ => .after steady_skip fun _ => .after steady_path fun p =>
    .after (steady_symbol _) fun _ => hchildren.bind fun _ _ h =>
      matches_pure (congrArg (Declaration.space p · 0) (allUnlined_of_sameDeclaration h))

theorem matches_declarationOf {type : Reader TypeExpr} (ht : type.Steady) :
    Matches SameDeclaration (declarationOf type inner) (declarationOf type inner) := by
  refine .after steady_peek fun t => ?_
  split
  · exact matches_namespaceDeclaration hi
  · exact matches_typeDeclaration ht
  · exact matches_failAt (tellAlike_expecting _)

end Children

theorem matches_declarationAt (room : Nat) :
    Matches SameDeclaration (declarationAt room) (declarationAt room) := by
  induction room with
  | zero => exact matches_tooDeep
  | succ room ih => exact matches_declarationOf ih (steady_typeAt room)

/-! ## Procedures and items -/

/-- The items are the same but for their lines. -/
def SameItem (i i' : Item) : Prop :=
  i'.unlined = i.unlined

theorem map_unlined_of_sameItem {is is' : List Item} (h : List.Forall₂ SameItem is is') :
    is'.map Item.unlined = is.map Item.unlined := by
  induction h with
  | nil => rfl
  | cons h _ ih => exact congrArg₂ List.cons h ih

section Items

variable (room : Nat)

theorem matches_sectionAt (kind : BlockKind) :
    Matches SameBlock (sectionAt room kind) (sectionAt room kind) :=
  matches_here.bind fun _ _ _ => .after steady_skip fun _ =>
    (matches_statements room kind _ _ false).bind fun _ _ hbody => (matches_endOf kind _ _).bind
      fun _ _ _ => matches_pure hbody

theorem matches_optionalSectionAt (kind : BlockKind) :
    Matches SamePart (optionalSectionAt room kind) (optionalSectionAt room kind) :=
  .after steady_peek fun _ => .ite ((matches_sectionAt room kind).bind fun _ _ hbody =>
    matches_pure (congrArg some hbody)) (matches_pure rfl)

theorem matches_mainAhead (line line' : Nat) (b : Bool) :
    Matches Eq (mainAhead line b) (mainAhead line' b) := by
  refine .after steady_peek fun t => ?_
  split
  · exact matches_pure rfl
  · exact matches_failAt (tellAlike_unterminated _ _ _)
  · exact matches_failAt (tellAlike_expecting _)

theorem steady_endAhead (b : Bool) : (endAhead b).Steady := by
  refine steady_peek.bind fun t => ?_
  split
  · exact steady_pure _
  · exact steady_pure _
  · exact steady_refuse _

/-- The procedures are the same but for their lines. -/
def SameProcedure (p p' : Procedure) : Prop :=
  p'.unlined = p.unlined

theorem matches_procedureAt :
    Matches SameProcedure (procedureAt room) (procedureAt room) := by
  refine matches_here.bind fun _ _ _ => .after (steady_keyword _) fun _ =>
    .after (steady_name _) fun n => (matches_optionalSectionAt room _).bind fun _ _ hpre => ?_
  rw [hpre.isSome_eq]
  refine (matches_mainAhead _ _ _).bind fun _ _ _ => (matches_sectionAt room _).bind
    fun _ _ hmain => (matches_optionalSectionAt room _).bind fun _ _ hconf => ?_
  rw [hconf.isSome_eq]
  refine .after (steady_endAhead _) fun _ => (matches_endOf _ _ _).bind fun _ _ _ =>
    matches_pure ?_
  rw [SameProcedure, Procedure.unlined, hpre, hmain, hconf]
  rfl

theorem matches_itemAt : Matches SameItem (itemAt room) (itemAt room) := by
  have hdecl : Matches SameDeclaration (declaration room) (declaration room) :=
    matches_declarationOf (matches_declarationAt room) (steady_typeAt room)
  refine .after steady_peek fun t => ?_
  split
  · exact (matches_procedureAt room).bind fun _ _ h => matches_pure (congrArg Item.procedure h)
  · exact hdecl.bind fun _ _ h => matches_pure (congrArg Item.declaration h)
  · exact hdecl.bind fun _ _ h => matches_pure (congrArg Item.declaration h)
  · exact matches_failAt (tellAlike_expecting _)

/-- A round of a file reads the same item but for its lines. -/
theorem matches_fileRoundAt :
    Matches (Turn.Matches SameItem) (fileRoundAt room) (fileRoundAt room) :=
  .after steady_semicolons fun _ => .after steady_peek fun _ => .ite (matches_pure .stop)
    ((matches_itemAt room).bind fun _ _ h => matches_pure (.item h))

end Items

end Grammar

open Grammar

/-! ## Files -/

/-- A unit directly behind a number stands on the line of the number in both rows or in neither. -/
def FusesAlike (ts ts' : List Located) : Prop :=
  ∀ i : Nat, ∀ t ∈ ts[i]?, ∀ u ∈ ts[i + 1]?, ∀ t' ∈ ts'[i]?, ∀ u' ∈ ts'[i + 1]?, ∀ n w,
    t.token = .number n → u.token = .unit w → (u'.line = t'.line ↔ u.line = t.line)

theorem relined_of_fusesAlike : ∀ {ts ts' : List Located}, words ts' = words ts →
    FusesAlike ts ts' → Relined ts ts'
  | [], _, hwords, _ => by
    rw [words_eq_nil.1 hwords]
    exact .nil
  | t :: ts, _, hwords, h => by
    obtain ⟨t', ts', rfl, ht, hts⟩ := words_eq_cons.1 hwords
    refine .cons ht (fun n w hn u hu u' hu' hw => ?_)
      (relined_of_fusesAlike hts fun i => by simpa using h (i + 1))
    rw [List.head?_eq_getElem?] at hu hu'
    exact h 0 t rfl u (by simpa using hu) t' rfl u' (by simpa using hu') n w hn hw

section Rows

variable {ts ts' : List Located} {i : Nat}

/-- Where spans are distinct, a span tells where a token stands. -/
theorem getElem?_span_eq_iff (hspans : (ts.map Located.span).Nodup) {t : Located}
    (ht : ts[i]? = some t) (j : Nat) : ts[j]?.map Located.span = some t.span ↔ j = i := by
  rw [← List.getElem?_map]
  have hi : (ts.map Located.span)[i]? = some t.span := by rw [List.getElem?_map, ht]; rfl
  constructor
  · intro hj
    obtain ⟨hlt, -⟩ := List.getElem?_eq_some_iff.1 hj
    exact (List.getElem?_inj hlt hspans).1 (hj.trans hi.symm)
  · rintro rfl
    exact hi

theorem Stream.getElem?_append_row (us : List Located) (p : Stream) :
    (us ++ p.row)[us.length]? = some p.here := by
  simp [Stream.row]

/-- Rows with the same tokens, with units on the lines of their numbers in both or in neither, are
read as the same file but for its lines, or are refused at the same token with diagnostics of one
kind that list the same and found the same. -/
theorem parseFile_relined (hends : EndsOnce ts) (hends' : EndsOnce ts')
    (hspans : (ts.map Located.span).Nodup) (hspans' : (ts'.map Located.span).Nodup)
    (hwords : words ts' = words ts) (hfuses : FusesAlike ts ts') :
    (∃ f f', parseFile ts = .accepted f ∧ parseFile ts' = .accepted f' ∧
      f'.unlined = f.unlined) ∨
    ∃ (d d' : Diagnostic) (i : Nat), parseFile ts = .refused d ∧ parseFile ts' = .refused d' ∧
      d'.kind = d.kind ∧ d'.expected = d.expected ∧ d'.found = d.found ∧
      ∀ j, (ts[j]?.map Located.span = some d.span ↔ j = i) ∧
        (ts'[j]?.map Located.span = some d'.span ↔ j = i) := by
  have hrow := Stream.row_ofTokens hends
  have hrow' := Stream.row_ofTokens hends'
  have hrelined : (Stream.ofTokens ts).Relined (Stream.ofTokens ts') := by
    rw [Stream.Relined, hrow, hrow']
    exact relined_of_fusesAlike hwords hfuses
  have hmatches : (Reader.many (fileRoundAt maxNesting) (.ofTokens ts)).Matches
      (List.Forall₂ SameItem) _ _ (Reader.many (fileRoundAt maxNesting) (.ofTokens ts')) :=
    (matches_fileRoundAt maxNesting).many hrelined
  have hcases := parseFile_cases hends
  rw [parseFile_eq, fileRound_outcome] at hcases ⊢
  rw [parseFile_eq, fileRound_outcome]
  generalize Reader.many (fileRoundAt maxNesting) (.ofTokens ts) = o at hmatches hcases ⊢
  generalize Reader.many (fileRoundAt maxNesting) (.ofTokens ts') = o' at hmatches ⊢
  cases hmatches with
  | @ok is is' _ _ his _ =>
    exact .inl ⟨⟨is⟩, ⟨is'⟩, rfl, rfl, congrArg SourceFile.mk (map_unlined_of_sameItem his)⟩
  | @fail d d' _ _ q q' hq hspan hspan' hd =>
    obtain ⟨us, hus⟩ := hq.left
    obtain ⟨us', hus'⟩ := hq.right
    rw [hus, Stream.row_behind] at hrow
    rw [hus', Stream.row_behind] at hrow'
    have hlength : us'.length = us.length := by
      have hts := congrArg List.length hwords
      have hrest := OpsLang.Relined.length_eq hq.relined
      simp only [words, List.length_map, ← hrow, ← hrow', List.length_append] at hts
      omega
    have hi : ts[us.length]? = some q.here := hrow ▸ Stream.getElem?_append_row us q
    have hi' : ts'[us.length]? = some q'.here :=
      hlength ▸ hrow' ▸ Stream.getElem?_append_row us' q'
    refine .inr ⟨d, d', us.length, rfl, rfl, hd.kind, hd.expected, hd.found, fun j => ?_⟩
    rw [hspan, hspan']
    exact ⟨getElem?_span_eq_iff hspans hi j, getElem?_span_eq_iff hspans' hi' j⟩
  | endless =>
    obtain ⟨f, hf⟩ | ⟨d, hd⟩ := hcases
    · cases hf
    · cases hd

end Rows

/-- An array whose size has a unit, on one line and on many. -/
theorem parseFile_relined_size :
    let ws : List Token := [.keyword .type, .name "T", .symbol .leftBracket, .name "u8",
      .symbol .semicolon, .number "5", .unit "m", .symbol .rightBracket, .eof]
    let ts : List Located := ws.zipIdx.map fun (t, i) => ⟨t, ⟨i, i + 1, 1, i + 1⟩⟩
    let ts' : List Located := ws.zipIdx.map fun (t, i) => ⟨t, ⟨i, i + 1, min (i + 1) 6, i + 1⟩⟩
    EndsOnce ts ∧ EndsOnce ts' ∧ (ts.map Located.span).Nodup ∧ (ts'.map Located.span).Nodup ∧
      words ts' = words ts ∧ FusesAlike ts ts' ∧
      ((∃ f f', parseFile ts = .accepted f ∧ parseFile ts' = .accepted f' ∧
        f'.unlined = f.unlined) ∨
      ∃ (d d' : Diagnostic) (i : Nat), parseFile ts = .refused d ∧ parseFile ts' = .refused d' ∧
        d'.kind = d.kind ∧ d'.expected = d.expected ∧ d'.found = d.found ∧
        ∀ j, (ts[j]?.map Located.span = some d.span ↔ j = i) ∧
          (ts'[j]?.map Located.span = some d'.span ↔ j = i)) := by
  intro ws ts ts'
  have hfuses : FusesAlike ts ts' := by
    intro i t ht u hu t' ht' u' hu' n w hn hw
    have hi : i < 9 := (List.getElem?_eq_some_iff.1 ht).1
    interval_cases i <;> cases ht <;> cases hu <;> cases ht' <;> cases hu' <;>
      first | (cases hn; done) | (cases hw; done) | exact ⟨fun _ => rfl, fun _ => rfl⟩
  have hends : EndsOnce ts := by simp [ts, ws, EndsOnce]
  have hends' : EndsOnce ts' := by simp [ts', ws, EndsOnce]
  have hspans : (ts.map Located.span).Nodup := by decide
  have hspans' : (ts'.map Located.span).Nodup := by decide
  have hwords : words ts' = words ts := by decide
  exact ⟨hends, hends', hspans, hspans', hwords, hfuses,
    parseFile_relined hends hends' hspans hspans' hwords hfuses⟩

end OpsLang
