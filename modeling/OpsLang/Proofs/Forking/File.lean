import OpsLang.Proofs.Appending.File
import OpsLang.Proofs.Forking.Statement

/-!
# Files that fork

Types and declarations, procedures and files. A section that may be missing is there if its word
stands at `y`, so what follows it is told together with it (`forksAt_optionalSection`) : behind the
name of a procedure both `preconditions` and `main` are wanted.

A declaration is wanted inside a namespace also where no level is left for it. It is refused there
as too deep, and this is the one case in which what a diagnostic lists does not pass the token at
`y` (`Wanted.Admits`).
-/

namespace OpsLang

namespace Grammar

open Reader

variable {x y : Stream} {L : Prop} {us : List Located} {room : Nat}

/-! ## Types -/

/-- An integer that fits is passed, or is wanted. -/
theorem begins_arraySize : arraySize.Begins x y [.integer] := by
  have hopens : ∀ w ∈ [Wanted.integer], w.Opens y → (arraySize y).Passes y := by
    simp only [List.mem_singleton, forall_eq]
    rintro ⟨lexeme, n, hnumber, hn⟩
    simp only [arraySize_run, hnumber, hn]
    exact Outcome.passes_advance (by simp [hnumber]) _
  unfold Begins
  rw [arraySize_run]
  split
  · next h =>
    split
    · exact .inl (Outcome.passes_advance (by simp [h]) _)
    · exact .inr ⟨_, _, _, rfl, rfl, fun _ => rfl, List.Subset.refl _, hopens⟩
  · exact .inr ⟨_, _, _, rfl, rfl, fun _ => rfl, List.Subset.refl _, hopens⟩

theorem passes_namedType {s : Stream} {n : String} (hn : s.token = .name n) (hs : s.Closed) :
    (namedType s).Passes s := by
  refine (passes_path hn hs).andThen hs fun p => Marks.lands ?_
  split
  · split <;> exact marks_pure _
  · exact marks_pure _

section Types

variable (hx : x.Closed) (hy : y.Stops)

include hx hy

theorem forksAt_namedType : namedType.ForksAt x y L never us := by
  refine (forksAt_path hx hy).bind hx hy.closed fun p _ _ => ?_
  split
  · split <;> exact .pure _
  · exact .pure _

theorem forksAt_arraySize : arraySize.ForksAt x y L never us := by
  have hlands : arraySize.Lands := (marks_arraySize blames_of_explains).lands
  cases us with
  | nil => exact ⟨hlands, begins_arraySize.forked (by simp [Wanted.stops])⟩
  | cons u us =>
    refine .peek_cons hlands ?_
    split
    · split
      · exact ForksAt.skip_cons.bind hx hy.closed fun _ _ _ => .pure _
      · exact .failAt_cons (isAboutHere_badSize _)
    · exact .failAt_cons (isAboutHere_expecting _)

section Inner

variable {inner : Reader TypeExpr} (hi : ∀ vs, inner.ForksAt x y L never vs)

include hi

/-- An array behind its bracket. -/
theorem forksAt_arrayBody (us : List Located) : (do
    let element ← inner
    symbol .semicolon
    let size ← arraySize
    symbol .rightBracket
    return .array element size : Reader TypeExpr).ForksAt x y L never us :=
  (hi _).bind hx hy.closed fun _ _ _ => (forksAt_symbol _ rfl).bind hx hy.closed fun _ _ _ =>
    (forksAt_arraySize hx hy).bind hx hy.closed fun _ _ _ =>
      (forksAt_symbol _ rfl).bind hx hy.closed fun _ _ _ => .pure _

theorem forksAt_field : (field inner).ForksAt x y L never us :=
  (forksAt_member .field).bind hx hy.closed fun _ _ _ =>
    (forksAt_symbol _ rfl).bind hx hy.closed fun _ _ _ => (hi _).bind hx hy.closed
      fun _ _ _ => .pure _

theorem begins_field : (field inner).Begins x y [.name .field] :=
  (takesOne_member .field).begins.bind hx hy.closed fun _ =>
    (takesOne_symbol _).lands.bind fun _ => (hi []).lands.bind fun _ => lands_pure _

/-- A struct behind its keyword. -/
theorem forksAt_structBody (us : List Located) : (do
    symbol .leftBrace
    let fields ← many (fieldRound inner)
    symbol .rightBrace
    return .struct fields : Reader TypeExpr).ForksAt x y L never us := by
  have hround : ∀ vs, (fieldRound inner).ForksAt x y L
      (fun t => t = .stop ∧ x.token = .symbol .rightBrace) vs := fun _ =>
    forksAt_listRound hx hy (fun _ _ => forksAt_field hx hy hi) (begins_field hx hy hi) rfl
      fun ⟨_, hn⟩ => by simp [hn]
  exact (forksAt_symbol _ rfl).bind hx hy.closed fun _ _ _ =>
    forksAt_list hx hy hround rfl fun _ _ => .pure _

/-- A type is begun or wanted. -/
theorem begins_typeOf : (typeOf inner).Begins x y [.type] := by
  unfold Begins
  rw [typeOf_run]
  split
  · next h =>
    have hstruct : (keyword .struct x).Passes x :=
      (takesOne_keyword .struct).passes (a := ()) (if_pos h)
    exact .inl (hstruct.andThen hx fun _ => (forksAt_structBody hx hy hi []).lands)
  · next h =>
    have hbracket : (symbol .leftBracket x).Passes x :=
      (takesOne_symbol .leftBracket).passes (a := ()) (if_pos h)
    exact .inl (hbracket.andThen hx fun _ => (forksAt_arrayBody hx hy hi []).lands)
  · next h => exact .inl (passes_namedType h hx)
  · refine .inr ⟨_, _, [.type], rfl, rfl, fun _ => rfl, List.Subset.refl _, ?_⟩
    simp only [List.mem_singleton, forall_eq]
    rintro ⟨n, hn⟩
    rw [typeOf_run, hn]
    exact passes_namedType hn hy.closed

theorem forksAt_typeOf (hm : inner.Marks Stream.Blames) :
    (typeOf inner).ForksAt x y L never us := by
  have hlands : (typeOf inner).Lands := (marks_typeOf blames_of_explains hm).lands
  cases us with
  | nil => exact ⟨hlands, (begins_typeOf hx hy hi).forked (by simp [Wanted.stops])⟩
  | cons u us =>
    refine .peek_cons hlands ?_
    split
    · exact (forksAt_keyword _ rfl).bind hx hy.closed fun _ _ _ => forksAt_structBody hx hy hi _
    · next hu => exact (forksAt_symbol_of_eq hu).bind hx hy.closed fun _ _ _ =>
        forksAt_arrayBody hx hy hi _
    · exact forksAt_namedType hx hy
    · exact .failAt_cons (isAboutHere_expecting _)

end Inner

theorem forksAt_typeAt (room : Nat) : (typeAt room).ForksAt x y L never us := by
  induction room generalizing us with
  | zero => exact forksAt_tooDeep
  | succ room ih => exact forksAt_typeOf hx hy (fun _ => ih) (marks_typeAt room)

/-! ## Declarations -/

theorem enters_typeDeclaration (room : Nat) : (typeDeclaration (typeAt room)).Enters x y L := by
  refine enters_here_skip hx hy.closed fun h _ =>
    (forksAt_name .type).bind hx hy.closed fun n _ _ =>
      (forksAt_typeOf hx hy (fun _ => forksAt_typeAt hx hy room) (marks_typeAt room)).bind hx
        hy.closed fun t _ _ => ?_
  cases t with
  | named p => exact .failAt (isAboutHere_bareAlias n p) fun _ h => h.2 rfl
  | _ => exact .pure _

end Types

/-- At a keyword of a declaration the reader passes it, or is too deep. -/
def Declares (inner : Reader Declaration) : Prop :=
  ∀ s : Stream, s.Closed → s.token = .keyword .namespace_ ∨ s.token = .keyword .type →
    (inner s).Passes s ∨ ∃ s', inner s = .fail s.tooDeep s'

section Namespaces

variable {inner : Reader Declaration} (hd : Declares inner)

include hd

theorem Declares.admits (hy : y.Closed) {w : Wanted} (hw : w.IsDeclaration) (hopens : w.Opens y) :
    w.Admits y (childHere inner y) := by
  have hrun : childHere inner y = (inner y).map .item ∧
      (y.token = .keyword .namespace_ ∨ y.token = .keyword .type) := by
    obtain rfl | rfl := hw
    · have h : y.token = .keyword .namespace_ := hopens
      exact ⟨by rw [childHere_run, h], .inl h⟩
    · have h : y.token = .keyword .type := hopens
      exact ⟨by rw [childHere_run, h], .inr h⟩
  rw [hrun.1]
  obtain hp | ⟨s, h⟩ := hd y hy hrun.2
  · exact .inl (hp.map _)
  · exact .inr ⟨hw, s, by rw [h]; rfl⟩

theorem Declares.forked (hx : x.Closed) {o' : Outcome (Turn Declaration)}
    {C : Turn Declaration → Prop}
    (h : x.token = .keyword .namespace_ ∨ x.token = .keyword .type) :
    Forked x y L C us ((inner x).map Turn.item) o' := by
  obtain hp | ⟨s, hdeep⟩ := hd x hx h
  · exact .behind (hp.map _)
  · rw [hdeep]
    exact .here (.of_entries [] rfl rfl (by simp) (by simp))

/-- A namespace goes on with a declaration, also one that is too deep, or it ends. -/
theorem forksAt_childHere (hx : x.Closed) (hy : y.Stops)
    (hi : ∀ vs, inner.ForksAt x y L never vs) : (childHere inner).ForksAt x y L never us := by
  have hbrace : (do
      skip
      return .stop : Reader (Turn Declaration)).Enters x y L :=
    enters_skip hx hy.closed fun _ => .pure _
  have hchild : ∀ vs, (do return .item (← inner) : Reader (Turn Declaration)).ForksAt x y L
      never vs := fun vs => (hi vs).bind hx hy.closed fun _ _ _ => .pure _
  have hlands : (childHere inner).Lands := by
    refine (marks_peek (P := Stream.Blames)).lands.bind fun t => ?_
    split
    · exact (marks_skip (P := Stream.Blames)).lands.bind fun _ => lands_pure _
    · exact (hchild []).lands
    · exact (hchild []).lands
    · exact lands_failAt (isAboutHere_expecting _)
  cases us with
  | nil =>
    refine ⟨hlands, ?_⟩
    rw [Stream.behind_nil, Stream.behind_nil, childHere_run inner x]
    split
    · next h => exact .behind (Outcome.passes_advance (by simp [h]) _)
    · next h => exact hd.forked hx (.inl h)
    · next h => exact hd.forked hx (.inr h)
    · refine .here (.of_entries [.keyword .namespace_, .keyword .type, .symbol .rightBrace]
        rfl rfl (by decide) ?_)
      simp only [List.mem_cons, List.not_mem_nil, or_false, forall_eq_or_imp, forall_eq]
      refine ⟨hd.admits hy.closed (.inl rfl), hd.admits hy.closed (.inr rfl), fun h => .inl ?_⟩
      have hbrace : y.token = .symbol .rightBrace := h
      rw [childHere_run, hbrace]
      exact Outcome.passes_advance (by simp [hbrace]) _
  | cons u us =>
    refine .peek_cons hlands ?_
    split
    · exact hbrace.forksAt u us
    · exact hchild _
    · exact hchild _
    · exact .failAt_cons (isAboutHere_expecting _)

theorem enters_namespaceDeclaration (hx : x.Closed) (hy : y.Stops) (hL : L)
    (hi : ∀ vs, inner.ForksAt x y L never vs) :
    (namespaceDeclaration inner).Enters x y L := by
  have hround : ∀ vs, (childRound inner).ForksAt x y L never vs := fun _ =>
    (forksAt_semicolons hx hy.closed hL).bind hx hy.closed fun _ _ _ =>
      forksAt_childHere hd hx hy hi
  exact enters_here_skip hx hy.closed fun _ _ => (forksAt_path hx hy).bind hx hy.closed fun _ _ _ =>
    (forksAt_symbol _ rfl).bind hx hy.closed fun _ _ _ =>
      (ForksAt.many hx hy.closed (fun vs _ => hround vs) fun _ => False.elim).bind_closed hx
        hy.closed (fun _ _ _ => .pure _) fun _ => False.elim

end Namespaces

section Declarations

variable {inner : Reader Declaration} (hd : Declares inner) (hx : x.Closed) (hy : y.Stops) (hL : L)
  (hi : ∀ vs, inner.ForksAt x y L never vs)

include hd hx hy hL hi

theorem passes_declarationOf {s : Stream} (hs : s.Closed)
    (h : s.token = .keyword .namespace_ ∨ s.token = .keyword .type) :
    (declarationOf (typeAt room) inner s).Passes s := by
  rw [declarationOf_run]
  obtain h | h := h
  · rw [h]
    exact (enters_namespaceDeclaration hd hx hy hL hi).passes s hs (by simp [h])
  · rw [h]
    exact (enters_typeDeclaration (L := L) hx hy room).passes s hs (by simp [h])

/-- A declaration is begun or wanted. -/
theorem begins_declarationOf :
    (declarationOf (typeAt room) inner).Begins x y [.keyword .namespace_, .keyword .type] := by
  by_cases hdecl : x.token = .keyword .namespace_ ∨ x.token = .keyword .type
  · exact .inl (passes_declarationOf hd hx hy hL hi hx hdecl)
  · refine .inr ⟨x.expecting ["'namespace'", "'type'"], x, [.keyword .namespace_, .keyword .type],
      ?_, rfl, fun _ => rfl, List.Subset.refl _, ?_⟩
    · rw [declarationOf_run]
      split
      · next h => exact absurd (.inl h) hdecl
      · next h => exact absurd (.inr h) hdecl
      · rfl
    · simp only [List.mem_cons, List.not_mem_nil, or_false, forall_eq_or_imp, forall_eq]
      exact ⟨fun h => passes_declarationOf hd hx hy hL hi hy.closed (.inl h),
        fun h => passes_declarationOf hd hx hy hL hi hy.closed (.inr h)⟩

theorem forksAt_declarationOf : (declarationOf (typeAt room) inner).ForksAt x y L never us := by
  have hnamespace := enters_namespaceDeclaration hd hx hy hL hi
  have htype : (typeDeclaration (typeAt room)).Enters x y L := enters_typeDeclaration hx hy room
  have hlands : (declarationOf (typeAt room) inner).Lands := by
    refine (marks_peek (P := Stream.Blames)).lands.bind fun t => ?_
    split
    · exact (hnamespace.forksAt x.here []).lands
    · exact (htype.forksAt x.here []).lands
    · exact lands_failAt (isAboutHere_expecting _)
  cases us with
  | nil => exact ⟨hlands, (begins_declarationOf hd hx hy hL hi).forked (by decide)⟩
  | cons u us =>
    refine .peek_cons hlands ?_
    split
    · exact hnamespace.forksAt u us
    · exact htype.forksAt u us
    · exact .failAt_cons (isAboutHere_expecting _)

end Declarations

section Items

variable (hx : x.Closed) (hy : y.Stops) (hL : L)

include hx hy hL

theorem forksAt_declarationAt (room : Nat) : Declares (declarationAt room) ∧
    ∀ vs, (declarationAt room).ForksAt x y L never vs := by
  induction room with
  | zero => exact ⟨fun s _ _ => .inr ⟨s, rfl⟩, fun _ => forksAt_tooDeep⟩
  | succ room ih =>
    exact ⟨fun s hs h => .inl (passes_declarationOf ih.1 hx hy hL ih.2 hs h),
      fun _ => forksAt_declarationOf ih.1 hx hy hL ih.2⟩

/-! ## Procedures -/

theorem enters_sectionAt (kind : BlockKind) : (sectionAt room kind).Enters x y L :=
  enters_here_skip hx hy.closed fun h _ =>
    forksAt_body hx hy hL (forksAt_statements hx hy hL room) h.line

omit hx hy hL in
theorem optionalSectionAt_of_eq {β : Type} {kind : BlockKind} {k : Option Block → Reader β}
    {s : Stream} (h : s.token = .keyword kind.closer) :
    (optionalSectionAt room kind >>= k) s = (sectionAt room kind >>= fun b => k (some b)) s := by
  simp only [optionalSectionAt, bind_bind]
  rw [bind_run, peek_run, Outcome.andThen_ok, h, if_pos rfl, bind_bind]
  rfl

omit hx hy hL in
theorem optionalSectionAt_of_ne {β : Type} {kind : BlockKind} {k : Option Block → Reader β}
    {s : Stream} (h : s.token ≠ .keyword kind.closer) :
    (optionalSectionAt room kind >>= k) s = k none s := by
  simp only [optionalSectionAt, bind_bind]
  rw [bind_run, peek_run, Outcome.andThen_ok, if_neg h]
  rfl

/-- A section that may be missing, with what follows it. If nothing is left in front of `x`, both
are told together. -/
theorem forksAt_optionalSection {β : Type} {kind : BlockKind} {k : Option Block → Reader β}
    {ws : List Wanted} (hbegins : (optionalSectionAt room kind >>= k).Begins x y ws)
    (hws : ∀ w ∈ ws, w.stops = true) (hk : ∀ o u vs, (k o).ForksAt x y L never (u :: vs))
    (hsome : ∀ b vs, (k (some b)).ForksAt x y L never vs) :
    (optionalSectionAt room kind >>= k).ForksAt x y L never us := by
  have hsection : (sectionAt room kind).Enters x y L := enters_sectionAt hx hy hL kind
  have hlands : (optionalSectionAt room kind >>= k).Lands :=
    ((marks_peek (P := Stream.Blames)).lands.bind fun _ =>
      ((hsection.forksAt x.here []).lands.bind fun _ => lands_pure _).ite (lands_pure _)).bind
        fun o => (hk o x.here []).lands
  cases us with
  | nil => exact ⟨hlands, hbegins.forked hws⟩
  | cons u us =>
    by_cases hu : u.token = .keyword kind.closer
    · exact .congr_cons ((hsection.bind hx hy.closed fun b vs => hsome b vs).forksAt u us) hlands
        fun s => optionalSectionAt_of_eq hu
    · exact .congr_cons (hk none u us) hlands fun s => optionalSectionAt_of_ne hu

section Main

variable {β : Type} {line : Nat}

omit hx hy hL in
theorem lands_mainAhead {b : Bool} {r : Reader β} (hr : r.Lands) :
    (mainAhead line b >>= fun _ => r).Lands :=
  (marks_mainAhead blames_of_explains line b).lands.bind fun _ => hr

omit hx hy hL in
/-- The place of `main`, where the section begins. -/
theorem forksAt_mainAhead {b : Bool} {r : Reader β} (hr : r.Enters x y L) {u : Located} :
    (mainAhead line b >>= fun _ => r).ForksAt x y L never (u :: us) := by
  have hlands : (mainAhead line b >>= fun _ => r).Lands :=
    lands_mainAhead (hr.forksAt x.here []).lands
  by_cases hmain : u.token = .keyword .main
  · refine .congr_cons (hr.forksAt u us) hlands fun s => ?_
    rw [bind_run, mainAhead_run, Stream.token_behind_cons, hmain]
    rfl
  by_cases heof : u.token = .eof
  · refine .congr_cons (.failAt_cons (isAboutHere_unterminated .procedure line)) hlands
      fun s => ?_
    rw [bind_run, mainAhead_run, Stream.token_behind_cons, heof]
    rfl
  · refine .congr_cons (.failAt_cons (isAboutHere_expecting
      (if b then ["'main'"] else ["'preconditions'", "'main'"]))) hlands fun s => ?_
    rw [bind_run, mainAhead_run, Stream.token_behind_cons]
    split <;> first | rfl | contradiction

omit hx hy hL in
theorem mainAhead_cases (line : Nat) (b : Bool) (s : Stream) :
    mainAhead line b s = .ok () s ∧ s.token = .keyword .main ∨
      ∃ d, mainAhead line b s = .fail d s ∧ d.span = s.here.span ∧
        (d.IsListing →
          d.expected = if b then ["'main'"] else ["'preconditions'", "'main'"]) := by
  rw [mainAhead_run]
  split
  · next h => exact .inl ⟨rfl, h⟩
  · exact .inr ⟨_, rfl, rfl, fun h => absurd h Stream.not_isListing_unterminated⟩
  · exact .inr ⟨_, rfl, rfl, fun _ => rfl⟩

omit hL in
/-- Behind the preconditions `main` is begun or wanted. -/
theorem begins_mainAhead {r : Reader β} (hr : r.Enters x y L) :
    (mainAhead line true >>= fun _ => r).Begins x y [.keyword .main] := by
  have hpasses : ∀ s : Stream, s.Closed → s.token = .keyword .main →
      Outcome.Passes s ((mainAhead line true >>= fun _ => r) s) := by
    intro s hs h
    rw [bind_run, mainAhead_run, h]
    exact hr.passes s hs (by simp [h])
  obtain ⟨-, h⟩ | ⟨d, h, hspan, htext⟩ := mainAhead_cases line true x
  · exact .inl (hpasses x hx h)
  · refine .inr ⟨d, x, [.keyword .main], by rw [bind_run, h]; rfl, hspan, htext,
      List.Subset.refl _, ?_⟩
    simp only [List.mem_singleton, forall_eq]
    exact hpasses y hy.closed

/-- The section `main`, or the preconditions before it, are begun or wanted. -/
theorem begins_upToMain {r : Option Block → Reader β} (hr : ∀ o, (r o).Enters x y L) :
    (do
      let pre ← optionalSectionAt room .preconditions
      mainAhead line pre.isSome
      r pre : Reader β).Begins x y [.keyword .preconditions, .keyword .main] := by
  have hpasses : ∀ s : Stream, s.Closed →
      s.token = .keyword .preconditions ∨ s.token = .keyword .main → Outcome.Passes s ((do
        let pre ← optionalSectionAt room .preconditions
        mainAhead line pre.isSome
        r pre : Reader β) s) := by
    rintro s hs (h | h)
    · rw [optionalSectionAt_of_eq h]
      exact ((enters_sectionAt hx hy hL .preconditions).passes s hs (by simp [h])).andThen hs
        fun b => lands_mainAhead ((hr (some b)).forksAt x.here []).lands
    · rw [optionalSectionAt_of_ne (by simp [h, BlockKind.closer]), bind_run, mainAhead_run, h]
      exact (hr none).passes s hs (by simp [h])
  by_cases hpre : x.token = .keyword .preconditions
  · exact .inl (hpasses x hx (.inl hpre))
  obtain ⟨-, h⟩ | ⟨d, h, hspan, htext⟩ := mainAhead_cases line false x
  · exact .inl (hpasses x hx (.inr h))
  · refine .inr ⟨d, x, [.keyword .preconditions, .keyword .main], ?_, hspan, htext,
      List.Subset.refl _, ?_⟩
    · rw [optionalSectionAt_of_ne hpre, Option.isSome_none, bind_run, h]
      rfl
    · simp only [List.mem_cons, List.not_mem_nil, or_false, forall_eq_or_imp, forall_eq]
      exact ⟨fun h => hpasses y hy.closed (.inl h), fun h => hpasses y hy.closed (.inr h)⟩

/-- The preconditions, which may be missing, and what begins at `main`. -/
theorem forksAt_upToMain {r : Option Block → Reader β} (hr : ∀ o, (r o).Enters x y L) :
    (do
      let pre ← optionalSectionAt room .preconditions
      mainAhead line pre.isSome
      r pre : Reader β).ForksAt x y L never us := by
  refine forksAt_optionalSection hx hy hL (begins_upToMain hx hy hL hr) (by decide)
    (fun o u vs => forksAt_mainAhead (hr o)) fun b vs => ?_
  cases vs with
  | nil =>
    exact ⟨lands_mainAhead ((hr (some b)).forksAt x.here []).lands,
      (begins_mainAhead hx hy (hr (some b))).forked (by decide)⟩
  | cons u vs => exact forksAt_mainAhead (hr (some b))

end Main

section End

variable {β : Type} {line : Nat}

omit hx hy hL in
theorem endAhead_cases (b : Bool) (s : Stream) :
    endAhead b s = .ok () s ∧ (s.token = .keyword .end_ ∨ s.token = .eof) ∨
      endAhead b s = .fail (s.expecting
        (if b then ["'end procedure'"] else ["'confirmation'", "'end procedure'"])) s := by
  rw [endAhead_run]
  split
  · next h => exact .inl ⟨rfl, .inl h⟩
  · next h => exact .inl ⟨rfl, .inr h⟩
  · exact .inr rfl

omit hx hy hL in
theorem endAhead_of_end {b : Bool} {s : Stream} {r : Reader β} (h : s.token = .keyword .end_) :
    (endAhead b >>= fun _ => r) s = r s := by
  rw [bind_run, endAhead_run, h]
  rfl

omit hx hy hL in
theorem lands_endAhead {b : Bool} {r : Reader β} (hr : r.Lands) :
    (endAhead b >>= fun _ => r).Lands :=
  (marks_endAhead blames_of_explains b).lands.bind fun _ => hr

omit hx hy hL in
/-- The place of `end`, where the end of the procedure begins. -/
theorem forksAt_endAhead {b : Bool} {r : Reader β} (hr : ∀ vs, r.ForksAt x y L never vs)
    {u : Located} : (endAhead b >>= fun _ => r).ForksAt x y L never (u :: us) := by
  have hlands := lands_endAhead (b := b) (hr []).lands
  by_cases hend : u.token = .keyword .end_ ∨ u.token = .eof
  · refine .congr_cons (hr (u :: us)) hlands fun s => ?_
    rw [bind_run, endAhead_run, Stream.token_behind_cons]
    obtain h | h := hend <;> rw [h] <;> rfl
  · refine .congr_cons (.failAt_cons (isAboutHere_expecting
      (if b then ["'end procedure'"] else ["'confirmation'", "'end procedure'"]))) hlands
        fun s => ?_
    rw [bind_run]
    obtain ⟨-, h⟩ | h := endAhead_cases b (s.behind (u :: us))
    · exact absurd h hend
    · rw [h]
      rfl

section Closing

variable {r : Reader β} (hr : r.Begins x y [.closer .procedure])
  (hopens : (Wanted.closer .procedure).Opens y → (r y).Passes y)

include hr

omit hx hy hL in
/-- Where the end of the procedure may begin, what is read there is told by what it begins with. -/
theorem begins_of_end {r' : Reader β} {ws : List Wanted} (hws : .closer .procedure ∈ ws)
    (hx' : r' x = r x) (hy' : y.token = .keyword .end_ → r' y = r y) : r'.Begins x y ws := by
  unfold Begins
  rw [hx']
  obtain hp | ⟨d, s, vs, h, hspan, htext, hvs, hpasses⟩ := hr
  · exact .inl hp
  · refine .inr ⟨d, s, vs, h, hspan, htext, fun w hw => ?_, fun w hw ho => ?_⟩
    · rwa [List.mem_singleton.1 (hvs hw)]
    · have hend : y.token = .keyword .end_ := by
        obtain rfl := List.mem_singleton.1 (hvs hw)
        exact ho.1
      rw [hy' hend]
      exact hpasses w hw ho

include hopens

omit hx hy hL in
/-- Behind the confirmation the end of the procedure is begun or wanted. -/
theorem begins_endAhead : (endAhead true >>= fun _ => r).Begins x y [.closer .procedure] := by
  obtain ⟨h, -⟩ | h := endAhead_cases true x
  · exact begins_of_end hr (List.mem_singleton_self _) (by rw [bind_run, h]; rfl) endAhead_of_end
  · refine .inr ⟨_, x, [.closer .procedure], by rw [bind_run, h]; rfl, rfl, fun _ => rfl,
      List.Subset.refl _, ?_⟩
    simp only [List.mem_singleton, forall_eq]
    intro ho
    rw [endAhead_of_end ho.1]
    exact hopens ho

end Closing

/-- The confirmation, or the end of the procedure, are begun or wanted. -/
theorem begins_upToEnd {r : Option Block → Reader β} (hlands : ∀ o, (r o).Lands)
    (hr : ∀ o, (r o).Begins x y [.closer .procedure])
    (hopens : ∀ o, (Wanted.closer .procedure).Opens y → (r o y).Passes y) :
    (do
      let conf ← optionalSectionAt room .confirmation
      endAhead conf.isSome
      r conf : Reader β).Begins x y [.keyword .confirmation, .closer .procedure] := by
  have hsection : ∀ s : Stream, s.Closed → s.token = .keyword .confirmation →
      Outcome.Passes s ((do
        let conf ← optionalSectionAt room .confirmation
        endAhead conf.isSome
        r conf : Reader β) s) := by
    intro s hs h
    rw [optionalSectionAt_of_eq h]
    exact ((enters_sectionAt hx hy hL .confirmation).passes s hs (by simp [h])).andThen hs
      fun b => lands_endAhead (hlands (some b))
  have hend : ∀ s : Stream, s.token = .keyword .end_ → ((do
      let conf ← optionalSectionAt room .confirmation
      endAhead conf.isSome
      r conf : Reader β) s) = r none s := by
    intro s h
    rw [optionalSectionAt_of_ne (by simp [h, BlockKind.closer]), endAhead_of_end h]
  by_cases hconf : x.token = .keyword .confirmation
  · exact .inl (hsection x hx hconf)
  obtain ⟨h, -⟩ | h := endAhead_cases false x
  · refine begins_of_end (hr none) (by simp) ?_ (hend y)
    rw [optionalSectionAt_of_ne hconf, Option.isSome_none, bind_run, h]
    rfl
  · refine .inr ⟨x.expecting ["'confirmation'", "'end procedure'"], x,
      [.keyword .confirmation, .closer .procedure], ?_, rfl, fun _ => rfl, List.Subset.refl _, ?_⟩
    · rw [optionalSectionAt_of_ne hconf, Option.isSome_none, bind_run, h]
      rfl
    · simp only [List.mem_cons, List.not_mem_nil, or_false, forall_eq_or_imp, forall_eq]
      refine ⟨hsection y hy.closed, fun ho => ?_⟩
      rw [hend y ho.1]
      exact hopens none ho

/-- The confirmation, which may be missing, and the end of the procedure. -/
theorem forksAt_upToEnd {f : Option Block → β} :
    (do
      let conf ← optionalSectionAt room .confirmation
      endAhead conf.isSome
      endOf .procedure line
      return f conf : Reader β).ForksAt x y L never us := by
  have hr : ∀ o vs, (do
      endOf .procedure line
      return f o : Reader β).ForksAt x y L never vs := fun _ _ =>
    (forksAt_endOf hL .procedure line).bind hx hy.closed fun _ _ _ => .pure _
  have hbegins : ∀ o, (do
      endOf .procedure line
      return f o : Reader β).Begins x y [.closer .procedure] := fun _ =>
    (begins_endOf .procedure line).bind hx hy.closed fun _ => lands_pure _
  have hopens : ∀ o, (Wanted.closer .procedure).Opens y → Outcome.Passes y ((do
      endOf .procedure line
      return f o : Reader β) y) := fun _ ho =>
    (passes_endOf ho).andThen hy.closed fun _ => lands_pure _
  refine forksAt_optionalSection hx hy hL
    (begins_upToEnd hx hy hL (fun o => (hr o []).lands) hbegins hopens) (by decide)
    (fun o u vs => forksAt_endAhead (hr o)) fun b vs => ?_
  cases vs with
  | nil =>
    exact ⟨lands_endAhead (hr (some b) []).lands,
      (begins_endAhead (hbegins (some b)) (hopens (some b))).forked (by decide)⟩
  | cons u vs => exact forksAt_endAhead (hr (some b))

end End

/-! ## Items -/

/-- A procedure behind its keyword. -/
theorem forksAt_procedureBody (line : Nat) (us : List Located) : (do
    let n ← name "procedure name"
    let preconditions ← optionalSectionAt room .preconditions
    mainAhead line preconditions.isSome
    let main ← sectionAt room .main
    let confirmation ← optionalSectionAt room .confirmation
    endAhead confirmation.isSome
    endOf .procedure line
    return ⟨n, preconditions, main, confirmation, line⟩ : Reader Procedure).ForksAt x y L
      never us :=
  (forksAt_name .procedure).bind hx hy.closed fun _ _ _ => forksAt_upToMain hx hy hL fun _ =>
    (enters_sectionAt hx hy hL .main).bind hx hy.closed fun _ _ => forksAt_upToEnd hx hy hL

theorem forksAt_procedureAt {u : Located} :
    (procedureAt room).ForksAt x y L never (u :: us) := by
  have hkeyword : ∀ line vs, (do
      keyword .procedure
      let n ← name "procedure name"
      let preconditions ← optionalSectionAt room .preconditions
      mainAhead line preconditions.isSome
      let main ← sectionAt room .main
      let confirmation ← optionalSectionAt room .confirmation
      endAhead confirmation.isSome
      endOf .procedure line
      return ⟨n, preconditions, main, confirmation, line⟩ : Reader Procedure).ForksAt x y L
        never vs := fun line vs =>
    (forksAt_keyword _ rfl).bind hx hy.closed fun _ _ _ => forksAt_procedureBody hx hy hL line _
  exact ⟨fun s hs => (hkeyword s.line []).lands s hs, (hkeyword u.line (u :: us)).forked⟩

theorem passes_procedureAt {s : Stream} (hs : s.Closed) (h : s.token = .keyword .procedure) :
    (procedureAt room s).Passes s := by
  have hkeyword : (keyword .procedure s).Passes s :=
    (takesOne_keyword .procedure).passes (a := ()) (if_pos h)
  exact hkeyword.andThen hs fun _ => (forksAt_procedureBody hx hy hL s.line []).lands

/-- An item is begun or wanted. -/
theorem begins_itemAt : (itemAt room).Begins x y
    [.keyword .procedure, .keyword .namespace_, .keyword .type] := by
  have hpasses : ∀ s : Stream, s.Closed → s.token = .keyword .procedure ∨
      s.token = .keyword .namespace_ ∨ s.token = .keyword .type → (itemAt room s).Passes s := by
    intro s hs h
    obtain ⟨hd, hi⟩ := forksAt_declarationAt hx hy hL room
    have hdecl : s.token = .keyword .namespace_ ∨ s.token = .keyword .type →
        (declaration room s).Passes s := passes_declarationOf hd hx hy hL hi hs
    rw [itemAt_run]
    obtain h | h | h := h
    · rw [h]
      exact (passes_procedureAt hx hy hL hs h).map _
    · rw [h]
      exact (hdecl (.inl h)).map _
    · rw [h]
      exact (hdecl (.inr h)).map _
  by_cases hitem : x.token = .keyword .procedure ∨ x.token = .keyword .namespace_ ∨
      x.token = .keyword .type
  · exact .inl (hpasses x hx hitem)
  · refine .inr ⟨x.expecting ["'procedure'", "'namespace'", "'type'"], x,
      [.keyword .procedure, .keyword .namespace_, .keyword .type], ?_, rfl, fun _ => rfl,
      List.Subset.refl _, ?_⟩
    · rw [itemAt_run]
      split
      · next h => exact absurd (.inl h) hitem
      · next h => exact absurd (.inr (.inl h)) hitem
      · next h => exact absurd (.inr (.inr h)) hitem
      · rfl
    · simp only [List.mem_cons, List.not_mem_nil, or_false, forall_eq_or_imp, forall_eq]
      exact ⟨fun h => hpasses y hy.closed (.inl h), fun h => hpasses y hy.closed (.inr (.inl h)),
        fun h => hpasses y hy.closed (.inr (.inr h))⟩

theorem forksAt_itemAt_cons {u : Located} : (itemAt room).ForksAt x y L never (u :: us) := by
  have hprocedure : (procedureAt room).ForksAt x y L never (u :: us) :=
    forksAt_procedureAt hx hy hL
  have hdeclaration : (declaration room).ForksAt x y L never (u :: us) := by
    obtain ⟨hd, hi⟩ := forksAt_declarationAt hx hy hL room
    exact forksAt_declarationOf hd hx hy hL hi
  have hlands : (itemAt room).Lands := by
    refine (marks_peek (P := Stream.Blames)).lands.bind fun t => ?_
    split
    · exact hprocedure.lands.bind fun _ => lands_pure _
    · exact hdeclaration.lands.bind fun _ => lands_pure _
    · exact hdeclaration.lands.bind fun _ => lands_pure _
    · exact lands_failAt (isAboutHere_expecting _)
  refine .peek_cons hlands ?_
  split
  · exact hprocedure.bind hx hy.closed fun _ _ _ => .pure _
  · exact hdeclaration.bind hx hy.closed fun _ _ _ => .pure _
  · exact hdeclaration.bind hx hy.closed fun _ _ _ => .pure _
  · exact .failAt_cons (isAboutHere_expecting _)

/-- A file is closed by the end of the text at `x`. -/
theorem forksAt_fileRoundAt : (fileRoundAt room).ForksAt x y L
    (fun t => t = .stop ∧ x.token = .eof) us := by
  have hitem : (itemAt room).ForksAt x y L never [x.here] := forksAt_itemAt_cons hx hy hL
  have hlands : (do
      if (← peek) = .eof then return .stop else return .item (← itemAt room) :
        Reader (Turn Item)).Lands :=
    (marks_peek (P := Stream.Blames)).lands.bind fun _ => (lands_pure _).ite <|
      hitem.lands.bind fun _ => lands_pure _
  refine (forksAt_semicolons hx hy.closed hL).bind hx hy.closed fun _ vs _ => ?_
  cases vs with
  | nil =>
    refine ⟨hlands, ?_⟩
    simp only [Stream.behind_nil, bind_run peek, peek_run, Outcome.andThen_ok, ite_run]
    by_cases heof : x.token = .eof
    · rw [if_pos heof]
      by_cases heof' : y.token = .eof
      · rw [if_pos heof']
        exact .upTo
      · exact .closed ⟨rfl, heof⟩ fun heq => heof' (heq.trans heof)
    · rw [if_neg heof]
      refine ((begins_itemAt hx hy hL).bind hx hy.closed fun a =>
        lands_pure (Turn.item a)).forked_of (by decide) ?_
      simp only [List.mem_cons, List.not_mem_nil, or_false, forall_eq_or_imp, forall_eq]
      refine ⟨fun h => if_neg ?_, fun h => if_neg ?_, fun h => if_neg ?_⟩ <;>
        · rw [show y.token = _ from h]
          simp
  | cons u vs =>
    exact .peek_cons hlands <| .ite (fun _ => .pure _) fun _ =>
      ((forksAt_itemAt_cons hx hy hL).bind hx hy.closed fun _ _ _ => .pure _).weaken

end Items

/-- Two files that begin with the same tokens. -/
theorem forked_items (hx : x.Closed) (hy : y.Stops) (us : List Located) :
    Forked x y True (fun _ => x.token = .eof) us (many (fileRoundAt room) (x.behind us))
      (many (fileRoundAt room) (y.behind us)) :=
  (ForksAt.many hx hy.closed (fun _ _ => forksAt_fileRoundAt hx hy trivial) fun _ h =>
    ⟨.inl h.1, h.2⟩).forked

end Grammar

end OpsLang
