import OpsLang.Proofs.Counting.Declaration

/-!
# Files with a counter

Sections, procedures and items open no level of their own, nor do the loops over the items of a
file. The recovering loop goes on behind a fault with the counter as the item left it, and what
it finds is what the grammar finds (`counts_recoverFrom`).
-/

namespace OpsLang

namespace Counting

open Grammar Reader

/-! ## Procedures and items -/

/-- A section, from its keyword to its end. -/
def section_ (limit : Nat) (mode : Mode) (kind : BlockKind) : Tally Block := do
  let line := (← here).line
  skip
  let block ← statements limit mode kind line false
  endOf kind line
  return block

/-- A section that may be missing. -/
def optionalSection (limit : Nat) (mode : Mode) (kind : BlockKind) : Tally (Option Block) := do
  if (← peek) = .keyword kind.closer then return some (← section_ limit mode kind)
  else return none

/-- A procedure. -/
def procedure (limit : Nat) (mode : Mode) : Tally Procedure := do
  let line := (← here).line
  keyword .procedure
  let n ← name "procedure name"
  let preconditions ← optionalSection limit mode .preconditions
  mainAhead line preconditions.isSome
  let main ← section_ limit mode .main
  let confirmation ← optionalSection limit mode .confirmation
  endAhead confirmation.isSome
  endOf .procedure line
  return ⟨n, preconditions, main, confirmation, line⟩

/-- A procedure or a declaration. -/
def item (limit : Nat) (mode : Mode) : Tally Item := do
  match ← peek with
  | .keyword .procedure => return .procedure (← procedure limit mode)
  | .keyword .namespace_ | .keyword .type =>
    return .declaration (← declaration limit (limit + 1))
  | _ => refuse (α := Item) ["'procedure'", "'namespace'", "'type'"]

/-- One round of a file : its next item, or its end. -/
def fileRound (limit : Nat) : Tally (Turn Item) := do
  semicolons
  if (← peek) = .eof then return .stop else return .item (← item limit .strict)

/-- The items of a file up to its end. -/
def file (limit : Nat) : Tally SourceFile := do
  return ⟨← Tally.many (fileRound limit)⟩

section Items

variable {limit' : Nat} (hlt : maxNesting < limit') (mode : Mode)

include hlt

theorem follows_section_ (kind : BlockKind) :
    (Grammar.section_ mode kind).Follows maxNesting 0 (section_ maxNesting mode kind)
      (section_ limit' mode kind) :=
  marks_here.follows.liftM.bind fun _ => marks_skip.follows.liftM.bind fun _ =>
    (follows_statements hlt mode (Nat.zero_add _) _ _ _).bind fun _ =>
      (marks_endOf id _ _).follows.liftM.bind fun _ => Reporter.follows_pure _

theorem follows_optionalSection (kind : BlockKind) :
    (Grammar.optionalSection mode kind).Follows maxNesting 0
      (optionalSection maxNesting mode kind) (optionalSection limit' mode kind) :=
  marks_peek.follows.liftM.bind fun _ =>
    ((follows_section_ hlt mode kind).bind fun _ => Reporter.follows_pure _).ite
      (Reporter.follows_pure _)

theorem follows_procedure :
    (Grammar.procedure mode).Follows maxNesting 0 (procedure maxNesting mode)
      (procedure limit' mode) :=
  marks_here.follows.liftM.bind fun _ => (marks_keyword id _).follows.liftM.bind fun _ =>
    (marks_name id _).follows.liftM.bind fun _ => (follows_optionalSection hlt mode _).bind fun _ =>
      (marks_mainAhead id _ _).follows.liftM.bind fun _ => (follows_section_ hlt mode _).bind
        fun _ => (follows_optionalSection hlt mode _).bind fun _ =>
          (marks_endAhead id _).follows.liftM.bind fun _ =>
            (marks_endOf id _ _).follows.liftM.bind fun _ => Reporter.follows_pure _

theorem follows_item :
    (Grammar.item mode).Follows maxNesting 0 (item maxNesting mode) (item limit' mode) := by
  have hdeclaration : (Grammar.declaration maxNesting).Follows maxNesting 0
      (declaration maxNesting (maxNesting + 1)) (declaration limit' (limit' + 1)) :=
    follows_declaration hlt (Nat.zero_add _) (Nat.lt_succ_self _) (by omega)
  refine marks_peek.follows.liftM.bind fun u => ?_
  split
  · exact (follows_procedure hlt mode).bind fun _ => Reporter.follows_pure _
  · exact hdeclaration.liftM.bind fun _ => Reporter.follows_pure _
  · exact hdeclaration.liftM.bind fun _ => Reporter.follows_pure _
  · try simp only
    exact (marks_refuse id _ _).follows.liftM

omit mode in
theorem follows_file :
    Grammar.file.Follows maxNesting 0 (file maxNesting) (file limit') := by
  have hround : Grammar.fileRound.Follows maxNesting 0 (fileRound maxNesting)
      (fileRound limit') :=
    marks_semicolons.follows.liftM.bind fun _ => marks_peek.follows.liftM.bind fun _ =>
      (Reporter.follows_pure _).ite ((follows_item hlt .strict).bind fun _ =>
        Reporter.follows_pure _)
  exact hround.many.bind fun _ => Reporter.follows_pure _

end Items

/-! ## Recovering reading -/

/-- What a recovering reading makes of an item : it is found, or its fault is. -/
def recovered (x : List Diagnostic × Outcome Item) : List Diagnostic × Outcome (Turn Findings) :=
  match x with
  | (ds, .ok a s) => (ds, .ok (.item ⟨[a], ds⟩) s)
  | (ds, .fail d s) =>
    if d.isFatal then (ds ++ [d], .ok (.last ⟨[], ds ++ [d]⟩) s)
    else (ds ++ [d], (nextItem s).map fun _ => .item ⟨[], ds ++ [d]⟩)
  | (ds, .endless) => (ds, .endless)

/-- The next item of a recovering reading. -/
def recoveredItem (limit : Nat) : Tally (Turn Findings) := fun n s =>
  (item limit .recovering n s).conclude recovered

/-- One round of a recovering reading, `count` diagnostics having been found before it. -/
def recoverRound (limit cap count : Nat) : Tally (Turn Findings) := do
  semicolons
  if (← peek) = .eof ∨ cap ≤ count then return .stop else recoveredItem limit

/-- Read items until the text ends, a fault is fatal or `cap` diagnostics are there. -/
def recoverFrom (limit cap count n : Nat) (s : Stream) : Run (List Item) :=
  match recoverRound limit cap count n s with
  | ⟨log, m, ds, .ok .stop s'⟩ => ⟨log, m, ds, .ok [] s'⟩
  | ⟨log, m, ds, .ok .pass s'⟩ =>
    if s'.size < s.size then (recoverFrom limit cap count m s').behind log ds
    else ⟨log, m, ds, .endless⟩
  | ⟨log, m, ds, .ok (.item f) s'⟩ =>
    if s'.size < s.size then
      ((recoverFrom limit cap (count + f.reports.length) m s').conclude fun x =>
        (x.1, x.2.map (f.items ++ ·))).behind log ds
    else ⟨log, m, ds, .endless⟩
  | ⟨log, m, ds, .ok (.last f) s'⟩ => ⟨log, m, ds, .ok f.items s'⟩
  | ⟨log, m, ds, .fail d s'⟩ => ⟨log, m, ds, .fail d s'⟩
  | ⟨log, m, ds, .endless⟩ => ⟨log, m, ds, .endless⟩
termination_by s.size

theorem recoverFrom_run (limit cap count n : Nat) (s : Stream) :
    recoverFrom limit cap count n s = (recoverRound limit cap count n s).andThen fun t m s' =>
      match t with
      | .stop => ⟨[], m, [], .ok [] s'⟩
      | .pass =>
        if s'.size < s.size then recoverFrom limit cap count m s' else ⟨[], m, [], .endless⟩
      | .item f =>
        if s'.size < s.size then
          (recoverFrom limit cap (count + f.reports.length) m s').conclude fun x =>
            (x.1, x.2.map (f.items ++ ·))
        else ⟨[], m, [], .endless⟩
      | .last f => ⟨[], m, [], .ok f.items s'⟩ := by
  rw [recoverFrom]
  rcases recoverRound limit cap count n s with ⟨log, m, ds, ⟨_ | _ | f | f, s'⟩ | ⟨d, s'⟩ | _⟩
  · simp [Run.andThen, Run.behind]
  · by_cases hlt : s'.size < s.size <;> simp [Run.andThen, Run.behind, hlt]
  · by_cases hlt : s'.size < s.size <;> simp [Run.andThen, Run.behind, hlt]
  · simp [Run.andThen, Run.behind]
  · rfl
  · rfl

/-- Skipping behind the fault of an item comes to a place. -/
theorem nextItem_ok {s : Stream} (hs : s.Closed) : ∃ s', nextItem s = .ok () s' ∧ s.Reaches s' := by
  have hwithin := nextItemFrom_within 0 false s.here s.ahead hs
  rw [nextItem]
  cases hnext : nextItemFrom 0 false s.here s.ahead with
  | ok u s' =>
    rw [hnext] at hwithin
    exact ⟨s', rfl, hwithin⟩
  | fail d s' => exact (nextItemFrom_ne_fail _ _ _ _ _ _ hnext).elim
  | endless =>
    rw [hnext] at hwithin
    exact hwithin.elim

/-- What is made of an item hides no nesting that is too deep. -/
theorem counts_recovered {n limit : Nat} {s : Stream} {x : List Diagnostic × Outcome Item}
    {u w : Run Item} (hs : s.Closed) (h : Counts limit n s x u w) :
    Counts limit n s (recovered x) (u.conclude recovered) (w.conclude recovered) := by
  obtain ⟨ds, ⟨a, s'⟩ | ⟨d, s'⟩ | _⟩ := x
  · exact h.conclude (f := recovered) h.keeps Iff.rfl (by rintro _ _ ⟨⟩)
  · have hreach : s.Reaches s' := h.keeps
    by_cases hd : d.isFatal = true
    · exact h.drop (f := recovered) (b := .last ⟨[], ds ++ [d]⟩) (by simp [recovered, hd])
        (.refl s')
    · obtain ⟨s'', hnext, hreach'⟩ := nextItem_ok (hreach.closed hs)
      exact h.drop (f := recovered) (b := .item ⟨[], ds ++ [d]⟩)
        (by simp [recovered, hd, hnext]) hreach'
  · exact h.conclude (f := recovered) trivial Iff.rfl (by rintro _ _ ⟨⟩)

theorem recoverRound_of_semicolons {limit cap count n : Nat} {s s₁ : Stream}
    (h : semicolons s = .ok () s₁) :
    recoverRound limit cap count n s =
      if s₁.token = .eof ∨ cap ≤ count then ⟨[], n, [], .ok .stop s₁⟩
      else recoveredItem limit n s₁ := by
  show ((⟨[], n, [], semicolons s⟩ : Run Unit).andThen fun _ n s' =>
    ((if s'.token = .eof ∨ cap ≤ count then pure .stop else recoveredItem limit :
      Tally (Turn Findings)) n s').behind [] []) = _
  rw [h]
  show (((if s₁.token = .eof ∨ cap ≤ count then pure .stop else recoveredItem limit :
    Tally (Turn Findings)) n s₁).behind [] []).behind [] [] = _
  by_cases hstop : s₁.token = .eof ∨ cap ≤ count
  · rw [if_pos hstop, if_pos hstop]
    rfl
  · rw [if_neg hstop, if_neg hstop]
    rfl

/-- The diagnostics of a round. -/
def found : Turn Findings → List Diagnostic
  | .item f | .last f => f.reports
  | .stop | .pass => []

theorem recovered_fst {x : List Diagnostic × Outcome Item} {t : Turn Findings} {s : Stream}
    (h : (recovered x).2 = .ok t s) : recovered x = (found t, .ok t s) := by
  refine Prod.ext ?_ h
  rcases x with ⟨ds, ⟨a, s'⟩ | ⟨d, s'⟩ | _⟩
  · cases h
    rfl
  · by_cases hd : d.isFatal = true
    · simp only [recovered, hd, if_true] at h ⊢
      cases h
      rfl
    · simp only [recovered, hd] at h ⊢
      obtain ⟨-, -, rfl⟩ := Outcome.map_eq_ok.1 h
      rfl
  · cases h

/-- A round finds what a round of a recovering reading finds, and its counter is exact. -/
theorem counts_recoverRound {limit' : Nat} (hlt : maxNesting < limit') (cap count : Nat)
    {s : Stream} (hs : s.Closed) :
    ∃ t s', Grammar.recoverRound cap count s = .ok t s' ∧
      Counts maxNesting 0 s (found t, .ok t s') (recoverRound maxNesting cap count 0 s)
        (recoverRound limit' cap count 0 s) := by
  obtain ⟨t, s', hround⟩ := recoverRound_ok cap count hs
  refine ⟨t, s', hround, ?_⟩
  obtain ⟨us, s₁, hus, hsemi, -⟩ := semicolons_ok hs
  have hreach : s.Reaches s₁ := ⟨us, hus⟩
  have hs₁ := hreach.closed hs
  refine Counts.of_reaches hreach ?_
  rw [recoverRound_of_semicolons hsemi, recoverRound_of_semicolons hsemi]
  rw [Grammar.recoverRound, hsemi, Outcome.andThen_ok] at hround
  by_cases hstop : s₁.token = .eof ∨ cap ≤ count
  · rw [if_pos hstop] at hround
    rw [if_pos hstop, if_pos hstop]
    cases hround
    exact .untouched (.refl _) (by simp [Outcome.faults])
  · rw [if_neg hstop] at hround
    rw [if_neg hstop, if_neg hstop]
    have hrecovered : (recovered (Grammar.item .recovering s₁)).2 = .ok t s' := by
      rw [← hround]
      rcases Grammar.item .recovering s₁ with ⟨ds, ⟨a, s₂⟩ | ⟨d, s₂⟩ | _⟩
      · rfl
      · by_cases hd : d.isFatal = true <;> simp [recovered, hd]
      · rfl
    rw [← recovered_fst hrecovered]
    exact counts_recovered hs₁ (follows_item hlt .recovering s₁ hs₁)

/-- The loop finds what the recovering reading of a file finds, and its counter is exact. -/
theorem counts_recoverFrom {limit' : Nat} (hlt : maxNesting < limit') (cap count : Nat)
    {s : Stream} (hs : s.Closed) :
    ∃ f s', Grammar.recoverFrom cap count s = some f ∧
      Counts maxNesting 0 s (f.reports, .ok f.items s') (recoverFrom maxNesting cap count 0 s)
        (recoverFrom limit' cap count 0 s) := by
  induction hsize : s.size using Nat.strongRecOn generalizing s count with
  | _ k ih =>
    subst hsize
    obtain ⟨t, s', hround, hcounts⟩ := counts_recoverRound hlt cap count hs
    have hturns := turns_recoverRound cap count s hs
    rw [hround] at hturns
    rw [Grammar.recoverFrom_run, hround, Outcome.gather.eq_def, recoverFrom_run, recoverFrom_run]
    have hend {items : List Item} :
        Counts maxNesting 0 s' ([], .ok items s') ⟨[], 0, [], .ok items s'⟩
          ⟨[], 0, [], .ok items s'⟩ := .untouched (.refl s') (by simp [Outcome.faults])
    cases t with
    | stop =>
      refine ⟨_, s', rfl, ?_⟩
      refine hcounts.andThen (g := fun _ _ => ([], .ok [] s')) fun t s₁ ht => ?_
      cases ht
      exact hend
    | pass =>
      obtain ⟨hreach, hless⟩ := hturns
      obtain ⟨g, s'', hrest, hgo⟩ := ih _ hless count (hreach.closed hs) rfl
      refine ⟨g, s'', ?_, ?_⟩
      · simp only [hless, if_true]
        exact hrest
      · refine hcounts.andThen (g := fun _ _ => (g.reports, .ok g.items s'')) fun t s₁ ht => ?_
        cases ht
        simpa only [hless, if_true] using hgo
    | item f =>
      obtain ⟨hreach, hless⟩ := hturns
      obtain ⟨g, s'', hrest, hgo⟩ := ih _ hless (count + f.reports.length) (hreach.closed hs) rfl
      refine ⟨.prepend f.items f.reports g, s'', ?_, ?_⟩
      · simp only [hless, if_true, hrest, Option.map_some]
      · refine hcounts.andThen (g := fun _ _ => (g.reports, .ok (f.items ++ g.items) s''))
          fun t s₁ ht => ?_
        cases ht
        simp only [hless, if_true]
        exact hgo.map (f.items ++ ·)
    | last f =>
      refine ⟨_, s', rfl, ?_⟩
      rw [← List.append_nil f.reports]
      refine hcounts.andThen (g := fun _ _ => ([], .ok f.items s')) fun t s₁ ht => ?_
      cases ht
      exact hend

end Counting

end OpsLang
