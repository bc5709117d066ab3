import OpsLang.Proofs.Termination

/-!
# Strict and recovering readings

The two modes differ from the first fault on and not before. `Agrees` says so of what comes
of a reading in either mode : either both give the same value with nothing to report, or the
strict one fails and the first fault of the other is that failure. The relation passes
through sequencing and repetition (`Agrees.andThen`, `Reporter.Agrees.many`), so it is
enough to see that it holds where the mode is looked at, which is in `attempt`.

A recovering reading of a whole file looks at the mode a second time, between items.
`recoverFrom_of_file_ok` and `recoverFrom_of_file_fail` follow the rounds of a strict
reading up to its end or its failure. What they say of a row of tokens
(`recoverFile_of_accepted`, `recoverFile_of_refused`) is put together by `recoverFile_agrees`.
-/

namespace OpsLang

/-! ## Agreement of outcomes -/

/-- The first fault of a reading : its first report, or else what it failed with. -/
def firstFault {α : Type} : List Diagnostic × Outcome α → Option Diagnostic
  | (d :: _, _) => some d
  | ([], .fail d _) => some d
  | ([], _) => none

@[simp]
theorem firstFault_cons {α : Type} (d : Diagnostic) (ds : List Diagnostic) (o : Outcome α) :
    firstFault (d :: ds, o) = some d := rfl

/-- What comes of a strict reading agrees with what comes of a recovering one. -/
inductive Agrees {α : Type} : List Diagnostic × Outcome α → List Diagnostic × Outcome α → Prop
  | ok (a : α) (s : Stream) : Agrees ([], .ok a s) ([], .ok a s)
  | fail {d : Diagnostic} {s : Stream} {y : List Diagnostic × Outcome α}
      (h : firstFault y = some d) : Agrees ([], .fail d s) y
  | endless (y : List Diagnostic × Outcome α) : Agrees ([], .endless) y

namespace Agrees

variable {α β : Type}

theorem refl (o : Outcome α) : Agrees ([], o) ([], o) := by
  cases o with
  | ok a s => exact .ok a s
  | fail d s => exact .fail rfl
  | endless => exact .endless _

theorem map {ds ds' : List Diagnostic} {o o' : Outcome α} (f : α → β)
    (h : Agrees (ds, o) (ds', o')) : Agrees (ds, o.map f) (ds', o'.map f) := by
  cases h with
  | ok a s => exact .ok (f a) s
  | fail h =>
    refine .fail ?_
    cases ds' with
    | cons d' ds' => exact h
    | nil => cases o' <;> exact h
  | endless y => exact .endless _

end Agrees

namespace Reporter

variable {α β : Type}

/-- The strict reporter `r` agrees everywhere with the recovering reporter `r'`. -/
def Agrees (r r' : Reporter α) : Prop :=
  ∀ s : Stream, OpsLang.Agrees (r s) (r' s)

theorem agrees_pure (a : α) : (pure a : Reporter α).Agrees (pure a) :=
  fun s => .ok a s

theorem agrees_liftM (r : Reader α) : (liftM r : Reporter α).Agrees (liftM r) :=
  fun s => .refl (r s)

theorem Agrees.bind {r r' : Reporter α} {f f' : α → Reporter β} (h : r.Agrees r')
    (hf : ∀ a, (f a).Agrees (f' a)) : (r >>= f).Agrees (r' >>= f') := by
  intro s
  have hs := h s
  rw [bind_run, bind_run]
  generalize r s = x at hs
  generalize r' s = y at hs
  cases hs with
  | ok a s' => exact hf a s'
  | fail hy =>
    refine .fail ?_
    rcases y with ⟨_ | ⟨d', ds⟩, o⟩
    · cases o <;> first | exact hy | cases hy
    · cases o <;> exact hy
  | endless y => exact .endless _

theorem Agrees.ite {c : Prop} [Decidable c] {r₁ r₁' r₂ r₂' : Reporter α} (h₁ : r₁.Agrees r₁')
    (h₂ : r₂.Agrees r₂') : (if c then r₁ else r₂).Agrees (if c then r₁' else r₂') := by
  split
  · exact h₁
  · exact h₂

/-- Repetitions agree if their rounds do. -/
theorem Agrees.many {round round' : Reporter (Turn α)} (h : round.Agrees round') :
    Agrees (many round) (many round') := by
  intro s
  induction hn : s.size using Nat.strongRecOn generalizing s with
  | _ n ih =>
    subst hn
    have hs := h s
    rw [Reporter.many, Reporter.many]
    generalize round s = x at hs
    generalize round' s = y at hs
    cases hs with
    | ok t s' =>
      cases t with
      | stop => exact .ok [] s'
      | last a => exact .ok [a] s'
      | pass =>
        by_cases hlt : s'.size < s.size
        · simpa only [hlt, if_true, prepend, List.nil_append] using ih _ hlt s' rfl
        · simpa only [hlt, if_false] using .endless _
      | item a =>
        by_cases hlt : s'.size < s.size
        · simpa only [hlt, if_true, List.nil_append] using (ih _ hlt s' rfl).map (a :: ·)
        · simpa only [hlt, if_false] using .endless _
    | fail hy =>
      refine .fail ?_
      rcases y with ⟨_ | ⟨d', ds⟩, o⟩
      · cases o <;> first | exact hy | cases hy
      · obtain rfl := Option.some.inj hy
        rcases o with ⟨_ | _ | a | a, s'⟩ | ⟨d, s'⟩ | _
        · rfl
        · by_cases hlt : s'.size < s.size <;> simp [hlt, prepend]
        · by_cases hlt : s'.size < s.size <;> simp [hlt]
        · rfl
        · rfl
        · rfl
    | endless y => exact .endless _

end Reporter

/-! ## Agreement of the grammar -/

namespace Grammar

open Reporter

/-- Where a statement fails, the recovering mode reports the fault or fails with it too. -/
theorem agrees_attempt {st st' : Reporter Statement} (h : st.Agrees st') (stopAtBranch : Bool) :
    (attempt .strict stopAtBranch st).Agrees (attempt .recovering stopAtBranch st') := by
  intro s
  have hs := h s
  unfold attempt
  generalize st s = x at hs
  generalize st' s = y at hs
  cases hs with
  | ok a s' => exact .ok _ s'
  | @fail d s' y hy =>
    simp only [reduceCtorEq, false_and, if_false]
    refine .fail ?_
    rcases y with ⟨_ | ⟨d', ds⟩, _ | ⟨d'', s''⟩ | _⟩
    · cases hy
    · obtain rfl := Option.some.inj hy
      simp only
      split <;> rfl
    · cases hy
    · exact hy
    · simp only
      split <;> exact hy
    · exact hy
  | endless y => exact .endless _

section Blocks

variable {expr : Reader Expr} {block block' : BlockReader}
  (h : ∀ kind line stop, (block kind line stop).Agrees (block' kind line stop)) (line : Nat)

include h

theorem agrees_branch : (branch expr block line).Agrees (branch expr block' line) :=
  (agrees_liftM _).bind fun _ => (agrees_liftM _).bind fun _ => (h _ _ _).bind fun _ =>
    (agrees_liftM _).bind fun _ => (agrees_pure _).ite (agrees_pure _)

theorem agrees_otherwise : (otherwise block line).Agrees (otherwise block' line) :=
  (agrees_liftM _).bind fun _ =>
    ((h _ _ _).bind fun _ => agrees_pure _).ite (agrees_pure _)

theorem agrees_bareStatement :
    (bareStatement expr block line).Agrees (bareStatement expr block' line) := by
  refine (agrees_liftM _).bind fun t => ?_
  split
  · exact agrees_liftM _
  · exact agrees_liftM _
  · exact agrees_liftM _
  · refine (agrees_liftM _).bind fun _ => ?_
    refine (agrees_branch h line).many.bind fun _ => ?_
    exact (agrees_otherwise h line).bind fun _ => (agrees_liftM _).bind fun _ => agrees_pure _
  · exact (agrees_liftM _).bind fun _ => (agrees_liftM _).bind fun _ =>
      (agrees_liftM _).bind fun _ => (h _ _ _).bind fun _ => (agrees_liftM _).bind fun _ =>
        agrees_pure _
  · exact (agrees_liftM _).bind fun _ => (agrees_liftM _).bind fun _ =>
      (agrees_liftM _).bind fun _ => (agrees_liftM _).bind fun _ => (agrees_liftM _).bind fun _ =>
        (h _ _ _).bind fun _ => (agrees_liftM _).bind fun _ => agrees_pure _
  · exact agrees_liftM _

omit line in
theorem agrees_statement : (statement expr block).Agrees (statement expr block') :=
  (agrees_liftM _).bind fun _ => (agrees_bareStatement h _).bind fun _ =>
    (agrees_liftM _).bind fun _ => agrees_pure _

end Blocks

/-- The blocks of the two modes agree, at every depth. -/
theorem agrees_statements :
    ∀ (room : Nat) (kind : BlockKind) (line : Nat) (stopAtBranch : Bool),
      (statements .strict room kind line stopAtBranch).Agrees
        (statements .recovering room kind line stopAtBranch)
  | 0, _, _, _ => agrees_liftM _
  | room + 1, kind, line, stopAtBranch => by
    rw [statements, statements]
    refine Agrees.many ((agrees_liftM _).bind fun _ => (agrees_liftM _).bind fun t => ?_)
    refine (agrees_liftM _).ite ((agrees_pure _).ite ?_)
    exact agrees_attempt (agrees_statement (agrees_statements room)) stopAtBranch

theorem agrees_section_ (kind : BlockKind) :
    (section_ .strict kind).Agrees (section_ .recovering kind) :=
  (agrees_liftM _).bind fun _ => (agrees_liftM _).bind fun _ =>
    (agrees_statements _ _ _ _).bind fun _ => (agrees_liftM _).bind fun _ => agrees_pure _

theorem agrees_optionalSection (kind : BlockKind) :
    (optionalSection .strict kind).Agrees (optionalSection .recovering kind) :=
  (agrees_liftM _).bind fun _ =>
    ((agrees_section_ kind).bind fun _ => agrees_pure _).ite (agrees_pure _)

theorem agrees_procedure : (procedure .strict).Agrees (procedure .recovering) :=
  (agrees_liftM _).bind fun _ => (agrees_liftM _).bind fun _ => (agrees_liftM _).bind fun _ =>
    (agrees_optionalSection _).bind fun _ => (agrees_liftM _).bind fun _ =>
      (agrees_section_ _).bind fun _ => (agrees_optionalSection _).bind fun _ =>
        (agrees_liftM _).bind fun _ => (agrees_liftM _).bind fun _ => agrees_pure _

theorem agrees_item : (item .strict).Agrees (item .recovering) := by
  refine (agrees_liftM _).bind fun t => ?_
  split
  · exact agrees_procedure.bind fun _ => agrees_pure _
  · exact (agrees_liftM _).bind fun _ => agrees_pure _
  · exact (agrees_liftM _).bind fun _ => agrees_pure _
  · exact agrees_liftM _

/-! ## Files -/

/-- What a strict reading of an item gives, the recovering reading gives without reports. -/
theorem item_recovering_of_ok {s s' : Stream} {a : Item}
    (h : (item .strict).outcome s = .ok a s') : item .recovering s = ([], .ok a s') := by
  have hs := agrees_item s
  rw [outcome] at h
  generalize item .strict s = x at hs h
  generalize item .recovering s = y at hs
  cases hs <;> cases h
  rfl

/-- What a strict reading of an item fails with is the first fault of the recovering
reading. -/
theorem firstFault_recovering_of_fail {s s' : Stream} {d : Diagnostic}
    (h : (item .strict).outcome s = .fail d s') : firstFault (item .recovering s) = some d := by
  have hs := agrees_item s
  rw [outcome] at h
  generalize item .strict s = x at hs h
  generalize item .recovering s = y at hs
  cases hs with
  | ok a s'' => cases h
  | fail hy =>
    cases h
    exact hy
  | endless y => cases h

/-- A file without faults gives its items and no reports. -/
theorem recoverFrom_of_file_ok {cap count : Nat} (hc : count < cap) {s s' : Stream}
    {items : List Item} (h : Reader.many fileRound.outcome s = .ok items s') :
    recoverFrom cap count s = some ⟨items, []⟩ := by
  have hcap : ¬cap ≤ count := Nat.not_le_of_lt hc
  refine Reader.many_cases (motive := fun s items _ => recoverFrom cap count s = some ⟨items, []⟩)
    ?stop ?pass ?item ?last h
  case stop =>
    intro s s' hr
    obtain ⟨-, hsemi, he⟩ | ⟨a, s₁, ha, -⟩ := fileRound_cases hr
    · rw [recoverFrom, hsemi]
      simp [he]
    · cases ha
  case item =>
    intro s a s₂ as _ hr hlt ih
    obtain ⟨ha, -⟩ | ⟨a', s₁, ha, hsemi, he, hi⟩ := fileRound_cases hr
    · cases ha
    · cases ha
      rw [recoverFrom, hsemi]
      simp [he, hcap, item_recovering_of_ok hi, hlt, ih, Findings.prepend]
  case pass =>
    intro s s₂ as _ hr
    obtain ⟨ha, -⟩ | ⟨a, s₁, ha, -⟩ := fileRound_cases hr <;> cases ha
  case last =>
    intro s a _ hr
    obtain ⟨ha, -⟩ | ⟨a, s₁, ha, -⟩ := fileRound_cases hr <;> cases ha

/-- A fault of an item is reported before everything behind it. -/
theorem head?_reports_recoverFrom {cap count : Nat} (hcap : ¬cap ≤ count) {s s₁ : Stream}
    {d : Diagnostic} (hsemi : Reader.semicolons s = .ok () s₁) (he : s₁.token ≠ .eof)
    (hd : firstFault (item .recovering s₁) = some d) {f : Findings}
    (hf : recoverFrom cap count s = some f) : f.reports.head? = some d := by
  rw [recoverFrom, hsemi] at hf
  simp only [he, hcap, or_false, if_false] at hf
  -- Only the reports before the next item matter, so it does not matter how it goes on.
  rcases hi : item .recovering s₁ with ⟨_ | ⟨d', ds⟩, ⟨a, s₂⟩ | ⟨d'', s₂⟩ | _⟩ <;>
    rw [hi] at hd hf
  · cases hd
  · obtain rfl := Option.some.inj hd
    simp only at hf
    split at hf
    · cases hf
      rfl
    split at hf
    · split at hf
      · obtain ⟨f', -, rfl⟩ := Option.map_eq_some_iff.1 hf
        rfl
      · cases hf
    · cases hf
  · cases hd
  · obtain rfl := Option.some.inj hd
    simp only at hf
    split at hf
    · obtain ⟨f', -, rfl⟩ := Option.map_eq_some_iff.1 hf
      rfl
    · cases hf
  · obtain rfl := Option.some.inj hd
    simp only at hf
    split at hf
    · cases hf
      rfl
    split at hf
    · split at hf
      · obtain ⟨f', -, rfl⟩ := Option.map_eq_some_iff.1 hf
        rfl
      · cases hf
    · cases hf
  · cases hf

/-- The first report on a file with a fault is that fault. -/
theorem recoverFrom_of_file_fail {cap count : Nat} (hc : count < cap) {s s' : Stream}
    {d : Diagnostic} (h : Reader.many fileRound.outcome s = .fail d s') {f : Findings}
    (hf : recoverFrom cap count s = some f) : f.reports.head? = some d := by
  have hcap : ¬cap ≤ count := Nat.not_le_of_lt hc
  refine Reader.many_fail_cases
    (motive := fun s d => ∀ f, recoverFrom cap count s = some f → f.reports.head? = some d)
    ?fail ?pass ?item h f hf
  case fail =>
    intro s d s₂ hr f hf
    rw [fileRound_run] at hr
    cases hsemi : Reader.semicolons s with
    | ok u s₁ =>
      rw [hsemi, Outcome.andThen_ok] at hr
      by_cases he : s₁.token = .eof
      · simp [he] at hr
      · rw [if_neg he, Outcome.map_eq_fail] at hr
        exact head?_reports_recoverFrom hcap hsemi he (firstFault_recovering_of_fail hr) hf
    | fail d' s₁ => simp [recoverFrom, hsemi] at hf
    | endless => simp [recoverFrom, hsemi] at hf
  case item =>
    intro s a s₂ d hr hlt ih f hf
    obtain ⟨ha, -⟩ | ⟨a', s₁, ha, hsemi, he, hi⟩ := fileRound_cases hr
    · cases ha
    · cases ha
      rw [recoverFrom, hsemi] at hf
      simp only [he, hcap, item_recovering_of_ok hi, hlt, or_false, if_false, if_true,
        Option.map_eq_some_iff, List.length_nil, Nat.add_zero] at hf
      obtain ⟨f', hf', rfl⟩ := hf
      exact ih f' hf'
  case pass =>
    intro s s₂ d hr
    obtain ⟨ha, -⟩ | ⟨a, s₁, ha, -⟩ := fileRound_cases hr <;> cases ha

/-- A file on which nothing is reported is read strictly, with the same items. -/
theorem file_ok_of_no_reports {cap count : Nat} (hc : count < cap) {s : Stream} (hs : s.Ends)
    {f : Findings} (hf : recoverFrom cap count s = some f) (hr : f.reports = []) :
    ∃ s', Reader.many fileRound.outcome s = .ok f.items s' := by
  have hhalts := halts_items s hs
  cases hrun : Reader.many fileRound.outcome s with
  | ok items s' =>
    rw [recoverFrom_of_file_ok hc hrun] at hf
    cases hf
    exact ⟨s', rfl⟩
  | fail d s' =>
    have hd := recoverFrom_of_file_fail hc hrun hf
    rw [hr] at hd
    cases hd
  | endless =>
    rw [hrun] at hhalts
    exact hhalts.elim

end Grammar

section Files

variable {ts : List Located}

theorem zero_lt_cap (maxErrors : Nat) : 0 < max 1 maxErrors :=
  Nat.lt_of_lt_of_le Nat.zero_lt_one (Nat.le_max_left 1 maxErrors)

/-- A strict reading comes to its end. -/
theorem parseFile_cases (hts : EndsOnce ts) :
    (∃ f, parseFile ts = .accepted f) ∨ ∃ d, parseFile ts = .refused d := by
  have hhalts := Grammar.halts_items _ (Stream.ends_ofTokens hts)
  rw [parseFile_eq]
  cases hrun : Reader.many Grammar.fileRound.outcome (.ofTokens ts) with
  | ok items s => exact .inl ⟨⟨items⟩, rfl⟩
  | fail d s => exact .inr ⟨d, rfl⟩
  | endless =>
    rw [hrun] at hhalts
    exact hhalts.elim

/-- Where the strict reading accepts, the recovering one has nothing to report. -/
theorem recoverFile_of_accepted {f : SourceFile} (h : parseFile ts = .accepted f)
    (maxErrors : Nat) : recoverFile maxErrors ts = some ⟨f, []⟩ := by
  rw [parseFile_eq] at h
  cases hrun : Reader.many Grammar.fileRound.outcome (.ofTokens ts) with
  | ok items s =>
    rw [hrun] at h
    cases h
    simp [recoverFile, Grammar.recoverFrom_of_file_ok (zero_lt_cap maxErrors) hrun]
  | fail d s =>
    rw [hrun] at h
    cases h
  | endless =>
    rw [hrun] at h
    cases h

/-- What the strict reading refuses with is the first report of the recovering one. -/
theorem recoverFile_of_refused (hts : EndsOnce ts) {d : Diagnostic}
    (h : parseFile ts = .refused d) (maxErrors : Nat) :
    ∃ r, recoverFile maxErrors ts = some r ∧ r.diagnostics.head? = some d := by
  have hc := zero_lt_cap maxErrors
  obtain ⟨f, hf, hread⟩ := exists_recoverFile hts.endsLast maxErrors
  refine ⟨_, hread, ?_⟩
  rw [parseFile_eq] at h
  cases hrun : Reader.many Grammar.fileRound.outcome (.ofTokens ts) with
  | ok items s =>
    rw [hrun] at h
    cases h
  | fail d' s =>
    rw [hrun] at h
    cases h
    rw [List.head?_take, if_neg (Nat.ne_of_gt hc)]
    exact Grammar.recoverFrom_of_file_fail hc hrun hf
  | endless =>
    rw [hrun] at h
    cases h

end Files

/-- A recovering reading comes to its end. It reports nothing exactly if the strict reading
accepts, with the same file, and its first report is what the strict reading refuses
with. -/
theorem recoverFile_agrees {ts : List Located} (hts : EndsOnce ts) (maxErrors : Nat) :
    ∃ r, recoverFile maxErrors ts = some r ∧
      (∀ f, parseFile ts = .accepted f ↔ r.diagnostics = [] ∧ r.file = f) ∧
      ∀ d, parseFile ts = .refused d ↔ r.diagnostics.head? = some d := by
  obtain ⟨f, h⟩ | ⟨d, h⟩ := parseFile_cases hts
  · exact ⟨⟨f, []⟩, recoverFile_of_accepted h maxErrors, by simp [h], by simp [h]⟩
  · obtain ⟨r, hr, hd⟩ := recoverFile_of_refused hts h maxErrors
    have hne : r.diagnostics ≠ [] := by
      intro hnil
      rw [hnil] at hd
      cases hd
    exact ⟨r, hr, by simp [h, hne], by simp [h, hd]⟩

/-- A member is missing behind the dot of a confirmed name, and another statement follows. -/
theorem recoverFile_agrees_missing_member :
    let ts : List Located :=
      [.keyword .procedure, .name "P", .keyword .main, .keyword .confirm, .name "a", .symbol .dot,
        .symbol .semicolon, .name "b", .keyword .end_, .keyword .main, .keyword .end_,
        .keyword .procedure, .eof].zipIdx.map fun (t, i) => ⟨t, ⟨i, i + 1, 1, i + 1⟩⟩
    EndsOnce ts ∧
      ∃ r, recoverFile 0 ts = some r ∧
        (∀ f, parseFile ts = .accepted f ↔ r.diagnostics = [] ∧ r.file = f) ∧
        ∀ d, parseFile ts = .refused d ↔ r.diagnostics.head? = some d := by
  have hts : EndsOnce
      ([.keyword .procedure, .name "P", .keyword .main, .keyword .confirm, .name "a",
        .symbol .dot, .symbol .semicolon, .name "b", .keyword .end_, .keyword .main,
        .keyword .end_, .keyword .procedure, .eof].zipIdx.map
          fun (t, i) => (⟨t, ⟨i, i + 1, 1, i + 1⟩⟩ : Located)) := by
    simp [EndsOnce]
  exact ⟨hts, recoverFile_agrees hts 0⟩

end OpsLang
