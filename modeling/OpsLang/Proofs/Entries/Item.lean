import OpsLang.Proofs.Appending.File

/-!
# Texts of one construct

What fills a row is a construct with nothing but semicolons behind it (`Outcome.Fills`), and this
is what the entry points for declarations, procedures and blocks accept. A row that an item fills
is a file of that item, and the other way round unless the row begins with a semicolon
(`itemAt_fills_iff`).
-/

namespace OpsLang

open Grammar Reader

variable {α : Type}

/-! ## Constructs that fill a row -/

/-- Nothing but semicolons may be left behind a construct. -/
def finish (a : α) : Reader α := do
  semicolons
  endOfInput
  return a

theorem finish_eq_ok {a b : α} {s s' : Stream} :
    finish a s = .ok b s' ↔ semicolons s = .ok () s' ∧ s'.token = .eof ∧ a = b := by
  have hend : ∀ z : Stream, endOfInput z = if z.token = .eof then .ok () z
      else .fail (z.expecting ["end of input"]) z := by
    intro z
    rw [endOfInput, bind_run, peek_run, Outcome.andThen_ok, ite_run]
    rfl
  rw [finish, bind_run, Outcome.andThen_eq_ok]
  constructor
  · rintro ⟨_, z, hz, h⟩
    rw [bind_run, hend] at h
    split at h
    · next heof =>
      obtain ⟨rfl, rfl⟩ := Outcome.ok.inj h
      exact ⟨hz, heof, rfl⟩
    · cases h
  · rintro ⟨hs', heof, rfl⟩
    exact ⟨(), s', hs', by rw [bind_run, hend, if_pos heof]; rfl⟩

/-- Nothing but semicolons is left. -/
def Stream.Done (s : Stream) : Prop :=
  ∃ s', semicolons s = .ok () s' ∧ s'.token = .eof

theorem Stream.done_of_eof {s : Stream} (h : s.token = .eof) : s.Done :=
  ⟨s, semicolons_of_ne (by simp [h]), h⟩

/-- The outcome is a value behind which nothing is left. -/
def Outcome.Fills (o : Outcome α) (a : α) : Prop :=
  ∃ s, o = .ok a s ∧ s.Done

theorem finish_eq_accepted {o : Outcome α} {a : α} :
    (o.andThen fun a s => finish a s).verdict = .accepted a ↔ o.Fills a := by
  simp only [Outcome.verdict_eq_accepted, Outcome.andThen_eq_ok, finish_eq_ok]
  constructor
  · rintro ⟨z, a', s, rfl, hs, heof, rfl⟩
    exact ⟨s, rfl, z, hs, heof⟩
  · rintro ⟨s, rfl, z, hs, heof⟩
    exact ⟨z, a, s, rfl, hs, heof, rfl⟩

section Verdicts

variable {ts : List Located}

theorem parseDeclaration_eq : parseDeclaration ts =
    ((declaration maxNesting (.ofTokens ts)).andThen fun d s => finish d s).verdict := rfl

theorem parseDeclaration_eq_accepted {d : Declaration} : parseDeclaration ts = .accepted d ↔
    (declaration maxNesting (.ofTokens ts)).Fills d := by
  rw [parseDeclaration_eq, finish_eq_accepted]

theorem parseProcedure_eq : parseProcedure ts =
    ((procedureAt maxNesting (.ofTokens ts)).andThen fun p s => finish p s).verdict := by
  have h : parseProcedure ts = ((do
      let p ← procedure .strict
      semicolons
      endOfInput
      return p : Reporter Procedure).outcome (.ofTokens ts)).verdict := rfl
  simp only [Reporter.outcome_bind, Reporter.outcome_liftM, Reporter.outcome_pure,
    procedure_outcome] at h
  exact h

theorem parseProcedure_eq_accepted {p : Procedure} : parseProcedure ts = .accepted p ↔
    (procedureAt maxNesting (.ofTokens ts)).Fills p := by
  rw [parseProcedure_eq, finish_eq_accepted]

/-- The statements of a block with its end, read strictly. -/
def blockAt (room : Nat) (kind : BlockKind) (line : Nat) : Reader Block := do
  let body ← (statements .strict room kind line false).outcome
  endOf kind line
  return body

theorem parseBlock_eq {kind : BlockKind} : parseBlock kind ts =
    ((blockAt maxNesting kind (Stream.ofTokens ts).line (.ofTokens ts)).andThen
      fun body s => finish body s).verdict := by
  have h : parseBlock kind ts = ((do
      let line := (← here).line
      let body ← statements .strict maxNesting kind line false
      endOf kind line
      semicolons
      endOfInput
      return body : Reporter Block).outcome (.ofTokens ts)).verdict := rfl
  have hblock : ∀ s, ((statements .strict maxNesting kind s.line false).outcome >>= fun body =>
      endOf kind s.line >>= fun _ => finish body) s =
        (blockAt maxNesting kind s.line s).andThen fun a s => finish a s := by
    intro s
    simp only [blockAt, ← bind_run, bind_bind]
    rfl
  simp only [Reporter.outcome_bind, Reporter.outcome_liftM, Reporter.outcome_pure] at h
  rw [h, ← hblock]
  rfl

theorem parseBlock_eq_accepted {kind : BlockKind} {body : Block} :
    parseBlock kind ts = .accepted body ↔
      (blockAt maxNesting kind (Stream.ofTokens ts).line (.ofTokens ts)).Fills body := by
  rw [parseBlock_eq, finish_eq_accepted]

end Verdicts

/-! ## Files of one item -/

section Items

variable {s : Stream} {ts : List Located}

/-- A file is its first item and the file behind it, or nothing. -/
theorem many_fileRoundAt_eq (hs : s.Closed) : Reader.many (fileRoundAt maxNesting) s =
    (semicolons s).andThen fun _ s₁ =>
      if s₁.token = .eof then .ok [] s₁
      else (itemAt maxNesting s₁).andThen fun i s₂ =>
        (Reader.many (fileRoundAt maxNesting) s₂).map (i :: ·) := by
  obtain ⟨us, s₁, hus, hrun, -⟩ := semicolons_ok hs
  have hreach : s.Reaches s₁ := ⟨us, hus⟩
  rw [hrun, Outcome.andThen_ok]
  split
  · next heof => exact many_stop (fileRoundAt_of_eof hrun heof)
  · next heof =>
    have hround : fileRoundAt maxNesting s = _ := fileRoundAt_of_ne_eof hrun heof
    have hpast := proceeds_item .strict s₁ (hreach.closed hs)
    rw [item_outcome] at hpast
    cases h : itemAt maxNesting s₁ with
    | ok i s₂ =>
      rw [h] at hround hpast
      exact many_item hround (Nat.lt_of_lt_of_le hpast.2 hreach.size_le)
    | fail d s₂ =>
      rw [h] at hround
      exact many_of_fail hround
    | endless =>
      rw [h] at hround
      exact many_of_endless hround

theorem many_fileRoundAt_fills_nil (hs : s.Closed) :
    (∃ z, Reader.many (fileRoundAt maxNesting) s = .ok [] z) ↔ s.Done := by
  simp only [many_fileRoundAt_eq hs, Outcome.andThen_eq_ok, Stream.Done]
  constructor
  · rintro ⟨z, _, s₁, hs₁, h⟩
    split at h
    · next heof => exact ⟨s₁, hs₁, heof⟩
    · obtain ⟨i, s₂, -, h⟩ := Outcome.andThen_eq_ok.1 h
      obtain ⟨is, -, h⟩ := Outcome.map_eq_ok.1 h
      cases h
  · rintro ⟨s₁, hs₁, heof⟩
    exact ⟨s₁, (), s₁, hs₁, if_pos heof⟩

/-- A file of one item has nothing but semicolons before and behind the item. -/
theorem many_fileRoundAt_singleton (hs : s.Closed) {i : Item} :
    (∃ z, Reader.many (fileRoundAt maxNesting) s = .ok [i] z) ↔
      ∃ s₁, semicolons s = .ok () s₁ ∧ s₁.token ≠ .eof ∧ (itemAt maxNesting s₁).Fills i := by
  have hclosed : ∀ {s₁ s₂ : Stream} {i : Item}, semicolons s = .ok () s₁ →
      itemAt maxNesting s₁ = .ok i s₂ → s₂.Closed := by
    intro s₁ s₂ i hs₁ hi
    obtain ⟨us, hus, -⟩ := semicolons_eq_ok hs hs₁
    have hs₁ : s₁.Closed := Stream.Reaches.closed ⟨us, hus⟩ hs
    have hpast := proceeds_item .strict s₁ hs₁
    rw [item_outcome, hi] at hpast
    exact hpast.1.closed hs₁
  simp only [many_fileRoundAt_eq hs, Outcome.andThen_eq_ok]
  constructor
  · rintro ⟨z, _, s₁, hs₁, h⟩
    split at h
    · cases h
    · next heof =>
      obtain ⟨i, s₂, hi, h⟩ := Outcome.andThen_eq_ok.1 h
      obtain ⟨is, his, h⟩ := Outcome.map_eq_ok.1 h
      obtain ⟨rfl, rfl⟩ := List.cons.inj h
      exact ⟨s₁, hs₁, heof, s₂, hi, (many_fileRoundAt_fills_nil (hclosed hs₁ hi)).1 ⟨z, his⟩⟩
  · rintro ⟨s₁, hs₁, heof, s₂, hi, hdone⟩
    obtain ⟨z, hz⟩ := (many_fileRoundAt_fills_nil (hclosed hs₁ hi)).2 hdone
    refine ⟨z, (), s₁, hs₁, ?_⟩
    rw [if_neg heof, hi, Outcome.andThen_ok, hz]
    rfl

/-- An item that fills a row is a file of that item, and one that begins with no semicolon. -/
theorem itemAt_fills_iff (hts : EndsLast ts) {i : Item} :
    (itemAt maxNesting (.ofTokens ts)).Fills i ↔
      parseFile ts = .accepted ⟨[i]⟩ ∧ (Stream.ofTokens ts).token ≠ .symbol .semicolon := by
  rw [parseFile_eq_accepted, many_fileRoundAt_singleton (Stream.closed_ofTokens hts)]
  constructor
  · rintro ⟨s₂, hi, hdone⟩
    have hbegins := hi
    rw [itemAt_run] at hbegins
    have hne : ∀ t, (Stream.ofTokens ts).token = t → t ≠ .eof ∧ t ≠ .symbol .semicolon := by
      rintro t rfl
      split at hbegins
      all_goals first | cases hbegins | simp [*]
    exact ⟨⟨_, semicolons_of_ne (hne _ rfl).2, (hne _ rfl).1, s₂, hi, hdone⟩, (hne _ rfl).2⟩
  · rintro ⟨⟨s₁, hs₁, -, hfills⟩, hne⟩
    rw [semicolons_of_ne hne] at hs₁
    obtain ⟨-, rfl⟩ := Outcome.ok.inj hs₁
    exact hfills

theorem itemAt_procedure {p : Procedure} {s' : Stream} :
    itemAt maxNesting s = .ok (.procedure p) s' ↔ procedureAt maxNesting s = .ok p s' := by
  constructor
  · intro h
    rw [itemAt_run] at h
    split at h
    · obtain ⟨p', hp, heq⟩ := Outcome.map_eq_ok.1 h
      exact Item.procedure.inj heq ▸ hp
    · obtain ⟨d, -, heq⟩ := Outcome.map_eq_ok.1 h
      cases heq
    · obtain ⟨d, -, heq⟩ := Outcome.map_eq_ok.1 h
      cases heq
    · cases h
  · intro h
    have hkeyword := h
    rw [procedureAt, bind_run, here_run, Outcome.andThen_ok, bind_run,
      Outcome.andThen_eq_ok] at hkeyword
    obtain ⟨_, s₁, hs₁, -⟩ := hkeyword
    rw [itemAt_run, (keyword_eq_ok.1 hs₁).1, h]
    rfl

theorem itemAt_declaration {d : Declaration} {s' : Stream} :
    itemAt maxNesting s = .ok (.declaration d) s' ↔ declaration maxNesting s = .ok d s' := by
  constructor
  · intro h
    rw [itemAt_run] at h
    split at h
    · obtain ⟨p, -, heq⟩ := Outcome.map_eq_ok.1 h
      cases heq
    · obtain ⟨d', hd, heq⟩ := Outcome.map_eq_ok.1 h
      exact Item.declaration.inj heq ▸ hd
    · obtain ⟨d', hd, heq⟩ := Outcome.map_eq_ok.1 h
      exact Item.declaration.inj heq ▸ hd
    · cases h
  · intro h
    have hkeyword := h
    rw [declaration, declarationOf_run] at hkeyword
    rw [itemAt_run, h]
    split at hkeyword
    · next ht => rw [ht]; rfl
    · next ht => rw [ht]; rfl
    · cases hkeyword

theorem parseProcedure_iff (hts : EndsLast ts) {p : Procedure} :
    parseProcedure ts = .accepted p ↔ parseFile ts = .accepted ⟨[.procedure p]⟩ ∧
      (Stream.ofTokens ts).token ≠ .symbol .semicolon := by
  rw [← itemAt_fills_iff hts, parseProcedure_eq_accepted]
  simp only [Outcome.Fills, itemAt_procedure]

theorem parseDeclaration_iff (hts : EndsLast ts) {d : Declaration} :
    parseDeclaration ts = .accepted d ↔ parseFile ts = .accepted ⟨[.declaration d]⟩ ∧
      (Stream.ofTokens ts).token ≠ .symbol .semicolon := by
  rw [← itemAt_fills_iff hts, parseDeclaration_eq_accepted]
  simp only [Outcome.Fills, itemAt_declaration]

end Items

end OpsLang
