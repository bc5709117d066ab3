import OpsLang.Proofs.Halting.File

/-!
# Reading ends

On a stream whose last token is an end of text, every reader of the grammar comes to an
outcome, and what it leaves is a rest of what it was given (`Reader.Halts`). A reader of a
construct takes at least one token if it succeeds (`Reader.Proceeds`). So the rounds of every
repetition take a token or are the last (`Reader.Turns`), and what `Reader.HaltsOn` and its like
pass through these do as well.

A statement that fails in recovering mode may have taken no token, and `confirm` goes back to
the place behind its keyword. What carries the argument there is that the skipping after a
fault always leaves less than the statement was given (`resume_past`), and likewise between
items (`nextItem_past`). So neither mode ever reads for ever (`halts_statements`,
`recoverFrom_isSome`), and `recoverFile_progresses` says so of every round of every loop that
recovery goes through.
-/

namespace OpsLang

theorem Stream.Closed.past_advance {α : Type} {s : Stream} (hs : s.Closed) (h : s.token ≠ .eof)
    (a : α) : (Outcome.ok a s.advance).Past s :=
  ⟨s.reaches_advance, hs.size_advance_lt h⟩

/-- What is left behind a token that is not the end is less. -/
theorem Outcome.Within.past_of_advance {α : Type} {s : Stream} {o : Outcome α}
    (ho : o.Within s.advance) (hs : s.Closed) (h : s.token ≠ .eof) : o.Past s :=
  ho.past_of_lt s.reaches_advance (hs.size_advance_lt h)

/-! ## Readers that halt -/

namespace Reader

variable {α β : Type}

/-- On a closed stream the reader leaves a rest. -/
def Halts (r : Reader α) : Prop :=
  ∀ s : Stream, s.Closed → (r s).Within s

/-- On a closed stream the reader leaves a rest, and takes a token if it succeeds. -/
def Proceeds (r : Reader α) : Prop :=
  ∀ s : Stream, s.Closed → (r s).Past s

/-- On a closed stream the round leaves a rest, and takes a token if another round
follows. -/
def Turns (r : Reader (Turn α)) : Prop :=
  ∀ s : Stream, s.Closed → (r s).Turns s

theorem Proceeds.halts {r : Reader α} (h : r.Proceeds) : r.Halts :=
  fun s hs => (h s hs).within

theorem Proceeds.turns {r : Reader (Turn α)} (h : r.Proceeds) : r.Turns :=
  fun s hs => (h s hs).turns

theorem Halts.bind {r : Reader α} {f : α → Reader β} (h : r.Halts) (hf : ∀ a, (f a).Halts) :
    (r >>= f).Halts :=
  HaltsOn.bind (Q := (· = .eof)) h hf

theorem Proceeds.bind {r : Reader α} {f : α → Reader β} (h : r.Proceeds)
    (hf : ∀ a, (f a).Halts) : (r >>= f).Proceeds :=
  ProceedsOn.bind (Q := (· = .eof)) h hf

theorem Halts.ite {c : Prop} [Decidable c] {r r' : Reader α} (h : r.Halts) (h' : r'.Halts) :
    (if c then r else r').Halts :=
  HaltsOn.ite (Q := (· = .eof)) h h'

theorem Halts.bind_turns {r : Reader α} {f : α → Reader (Turn β)} (h : r.Halts)
    (hf : ∀ a, (f a).Turns) : (r >>= f).Turns :=
  HaltsOn.bind_turnsOn (Q := (· = .eof)) h hf

theorem halts_pure (a : α) : (pure a : Reader α).Halts :=
  fun s _ => .refl s

theorem halts_here : here.Halts :=
  fun s _ => .refl s

theorem halts_peek : peek.Halts :=
  fun s _ => .refl s

theorem halts_skip : skip.Halts :=
  fun s _ => s.reaches_advance

theorem proceeds_failAt (d : Stream → Diagnostic) : (failAt d : Reader α).Proceeds :=
  fun s _ => .refl s

theorem proceeds_refuse (expected : List String) : (refuse expected : Reader α).Proceeds :=
  proceeds_failAt _

theorem proceeds_keyword (k : Keyword) : (keyword k).Proceeds := by
  intro s hs
  rw [keyword_run]
  split
  · next h => exact hs.past_advance (by simp [h]) ()
  · exact .refl s

theorem proceeds_symbol (y : Symbol) : (symbol y).Proceeds := by
  intro s hs
  rw [symbol_run]
  split
  · next h => exact hs.past_advance (by simp [h]) ()
  · exact .refl s

theorem proceeds_name (what : String) : (name what).Proceeds := by
  intro s hs
  rw [name_run]
  split
  · next n h => exact hs.past_advance (by simp [h]) n
  · exact .refl s

theorem halts_eat (t : Token) : (eat t).Halts :=
  haltsOn_eat (Q := (· = .eof)) t

theorem turns_stop : (pure .stop : Reader (Turn α)).Turns :=
  fun s _ => Stream.Reaches.refl s

/-- A repetition halts if each of its rounds is the last or takes a token. -/
theorem Turns.halts_many {round : Reader (Turn α)} (h : round.Turns) :
    Halts (many round) :=
  TurnsOn.haltsOn_many (Q := (· = .eof)) h

/-- Passing over semicolons takes all that are there, and never fails. -/
theorem semicolons_ok {s : Stream} (hs : s.Closed) :
    ∃ us s', s = s'.behind us ∧ semicolons s = .ok () s' ∧
      (∀ u ∈ us, u.token = .symbol .semicolon) ∧ s'.token ≠ .symbol .semicolon := by
  induction hn : s.size using Nat.strongRecOn generalizing s with
  | _ n ih =>
    subst hn
    by_cases h : s.token = .symbol .semicolon
    · have hlt := hs.size_advance_lt (by simp [h])
      obtain ⟨us, s', hus, hrun, hall, hend⟩ := ih _ hlt hs.advance rfl
      refine ⟨s.here :: us, s', ?_, ?_, List.forall_mem_cons.2 ⟨h, hall⟩, hend⟩
      · rw [← hs.behind_here (by simp [h]), hus, ← Stream.behind_append]
        rfl
      · rw [Grammar.semicolons_of_eq h hlt, hrun]
    · exact ⟨[], s, rfl, Grammar.semicolons_of_ne h, by simp, h⟩

theorem semicolons_eq_ok {s s' : Stream} (hs : s.Closed) (h : semicolons s = .ok () s') :
    ∃ us, s = s'.behind us ∧ (∀ u ∈ us, u.token = .symbol .semicolon) ∧
      s'.token ≠ .symbol .semicolon := by
  obtain ⟨us, s₁, hus, hrun, hall, hend⟩ := semicolons_ok hs
  rw [hrun] at h
  obtain ⟨-, rfl⟩ := Outcome.ok.inj h
  exact ⟨us, hus, hall, hend⟩

theorem halts_semicolons : semicolons.Halts :=
  Grammar.haltsOn_semicolons (Q := (· = .eof)) (by simp)

end Reader

namespace Grammar

open Reader

/-! ## Expressions -/

theorem proceeds_path : path.Proceeds :=
  proceedsOn_path (Q := (· = .eof)) (by simp)

theorem proceeds_arguments {value : Reader Expr} (h : value.Proceeds) :
    (arguments value).Proceeds := by
  have hround := turnsOn_argumentRound (grounded_of_proceedsOn (Q := (· = .eof)) h)
  rw [arguments_eq]
  exact (proceeds_symbol _).bind fun _ => hround.haltsOn_many.bind fun _ =>
    (haltsOn_symbol _).bind fun _ => haltsOn_pure _

theorem proceeds_primary {inside : Reader Expr} (h : inside.Proceeds) :
    (primary inside).Proceeds :=
  (grounded_primary (grounded_of_proceedsOn (Q := (· = .eof)) h)).proceedsOn fun _ h => h.ne_eof

theorem proceeds_binaryAt (room floor : Nat) : (binaryAt room floor).Proceeds :=
  (grounded_binaryAt (Q := (· = .eof)) room floor).proceedsOn fun _ h => h.ne_eof

theorem proceeds_unaryAt (room : Nat) : (unaryAt room).Proceeds :=
  (grounded_unaryAt (Q := (· = .eof)) room).proceedsOn fun _ h => h.ne_eof

theorem proceeds_expression (room : Nat) : (expression room).Proceeds :=
  proceeds_binaryAt room 1

/-! ## Statements -/

theorem halts_endOf (kind : BlockKind) (line : Nat) : (endOf kind line).Halts :=
  haltsOn_endOf (Q := (· = .eof)) kind line

section Statements

variable {expr : Reader Expr} (he : expr.Proceeds)

include he

theorem proceeds_activityReference : (activityReference expr).Proceeds :=
  proceedsOn_activityReference (Q := (· = .eof)) (by simp) he

theorem proceeds_confirmOperand (line : Nat) : (confirmOperand expr line).Proceeds :=
  proceedsOn_confirmOperand (Q := (· = .eof)) (by simp) he line

theorem proceeds_plainStatement (line : Nat) : (plainStatement expr line).Proceeds :=
  proceedsOn_plainStatement (Q := (· = .eof)) he line

variable {block : BlockReader} (hb : ∀ kind line stop, (block kind line stop).outcome.Halts)
  (line : Nat)

include hb

theorem turns_branch : (branch expr block line).outcome.Turns :=
  turnsOn_branch (Q := (· = .eof)) he hb line

theorem proceeds_bareStatement : (bareStatement expr block line).outcome.Proceeds :=
  proceedsOn_bareStatement (Q := (· = .eof)) (by simp) he hb line

omit line in
theorem proceeds_statement : (statement expr block).outcome.Proceeds :=
  proceedsOn_statement (Q := (· = .eof)) (by simp) he hb

end Statements

/-! ## Blocks -/

theorem turns_resumeRound (line : Nat) (stopAtBranch moved : Bool) :
    (resumeRound line stopAtBranch moved).Turns := by
  intro s hs
  unfold resumeRound
  split
  · exact .refl s
  next he =>
  split
  · exact .refl s
  split
  · exact s.reaches_advance
  split
  · exact .refl s
  · exact ⟨s.reaches_advance, hs.size_advance_lt fun h => he (.inl h)⟩

/-- Skipping after a fault leaves a rest. -/
theorem resumeFrom_within (line : Nat) (stopAtBranch moved : Bool) (t : Located)
    (ts : List Located) (hs : Stream.Closed ⟨t, ts⟩) :
    (resumeFrom line stopAtBranch moved t ts).Within ⟨t, ts⟩ := by
  rw [resumeFrom_run]
  exact (turns_resumeRound line stopAtBranch moved _ hs).again fun s' hr hlt =>
    resumeFrom_within line stopAtBranch true s'.here s'.ahead (hr.closed hs)
termination_by ts.length

/-- Skipping that has passed over nothing yet leaves less, unless it stands at the end of a
run. -/
theorem resumeFrom_past (line : Nat) {stopAtBranch : Bool} {s : Stream} (hs : s.Closed)
    (he : s.token ≠ .eof) (hr : endsRun stopAtBranch s.token = false) :
    (resumeFrom line stopAtBranch false s.here s.ahead).Past s := by
  have hround : resumeRound line stopAtBranch false s = .ok .stop s.advance ∨
      resumeRound line stopAtBranch false s = .ok .pass s.advance := by
    simp only [endsRun, Bool.or_eq_false_iff, Bool.and_eq_false_iff,
      decide_eq_false_iff_not] at hr
    have hbranch : ¬(stopAtBranch ∧ (s.token = .keyword .elsif ∨ s.token = .keyword .else_)) := by
      rintro ⟨hb, h⟩
      rcases hr.2 with h' | h'
      · simp [h'] at hb
      · exact h.elim h'.1 h'.2
    simp only [resumeRound, he, hr.1, hbranch, false_or, if_false, Bool.false_eq_true, false_and]
    split
    · exact .inl rfl
    · exact .inr rfl
  rw [resumeFrom_run]
  obtain h | h := hround <;> rw [h]
  · exact hs.past_advance he ()
  · have hw := resumeFrom_within line stopAtBranch true _ _ hs.advance
    simp only [Outcome.again, hs.size_advance_lt he, if_true]
    exact hw.past_of_advance hs he

/-- Skipping after the fault of a statement leaves less than the statement was given. -/
theorem resume_past (line : Nat) {stopAtBranch : Bool} {start s : Stream} (hs : start.Closed)
    (hr : start.Reaches s) (he : start.token ≠ .eof)
    (hend : endsRun stopAtBranch start.token = false) :
    (resume start line stopAtBranch s).Past start := by
  unfold resume
  by_cases hlt : s.size < start.size
  · exact (resumeFrom_within line stopAtBranch _ s.here s.ahead (hr.closed hs)).past_of_lt hr hlt
  · obtain rfl := hr.eq_of_size_le (Nat.le_of_not_lt hlt)
    simpa [hlt] using resumeFrom_past line hs he hend

theorem attempt_turns (mode : Mode) {stopAtBranch : Bool} {st : Reporter Statement}
    (h : st.outcome.Proceeds) {s : Stream} (hs : s.Closed) (he : s.token ≠ .eof)
    (hend : endsRun stopAtBranch s.token = false) :
    ((attempt mode stopAtBranch st).outcome s).Turns s := by
  have hp := h s hs
  rw [attempt_run]
  cases hst : st.outcome s with
  | ok a s' =>
    rw [hst] at hp
    exact hp
  | fail d s' =>
    rw [hst] at hp
    simp only
    split
    · have hres := resume_past d.span.line hs hp he hend
      exact (hres.map _).turns
    · exact hp
  | endless =>
    rw [hst] at hp
    exact hp

theorem turns_round (mode : Mode) (kind : BlockKind) (line : Nat) (stopAtBranch : Bool)
    {st : Reporter Statement} (h : st.outcome.Proceeds) :
    (round mode kind line stopAtBranch st).outcome.Turns :=
  turnsOn_round (Q := (· = .eof)) (by simp) fun _ hs he hend => attempt_turns mode h hs he hend

/-- Every block comes to its end or to a fault, in both modes. -/
theorem halts_statements (mode : Mode) :
    ∀ (room : Nat) (kind : BlockKind) (line : Nat) (stopAtBranch : Bool),
      (statements mode room kind line stopAtBranch).outcome.Halts
  | 0, _, _, _ => (proceeds_failAt _).halts
  | room + 1, kind, line, stopAtBranch => by
    rw [statements, Reporter.outcome_many]
    exact (turns_round mode kind line stopAtBranch
      (proceeds_statement (proceeds_expression room) (halts_statements mode room))).halts_many

/-! ## Declarations -/

theorem halts_arrayType {inner : Reader TypeExpr} (h : inner.Halts) : (arrayType inner).Halts :=
  haltsOn_arrayType (Q := (· = .eof)) h

theorem halts_structType {inner : Reader TypeExpr} (h : inner.Halts) : (structType inner).Halts :=
  haltsOn_structType (Q := (· = .eof)) h

theorem halts_typeOf {inner : Reader TypeExpr} (h : inner.Halts) : (typeOf inner).Halts :=
  haltsOn_typeOf (Q := (· = .eof)) h

theorem halts_typeAt (room : Nat) : (typeAt room).Halts :=
  haltsOn_typeAt (Q := (· = .eof)) room

theorem proceeds_declarationOf {type : Reader TypeExpr} {inner : Reader Declaration}
    (ht : type.Halts) (hi : inner.Proceeds) : (declarationOf type inner).Proceeds :=
  proceedsOn_declarationOf (Q := (· = .eof)) (by simp) ht hi

theorem proceeds_declarationAt (room : Nat) : (declarationAt room).Proceeds :=
  proceedsOn_declarationAt (Q := (· = .eof)) (by simp) room

/-! ## Procedures, items and files -/

theorem proceeds_section_ (mode : Mode) (kind : BlockKind) :
    (section_ mode kind).outcome.Proceeds :=
  proceedsOn_section_ (Q := (· = .eof)) (fun _ _ => halts_statements mode _ _ _ _) kind

theorem proceeds_procedure (mode : Mode) : (procedure mode).outcome.Proceeds :=
  proceedsOn_procedure (Q := (· = .eof)) fun _ _ => halts_statements mode _ _ _ _

theorem proceeds_item (mode : Mode) : (item mode).outcome.Proceeds :=
  proceedsOn_item (Q := (· = .eof)) (fun _ _ => halts_statements mode _ _ _ _) (by simp)

theorem turns_fileRound : fileRound.outcome.Turns :=
  turnsOn_fileRound (Q := (· = .eof)) (by simp) fun _ _ => halts_statements .strict _ _ _ _

/-- Reading items comes to the end of the file or to a fault. -/
theorem halts_items (s : Stream) (hs : s.Ends) : (many fileRound.outcome s).Within s :=
  turns_fileRound.halts_many s hs.closed

theorem turns_nextItemRound (depth : Nat) (mayStop : Bool) :
    (nextItemRound depth mayStop).Turns := by
  intro s hs
  unfold nextItemRound
  split
  · exact .refl s
  next he =>
  split
  · exact .refl s
  · exact ⟨s.reaches_advance, hs.size_advance_lt he⟩

/-- Skipping to the next item leaves a rest. -/
theorem nextItemFrom_within (depth : Nat) (mayStop : Bool) (t : Located) (ts : List Located)
    (hs : Stream.Closed ⟨t, ts⟩) : (nextItemFrom depth mayStop t ts).Within ⟨t, ts⟩ := by
  rw [nextItemFrom_run]
  exact (turns_nextItemRound depth mayStop _ hs).again fun s' hr hlt =>
    nextItemFrom_within _ _ s'.here s'.ahead (hr.closed hs)
termination_by ts.length

theorem nextItemFrom_ne_fail : ∀ (depth : Nat) (mayStop : Bool) (t : Located)
    (ts : List Located) (d : Diagnostic) (s : Stream), nextItemFrom depth mayStop t ts ≠ .fail d s
  | _, _, t, [], d, s => by
    unfold nextItemFrom
    split
    · simp
    · split <;> simp
  | _, _, t, t' :: ts, d, s => by
    unfold nextItemFrom
    split
    · simp
    · split
      · simp
      · exact nextItemFrom_ne_fail _ _ t' ts d s

/-- Skipping from a token that is not the end leaves less, even if that token can begin an
item. -/
theorem nextItem_past {s : Stream} (hs : s.Closed) (he : s.token ≠ .eof) : (nextItem s).Past s := by
  have hround : nextItemRound 0 false s = .ok .pass s.advance := by
    simp [nextItemRound, he]
  rw [nextItem, nextItemFrom_run]
  have hw := nextItemFrom_within (braceDepth 0 s.token) (s.token ≠ .keyword .end_) _ _ hs.advance
  simp only [hround, Outcome.again, hs.size_advance_lt he, if_true]
  exact hw.past_of_advance hs he

/-- Skipping after the fault of an item leaves less than the item was given. -/
theorem nextItem_past_of_reaches {start s : Stream} (hs : start.Closed) (he : start.token ≠ .eof)
    (hr : start.Reaches s) : (nextItem s).Past start := by
  by_cases hlt : s.size < start.size
  · exact (nextItemFrom_within _ _ _ _ (hr.closed hs)).past_of_lt hr hlt
  · obtain rfl := hr.eq_of_size_le (Nat.le_of_not_lt hlt)
    exact nextItem_past hs he

/-- A recovering reading ends in a round, or takes a token in it. -/
theorem turns_recoverRound (cap count : Nat) : (recoverRound cap count).Turns := by
  intro s hs
  obtain ⟨us, s₁, hus, hrun, -⟩ := semicolons_ok hs
  have hr₁ : s.Reaches s₁ := ⟨us, hus⟩
  have hs₁ := hr₁.closed hs
  rw [recoverRound, hrun, Outcome.andThen_ok]
  refine Outcome.Turns.of_reaches hr₁ ?_
  split
  · exact .refl s₁
  next hgo =>
  have hp := proceeds_item .recovering s₁ hs₁
  rw [Reporter.outcome] at hp
  rcases hi : item .recovering s₁ with ⟨ds, ⟨a, s₂⟩ | ⟨d, s₂⟩ | _⟩ <;> rw [hi] at hp
  · exact hp
  · simp only
    split
    · exact hp
    · exact ((nextItem_past_of_reaches hs₁ (fun h => hgo (.inl h)) hp).map _).turns
  · exact hp

/-- A round of a recovering reading fails with nothing : faults are found, not failed with. -/
theorem recoverRound_ok (cap count : Nat) {s : Stream} (hs : s.Closed) :
    ∃ t s', recoverRound cap count s = .ok t s' := by
  have ht := turns_recoverRound cap count s hs
  cases hr : recoverRound cap count s with
  | ok t s' => exact ⟨t, s', rfl⟩
  | endless =>
    rw [hr] at ht
    exact ht.elim
  | fail d s' =>
    obtain ⟨us, s₁, -, hrun, -⟩ := semicolons_ok hs
    rw [recoverRound, hrun, Outcome.andThen_ok] at hr
    split at hr
    · cases hr
    split at hr
    · cases hr
    · split at hr
      · cases hr
      · exact (nextItemFrom_ne_fail _ _ _ _ _ _ (Outcome.map_eq_fail.1 hr)).elim
    · cases hr

/-- A recovering reading of a file comes to its end. -/
theorem recoverFrom_isSome (cap count : Nat) {s : Stream} (hs : s.Closed) :
    (recoverFrom cap count s).isSome := by
  induction hn : s.size using Nat.strongRecOn generalizing s count with
  | _ n ih =>
    subst hn
    have hturns := turns_recoverRound cap count s hs
    obtain ⟨t, s', hr⟩ := recoverRound_ok cap count hs
    rw [hr] at hturns
    rw [recoverFrom_run, hr, Outcome.gather.eq_def]
    cases t with
    | stop => rfl
    | pass =>
      obtain ⟨hreach, hlt⟩ := hturns
      simp only [hlt, if_true]
      exact ih _ hlt _ (hreach.closed hs) rfl
    | item f =>
      obtain ⟨hreach, hlt⟩ := hturns
      simp only [hlt, if_true, Option.isSome_map]
      exact ih _ hlt _ (hreach.closed hs) rfl
    | last f => rfl

theorem turns_semicolonRound : semicolonRound.Turns :=
  turnsOn_semicolonRound (Q := (· = .eof)) (by simp)

/-- What comes of a repetition at `s` comes of its round there and, if the round neither ends
the repetition nor fails, of `next` from a place behind `s`. -/
structure Progresses (o : Outcome Unit) (s : Stream) (round : Outcome (Turn Unit))
    (next : Stream → Outcome Unit) : Prop where
  repeats : o = round.again s next
  turns : round.Turns s

end Grammar

/-- What a recovering reading of a row finds, with the reports beyond the cap left out. -/
theorem exists_recoverFile {ts : List Located} (hts : EndsLast ts) (maxErrors : Nat) :
    ∃ f, Grammar.recoverFrom (max 1 maxErrors) 0 (.ofTokens ts) = some f ∧
      recoverFile maxErrors ts = some ⟨⟨f.items⟩, f.reports.take (max 1 maxErrors)⟩ := by
  obtain ⟨f, hf⟩ := Option.isSome_iff_exists.1
    (Grammar.recoverFrom_isSome (max 1 maxErrors) 0 (Stream.closed_ofTokens hts))
  exact ⟨f, hf, by rw [recoverFile, hf]; rfl⟩

open Grammar in
/-- A recovering reading of a row whose last token is an end of text comes to its end, since
each of its loops ends or takes a token in every round, at every place it can come to : passing
over semicolons, the statements of a block, skipping behind the fault of a statement or of an
item, and the items of the file. The skipping takes a token even where the fault is in the
first token it stands at. -/
theorem recoverFile_progresses {ts : List Located} (hts : EndsLast ts) (maxErrors : Nat) :
    (∃ r, recoverFile maxErrors ts = some r) ∧
      ∀ s, (Stream.ofTokens ts).Reaches s →
        Progresses (Reader.semicolons s) s (semicolonRound s) Reader.semicolons ∧
        (∀ room kind line stopAtBranch,
          let turn := round .recovering kind line stopAtBranch
            (statement (expression room) (statements .recovering room))
          statements .recovering (room + 1) kind line stopAtBranch = Reporter.many turn ∧
            (turn.outcome s).Turns s) ∧
        (∀ line stopAtBranch moved,
          Progresses (resumeFrom line stopAtBranch moved s.here s.ahead) s
            (resumeRound line stopAtBranch moved s)
            fun s' => resumeFrom line stopAtBranch true s'.here s'.ahead) ∧
        (∀ depth mayStop,
          Progresses (nextItemFrom depth mayStop s.here s.ahead) s (nextItemRound depth mayStop s)
            fun s' =>
              nextItemFrom (braceDepth depth s.token) (s.token ≠ .keyword .end_) s'.here s'.ahead) ∧
        (∀ cap count,
          (recoverFrom cap count s = (recoverRound cap count s).gather s fun f s' =>
            recoverFrom cap (count + f.reports.length) s') ∧
            (recoverRound cap count s).Turns s) ∧
        (s.token ≠ .eof → (nextItem s).Past s ∧
          ∀ line stopAtBranch, endsRun stopAtBranch s.token = false →
            (resume s line stopAtBranch s).Past s) := by
  have hclosed := Stream.closed_ofTokens hts
  refine ⟨?ends, fun s hr => ?rounds⟩
  case ends =>
    obtain ⟨f, -, hread⟩ := exists_recoverFile hts maxErrors
    exact ⟨_, hread⟩
  case rounds =>
    have hs := hr.closed hclosed
    refine ⟨⟨semicolons_eq_again, turns_semicolonRound s hs⟩, ?block, ?resume, ?nextItem, ?items,
      fun he => ⟨nextItem_past hs he, fun line stopAtBranch hend =>
        resume_past line hs (.refl s) he hend⟩⟩
    case block =>
      intro room kind line stopAtBranch
      exact ⟨rfl, turns_round _ _ _ _ (proceeds_statement (proceeds_expression room)
        (halts_statements .recovering room)) s hs⟩
    case resume =>
      exact fun line stopAtBranch moved =>
        ⟨resumeFrom_run .., turns_resumeRound line stopAtBranch moved s hs⟩
    case nextItem =>
      exact fun depth mayStop => ⟨nextItemFrom_run .., turns_nextItemRound depth mayStop s hs⟩
    case items =>
      exact fun cap count => ⟨recoverFrom_run cap count, turns_recoverRound cap count s hs⟩

/-- The row has an end of text in the middle, and the fault is in a keyword that can begin an
item. -/
theorem recoverFile_progresses_inner_end :
    let ts : List Located :=
      [.keyword .type, .eof, .symbol .semicolon, .eof].zipIdx.map
        fun (t, i) => ⟨t, ⟨i, i + 1, 1, i + 1⟩⟩
    EndsLast ts ∧ (∃ r, recoverFile 0 ts = some r) ∧
      (Grammar.nextItem (.ofTokens ts)).Past (.ofTokens ts) := by
  have hts : EndsLast ([.keyword .type, .eof, .symbol .semicolon, .eof].zipIdx.map
      fun (t, i) => (⟨t, ⟨i, i + 1, 1, i + 1⟩⟩ : Located)) :=
    ⟨_, rfl, rfl⟩
  obtain ⟨hends, hrounds⟩ := recoverFile_progresses hts 0
  obtain ⟨-, -, -, -, -, hskip⟩ := hrounds _ (.refl _)
  exact ⟨hts, hends, (hskip (by decide)).1⟩

end OpsLang
