import OpsLang.Proofs.Productions

/-!
# What a reader leaves

A reader leaves a rest of the stream it was given (`Stream.Reaches`), unless it repeats something
for ever. What it was given matters for that in one way only : at the last token of a stream a
reader stays where it is, whatever it takes. So `Reader.HaltsOn Q` says that the reader leaves a
rest of every stream whose last token is one of `Q`, and `Reader.ProceedsOn Q` that it also takes a
token if it succeeds. Both pass through sequencing, and a repetition halts if each of its rounds
either is the last or leaves less than it was given (`Reader.TurnsOn.haltsOn_many`).
-/

namespace OpsLang

/-! ## Rests of a stream -/

namespace Stream

/-- The stream `s'` is what some tokens leave of `s`. -/
def Reaches (s s' : Stream) : Prop :=
  ∃ us, s = s'.behind us

variable {s s' s'' : Stream}

theorem Reaches.refl (s : Stream) : s.Reaches s :=
  ⟨[], rfl⟩

theorem Reaches.trans (h : s.Reaches s') (h' : s'.Reaches s'') : s.Reaches s'' := by
  obtain ⟨us, rfl⟩ := h
  obtain ⟨vs, rfl⟩ := h'
  exact ⟨us ++ vs, behind_append.symm⟩

theorem reaches_advance (s : Stream) : s.Reaches s.advance := by
  obtain ⟨t, ts⟩ := s
  cases ts with
  | nil => exact .refl _
  | cons t' ts => exact ⟨[t], rfl⟩

theorem Reaches.size_le (h : s.Reaches s') : s'.size ≤ s.size := by
  obtain ⟨us, rfl⟩ := h
  rw [size_behind]
  exact Nat.le_add_left _ _

theorem Reaches.closed (h : s.Reaches s') (hs : s.Closed) : s'.Closed := by
  obtain ⟨us, rfl⟩ := h
  exact hs.of_behind

theorem Reaches.lastIs {Q : Token → Prop} (h : s.Reaches s') (hs : s.LastIs Q) : s'.LastIs Q := by
  obtain ⟨us, rfl⟩ := h
  exact hs.of_behind

theorem Reaches.ends (h : s.Reaches s') (hs : s.Ends) : s'.Ends := by
  obtain ⟨us, rfl⟩ := h
  exact hs.of_behind

/-- What is less is left by some tokens. -/
theorem Reaches.eq_behind_cons (h : s.Reaches s') (hlt : s'.size < s.size) :
    ∃ u us, s = s'.behind (u :: us) := by
  obtain ⟨_ | ⟨u, us⟩, rfl⟩ := h
  · exact absurd hlt (Nat.lt_irrefl _)
  · exact ⟨u, us, rfl⟩

theorem Reaches.eq_of_size_le (h : s.Reaches s') (hle : s.size ≤ s'.size) : s = s' := by
  obtain ⟨us, rfl⟩ := h
  rw [size_behind] at hle
  obtain rfl : us = [] := List.eq_nil_of_length_eq_zero (by omega)
  rfl

theorem Reaches.antisymm (h : s.Reaches s') (h' : s'.Reaches s) : s = s' :=
  h.eq_of_size_le h'.size_le

/-- A place is not reached from the one behind it, unless they are the same. -/
theorem advance_of_reaches (h : s.advance.Reaches s) : s.advance = s :=
  h.antisymm s.reaches_advance

theorem ahead_of_advance (h : s.advance = s) : s.ahead = [] := by
  have hsize := congrArg size h
  rw [size_advance] at hsize
  exact List.eq_nil_of_length_eq_zero (by unfold size at hsize; omega)

end Stream

/-! ## Outcomes that leave a rest -/

namespace Outcome

/-- The outcome leaves a rest of `s`. -/
def Within {α : Type} (s : Stream) : Outcome α → Prop
  | ok _ s' | fail _ s' => s.Reaches s'
  | endless => False

/-- The outcome leaves a rest of `s`, and less than `s` if it is a value. -/
def Past {α : Type} (s : Stream) : Outcome α → Prop
  | ok _ s' => s.Reaches s' ∧ s'.size < s.size
  | fail _ s' => s.Reaches s'
  | endless => False

/-- The outcome of a round leaves a rest of `s`, and less than `s` if there is another
round. -/
def Turns {α : Type} (s : Stream) : Outcome (Turn α) → Prop
  | ok .pass s' | ok (.item _) s' => s.Reaches s' ∧ s'.size < s.size
  | ok .stop s' | ok (.last _) s' | fail _ s' => s.Reaches s'
  | endless => False

variable {α β : Type} {s s' : Stream} {o : Outcome α} {f : α → Stream → Outcome β}

theorem Past.within (h : o.Past s) : o.Within s := by
  cases o with
  | ok a s' => exact h.1
  | fail d s' => exact h
  | endless => exact h

theorem Within.of_reaches (hs : s.Reaches s') (h : o.Within s') : o.Within s := by
  cases o with
  | ok a s'' => exact hs.trans h
  | fail d s'' => exact hs.trans h
  | endless => exact h

theorem Within.past_of_lt (hs : s.Reaches s') (hlt : s'.size < s.size) (h : o.Within s') :
    o.Past s := by
  cases o with
  | ok a s'' => exact ⟨hs.trans h, Nat.lt_of_le_of_lt (Stream.Reaches.size_le h) hlt⟩
  | fail d s'' => exact hs.trans h
  | endless => exact h

theorem Past.of_reaches (hs : s.Reaches s') (h : o.Past s') : o.Past s := by
  cases o with
  | ok a s'' => exact ⟨hs.trans h.1, Nat.lt_of_lt_of_le h.2 hs.size_le⟩
  | fail d s'' => exact hs.trans h
  | endless => exact h

theorem Within.andThen (h : o.Within s) (hf : ∀ a s', s.Reaches s' → (f a s').Within s') :
    (o.andThen f).Within s := by
  cases o with
  | ok a s' => exact (hf a s' h).of_reaches h
  | fail d s' => exact h
  | endless => exact h

theorem Past.andThen (h : o.Past s) (hf : ∀ a s', s.Reaches s' → (f a s').Within s') :
    (o.andThen f).Past s := by
  cases o with
  | ok a s' => exact (hf a s' h.1).past_of_lt h.1 h.2
  | fail d s' => exact h
  | endless => exact h

theorem Within.andThen_past (h : o.Within s) (hf : ∀ a s', s.Reaches s' → (f a s').Past s') :
    (o.andThen f).Past s := by
  cases o with
  | ok a s' => exact (hf a s' h).of_reaches h
  | fail d s' => exact h
  | endless => exact h

theorem Within.map (g : α → β) (h : o.Within s) : (o.map g).Within s :=
  h.andThen fun _ s' _ => Stream.Reaches.refl s'

theorem Past.map (g : α → β) (h : o.Past s) : (o.map g).Past s :=
  h.andThen fun _ s' _ => Stream.Reaches.refl s'

theorem Past.turns {o : Outcome (Turn α)} (h : o.Past s) : o.Turns s := by
  cases o with
  | ok t s' => cases t <;> first | exact h | exact h.1
  | fail d s' => exact h
  | endless => exact h

/-- An outcome that leaves a rest leaves less, if it is no value that leaves everything. -/
theorem Within.past (h : o.Within s) (hstay : ∀ a, o ≠ .ok a s) : o.Past s := by
  cases o with
  | ok a s' =>
    refine ⟨h, Nat.lt_of_not_le fun hle => hstay a ?_⟩
    rw [Stream.Reaches.eq_of_size_le h hle]
  | fail d s' => exact h
  | endless => exact h

/-- What takes two different tokens if it succeeds takes at least one, also where the row ends. -/
theorem Within.past_of_token (h : o.Within s.advance)
    (hne : ∀ a s', o = .ok a s' → s.advance.token ≠ s.token) : o.Past s := by
  refine (h.of_reaches s.reaches_advance).past fun a ha => hne a s ha ?_
  rw [ha] at h
  rw [Stream.advance_of_reaches h]

/-- A repetition leaves a rest, if what follows each of its rounds does. -/
theorem Turns.again {o : Outcome (Turn Unit)} {next : Stream → Outcome Unit} (h : o.Turns s)
    (hn : ∀ s', s.Reaches s' → s'.size < s.size → (next s').Within s') :
    (o.again s next).Within s := by
  have hmore : ∀ s', s.Reaches s' ∧ s'.size < s.size →
      (if s'.size < s.size then next s' else .endless).Within s := by
    rintro s' ⟨hr, hlt⟩
    rw [if_pos hlt]
    exact (hn s' hr hlt).of_reaches hr
  cases o with
  | ok t s' =>
    cases t with
    | stop => exact h
    | pass => exact hmore s' h
    | item a => exact hmore s' h
    | last a => exact h
  | fail d s' => exact h
  | endless => exact h

theorem Turns.of_reaches {o : Outcome (Turn α)} (hs : s.Reaches s') (h : o.Turns s') :
    o.Turns s := by
  cases o with
  | ok t s'' =>
    cases t <;> first
      | exact Stream.Reaches.trans hs h
      | exact ⟨hs.trans h.1, Nat.lt_of_lt_of_le h.2 hs.size_le⟩
  | fail d s'' => exact hs.trans h
  | endless => exact h

end Outcome

/-! ## Readers that halt -/

namespace Reader

variable {α β : Type} {Q : Token → Prop}

/-- On a stream whose last token is one of `Q` the reader leaves a rest. -/
def HaltsOn (Q : Token → Prop) (r : Reader α) : Prop :=
  ∀ s : Stream, s.LastIs Q → (r s).Within s

/-- On a stream whose last token is one of `Q` the reader leaves a rest, and takes a token if it
succeeds. -/
def ProceedsOn (Q : Token → Prop) (r : Reader α) : Prop :=
  ∀ s : Stream, s.LastIs Q → (r s).Past s

/-- On a stream whose last token is one of `Q` the round leaves a rest, and takes a token if
another round follows. -/
def TurnsOn (Q : Token → Prop) (r : Reader (Turn α)) : Prop :=
  ∀ s : Stream, s.LastIs Q → (r s).Turns s

theorem ProceedsOn.haltsOn {r : Reader α} (h : r.ProceedsOn Q) : r.HaltsOn Q :=
  fun s hs => (h s hs).within

theorem ProceedsOn.turnsOn {r : Reader (Turn α)} (h : r.ProceedsOn Q) : r.TurnsOn Q :=
  fun s hs => (h s hs).turns

theorem HaltsOn.reaches {r : Reader α} {s s' : Stream} {a : α} (h : r.HaltsOn Q)
    (hs : s.LastIs Q) (hr : r s = .ok a s') : s.Reaches s' := by
  have hw := h s hs
  rwa [hr] at hw

theorem HaltsOn.bind {r : Reader α} {f : α → Reader β} (h : r.HaltsOn Q)
    (hf : ∀ a, (f a).HaltsOn Q) : (r >>= f).HaltsOn Q :=
  fun s hs => (h s hs).andThen fun a s' hs' => hf a s' (hs'.lastIs hs)

theorem ProceedsOn.bind {r : Reader α} {f : α → Reader β} (h : r.ProceedsOn Q)
    (hf : ∀ a, (f a).HaltsOn Q) : (r >>= f).ProceedsOn Q :=
  fun s hs => (h s hs).andThen fun a s' hs' => hf a s' (hs'.lastIs hs)

theorem HaltsOn.bind_proceedsOn {r : Reader α} {f : α → Reader β} (h : r.HaltsOn Q)
    (hf : ∀ a, (f a).ProceedsOn Q) : (r >>= f).ProceedsOn Q :=
  fun s hs => (h s hs).andThen_past fun a s' hs' => hf a s' (hs'.lastIs hs)

theorem HaltsOn.bind_turnsOn {r : Reader α} {f : α → Reader (Turn β)} (h : r.HaltsOn Q)
    (hf : ∀ a, (f a).TurnsOn Q) : (r >>= f).TurnsOn Q := by
  intro s hs
  have hr := h s hs
  show ((r s).andThen fun a s' => f a s').Turns s
  cases hrs : r s with
  | ok a s' =>
    rw [hrs] at hr
    exact (hf a s' (Stream.Reaches.lastIs hr hs)).of_reaches hr
  | fail d s' =>
    rw [hrs] at hr
    exact hr
  | endless =>
    rw [hrs] at hr
    exact hr

theorem HaltsOn.ite {c : Prop} [Decidable c] {r r' : Reader α} (h : r.HaltsOn Q)
    (h' : r'.HaltsOn Q) : (if c then r else r').HaltsOn Q := by
  split
  · exact h
  · exact h'

theorem ProceedsOn.ite {c : Prop} [Decidable c] {r r' : Reader α} (h : r.ProceedsOn Q)
    (h' : r'.ProceedsOn Q) : (if c then r else r').ProceedsOn Q := by
  split
  · exact h
  · exact h'

theorem TurnsOn.ite {c : Prop} [Decidable c] {r r' : Reader (Turn α)} (h : r.TurnsOn Q)
    (h' : r'.TurnsOn Q) : (if c then r else r').TurnsOn Q := by
  split
  · exact h
  · exact h'

/-- A repetition halts if each of its rounds is the last or takes a token. -/
theorem TurnsOn.haltsOn_many {round : Reader (Turn α)} (h : round.TurnsOn Q) :
    HaltsOn Q (many round) := by
  intro s
  induction hn : s.size using Nat.strongRecOn generalizing s with
  | _ n ih =>
    subst hn
    intro hs
    have hr := h s hs
    rw [many]
    rcases hrs : round s with ⟨_ | _ | a | a, s'⟩ | ⟨d, s'⟩ | _
    · rw [hrs] at hr
      exact hr
    · rw [hrs] at hr
      have hrest := ih _ hr.2 s' rfl (hr.1.lastIs hs)
      simpa only [hr.2, if_true] using hrest.of_reaches hr.1
    · rw [hrs] at hr
      have hrest := ih _ hr.2 s' rfl (hr.1.lastIs hs)
      simp only [hr.2, if_true]
      exact Outcome.Within.andThen (hrest.of_reaches hr.1) fun as s'' _ => .refl s''
    · rw [hrs] at hr
      exact hr
    · rw [hrs] at hr
      exact hr
    · rw [hrs] at hr
      exact hr

/-! ### Small readers -/

theorem haltsOn_pure (a : α) : (pure a : Reader α).HaltsOn Q :=
  fun s _ => .refl s

theorem haltsOn_here : here.HaltsOn Q :=
  fun s _ => .refl s

theorem haltsOn_peek : peek.HaltsOn Q :=
  fun s _ => .refl s

theorem haltsOn_skip : skip.HaltsOn Q :=
  fun s _ => s.reaches_advance

theorem proceedsOn_failAt (d : Stream → Diagnostic) : (failAt d : Reader α).ProceedsOn Q :=
  fun s _ => .refl s

theorem turnsOn_stop : (pure .stop : Reader (Turn α)).TurnsOn Q :=
  fun s _ => Stream.Reaches.refl s

theorem haltsOn_eat (t : Token) : (eat t).HaltsOn Q := by
  intro s _
  rw [eat_run]
  split
  · exact s.reaches_advance
  · exact .refl s

theorem haltsOn_keyword (k : Keyword) : (keyword k).HaltsOn Q := by
  intro s _
  rw [keyword_run]
  split
  · exact s.reaches_advance
  · exact .refl s

theorem haltsOn_symbol (y : Symbol) : (symbol y).HaltsOn Q := by
  intro s _
  rw [symbol_run]
  split
  · exact s.reaches_advance
  · exact .refl s

theorem haltsOn_name (what : String) : (name what).HaltsOn Q := by
  intro s _
  rw [name_run]
  split
  · exact s.reaches_advance
  · exact .refl s

theorem haltsOn_member (what : String) : (member what).HaltsOn Q := by
  intro s _
  rw [member_run]
  split
  · exact s.reaches_advance
  · split
    · exact s.reaches_advance
    · exact .refl s
  · exact .refl s

/-- A name is taken if it cannot be the last token. -/
theorem proceedsOn_name (hn : ∀ n, ¬Q (.name n)) (what : String) : (name what).ProceedsOn Q := by
  intro s hs
  rw [name_run]
  split
  · next n h => exact ⟨s.reaches_advance, hs.size_advance_lt (h ▸ hn n)⟩
  · exact .refl s

end Reader

namespace Grammar

open Reader

variable {Q : Token → Prop}

/-- Semicolons are passed over, if none can be the last token. -/
theorem turnsOn_semicolonRound (hsemi : ¬Q (.symbol .semicolon)) : semicolonRound.TurnsOn Q := by
  intro s hs
  rw [semicolonRound_run]
  split
  · next h => exact ⟨s.reaches_advance, hs.size_advance_lt (h ▸ hsemi)⟩
  · exact .refl s

theorem haltsOn_semicolons (hsemi : ¬Q (.symbol .semicolon)) : semicolons.HaltsOn Q :=
  (turnsOn_semicolonRound hsemi).haltsOn_many.bind fun _ => haltsOn_pure _

end Grammar

end OpsLang
