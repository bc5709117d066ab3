import OpsLang.Proofs.Resumption.Braces

/-!
# The rounds of a recovering reading

`stages` tells what a recovering reading of a file does round by round : where an item begins,
where its reading came to, and where the reading of the file goes on. What the reading finds is
what its rounds find (`recoverFrom_eq_stages`). A round is known by what was read in it
(`Stage.Read`), and the rounds behind it are those of the rest (`stages_eq_cons`).
-/

namespace OpsLang

namespace Stream

variable {s s' s'' : Stream}

/-- The tokens from `s` on up to the place `s'` behind it. -/
def upTo (s s' : Stream) : List Located :=
  s.row.take (s.size - s'.size)

@[simp]
theorem upTo_behind (us : List Located) : (s.behind us).upTo s = us := by
  rw [upTo, row_behind, size_behind, Nat.add_sub_cancel]
  exact List.take_left

@[simp]
theorem upTo_self : s.upTo s = [] :=
  upTo_behind []

/-- Nothing is behind the end. -/
theorem Reaches.eq_of_eof (h : s.Reaches s') (hs : s.Ends) (he : s.token = .eof) : s = s' := by
  have hahead : s.ahead = [] := (List.cons.inj (hs.row_of_eof he)).2
  exact h.eq_of_size_le (by simp [size, hahead])

end Stream

namespace Grammar

open Reader

/-- A round of a recovering reading of a file that comes to an item. -/
structure Stage where
  /-- Where the round begins, with the semicolons in front of the item. -/
  origin : Stream
  /-- Where the item begins. -/
  start : Stream
  /-- Where the reading of the item came to. -/
  stop : Stream
  /-- Where the next round begins. -/
  next : Stream
  /-- The faults of the statements that were dropped from the item. -/
  reports : List Diagnostic
  /-- The item, or the fault it was dropped for. -/
  result : Except Diagnostic Item

/-- The rounds of the reading that `recoverFrom` is. -/
def stages (cap count : Nat) (s : Stream) : List Stage :=
  match semicolons s with
  | .ok () s₁ =>
    if s₁.token = .eof ∨ cap ≤ count then []
    else
      match item .recovering s₁ with
      | (ds, .ok a s₂) =>
        ⟨s, s₁, s₂, s₂, ds, .ok a⟩ ::
          if s₂.size < s.size then stages cap (count + ds.length) s₂ else []
      | (ds, .fail d s₂) =>
        if d.isFatal then [⟨s, s₁, s₂, s₂, ds, .error d⟩]
        else
          match nextItem s₂ with
          | .ok () s₃ =>
            ⟨s, s₁, s₂, s₃, ds, .error d⟩ ::
              if s₃.size < s.size then stages cap (count + ds.length + 1) s₃ else []
          | _ => []
      | (_, .endless) => []
  | _ => []
termination_by s.size

namespace Stage

variable {g : Stage}

/-- The item, if it was kept. -/
def item? (g : Stage) : Option Item :=
  g.result.toOption

/-- The fault that the item was dropped for. -/
def fault? (g : Stage) : Option Diagnostic :=
  match g.result with
  | .ok _ => none
  | .error d => some d

/-- All faults that were found in the round. -/
def found (g : Stage) : List Diagnostic :=
  g.reports ++ g.fault?.toList

/-- What came of reading the item. -/
def outcome (g : Stage) : Outcome Item :=
  match g.result with
  | .ok a => .ok a g.stop
  | .error d => .fail d g.stop

/-- The tokens that were skipped behind a fault. -/
def skipped (g : Stage) : List Located :=
  g.stop.upTo g.next

/-- What was read in the round. -/
structure Read (g : Stage) : Prop where
  semicolons : semicolons g.origin = .ok () g.start
  token : g.start.token ≠ .eof
  item : item .recovering g.start = (g.reports, g.outcome)
  kept : g.fault? = none → g.next = g.stop
  dropped : ∀ d ∈ g.fault?, d.isFatal = false → nextItem g.stop = .ok () g.next

end Stage

/-- The first round begins where the reading does. There are others if its fault was not
fatal, and they are those of the reading of the rest. -/
theorem stages_eq_cons {cap count : Nat} {s : Stream} {g : Stage} {gs : List Stage}
    (h : stages cap count s = g :: gs) :
    g.origin = s ∧ g.Read ∧ (gs = [] ∨ (∀ d ∈ g.fault?, d.isFatal = false) ∧
      ∃ n, gs = stages cap n g.next) := by
  have hrest : ∀ {c : Prop} [Decidable c] {us : List Stage},
      (if c then us else []) = [] ∨ (if c then us else []) = us := by
    intro c _ us
    split
    · exact .inr rfl
    · exact .inl rfl
  rw [stages] at h
  split at h
  · next s₁ hsemi =>
    split at h
    · cases h
    next hgo =>
    have htoken : s₁.token ≠ .eof := fun he => hgo (.inl he)
    split at h
    · next ds a s₂ hi =>
      obtain ⟨rfl, rfl⟩ := List.cons.inj h
      exact ⟨rfl, ⟨hsemi, htoken, hi, fun _ => rfl, nofun⟩, hrest.imp id fun h => ⟨nofun, _, h⟩⟩
    · next ds d s₂ hi =>
      split at h
      · next hfatal =>
        obtain ⟨rfl, rfl⟩ := List.cons.inj h
        refine ⟨rfl, ⟨hsemi, htoken, hi, nofun, fun e he hne => ?_⟩, .inl rfl⟩
        obtain rfl := Option.some.inj he
        rw [hfatal] at hne
        cases hne
      · next hfatal =>
        split at h
        · next s₃ hnext =>
          obtain ⟨rfl, rfl⟩ := List.cons.inj h
          refine ⟨rfl, ⟨hsemi, htoken, hi, nofun, fun _ _ _ => hnext⟩,
            hrest.imp id fun h => ⟨fun e he => ?_, _, h⟩⟩
          obtain rfl := Option.some.inj he
          exact Bool.eq_false_iff.2 hfatal
        · cases h
    · cases h
  · cases h

/-- What a recovering reading finds is what its rounds find. -/
theorem recoverFrom_eq_stages {cap count : Nat} {s : Stream} {f : Findings}
    (hf : recoverFrom cap count s = some f) :
    f = ⟨(stages cap count s).filterMap Stage.item?, (stages cap count s).flatMap Stage.found⟩ := by
  induction hn : s.size using Nat.strongRecOn generalizing s count f with
  | _ n ih =>
    subst hn
    rw [recoverFrom] at hf
    rw [stages]
    cases hsemi : semicolons s with
    | fail d s₁ => rw [hsemi] at hf; cases hf
    | endless => rw [hsemi] at hf; cases hf
    | ok u s₁ =>
    rw [hsemi] at hf
    simp only at hf ⊢
    by_cases hgo : s₁.token = .eof ∨ cap ≤ count
    · rw [if_pos hgo] at hf ⊢
      obtain rfl := Option.some.inj hf
      rfl
    rw [if_neg hgo] at hf ⊢
    rcases hi : item .recovering s₁ with ⟨ds, ⟨a, s₂⟩ | ⟨d, s₂⟩ | _⟩
    case ok =>
      rw [hi] at hf
      simp only at hf ⊢
      by_cases hlt : s₂.size < s.size
      · rw [if_pos hlt] at hf
        obtain ⟨f', hf', rfl⟩ := Option.map_eq_some_iff.1 hf
        rw [ih _ hlt hf' rfl]
        simp [Findings.prepend, Stage.item?, Stage.found, Stage.fault?, Except.toOption, hlt]
      · rw [if_neg hlt] at hf
        cases hf
    case fail =>
      rw [hi] at hf
      simp only at hf ⊢
      by_cases hfatal : d.isFatal = true
      · rw [if_pos hfatal] at hf
        obtain rfl := Option.some.inj hf
        simp [hfatal, Stage.item?, Stage.found, Stage.fault?, Except.toOption]
      rw [if_neg hfatal] at hf
      cases hnext : nextItem s₂ with
      | ok u s₃ =>
        rw [hnext] at hf
        simp only at hf
        by_cases hlt : s₃.size < s.size
        · rw [if_pos hlt] at hf
          obtain ⟨f', hf', rfl⟩ := Option.map_eq_some_iff.1 hf
          rw [ih _ hlt hf' rfl]
          simp [hfatal, Findings.prepend, Stage.item?, Stage.found, Stage.fault?, Except.toOption,
            hlt, List.filterMap_cons]
        · rw [if_neg hlt] at hf
          cases hf
      | fail e s₃ => rw [hnext] at hf; cases hf
      | endless => rw [hnext] at hf; cases hf
    case endless => rw [hi] at hf; cases hf

namespace Stage

variable {g : Stage}

theorem Read.reaches_start (h : g.Read) (hs : g.origin.Closed) : g.origin.Reaches g.start := by
  obtain ⟨us, hus, -⟩ := semicolons_eq_ok hs h.semicolons
  exact ⟨us, hus⟩

theorem Read.reaches_stop (h : g.Read) (hs : g.start.Closed) : g.start.Reaches g.stop := by
  have hp := proceeds_item .recovering g.start hs
  rw [Reporter.outcome, h.item, outcome] at hp
  cases hr : g.result with
  | ok a =>
    rw [hr] at hp
    exact hp.1
  | error d =>
    rw [hr] at hp
    exact hp

end Stage

end Grammar

end OpsLang
