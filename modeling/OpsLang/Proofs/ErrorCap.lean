import OpsLang.Proofs.Termination

/-!
# The cap of a recovering reading

A recovering reading of a file stops between two items once as many diagnostics are there as
it was asked for, and the diagnostics that one item has beyond these are dropped at the end.
Inside an item the cap is not looked at. So a reading with a smaller cap does what a reading
with a larger one does, up to the place where it stops : `recoverFrom_cap`, by induction on the
rounds, from `recoverRound_cap` for one round.

`recoverFile_cap` says what this comes to : the cap cuts off diagnostics and items and changes
none.
-/

namespace OpsLang

namespace Grammar

variable {n m count : Nat} {s : Stream}

/-- What the findings `f` hold is what the findings `g` begin with. -/
structure Findings.Begin (f g : Findings) : Prop where
  items : f.items <+: g.items
  reports : f.reports <+: g.reports

theorem Findings.Begin.rfl {f : Findings} : f.Begin f :=
  ⟨List.prefix_rfl, List.prefix_rfl⟩

theorem Findings.Begin.nil {f : Findings} : Findings.Begin ⟨[], []⟩ f :=
  ⟨List.nil_prefix, List.nil_prefix⟩

theorem Findings.Begin.prepend {f g : Findings} (h : f.Begin g) (is : List Item)
    (ds : List Diagnostic) : (f.prepend is ds).Begin (g.prepend is ds) :=
  ⟨(List.prefix_append_right_inj is).2 h.items, (List.prefix_append_right_inj ds).2 h.reports⟩

/-- A round does the same with a smaller cap, unless the diagnostics are enough for that cap
already. Then it ends the reading. -/
theorem recoverRound_cap (hnm : n ≤ m) (count : Nat) (s : Stream) :
    recoverRound n count s = recoverRound m count s ∨
      n ≤ count ∧ ∃ s', recoverRound n count s = .ok .stop s' := by
  unfold recoverRound
  cases Reader.semicolons s with
  | fail d s₁ => exact .inl rfl
  | endless => exact .inl rfl
  | ok u s₁ =>
    simp only [Outcome.andThen_ok]
    by_cases hn : n ≤ count
    · exact .inr ⟨hn, s₁, if_pos (.inr hn)⟩
    · have hm : ¬m ≤ count := fun hm => hn (Nat.le_trans hnm hm)
      exact .inl (by simp only [hn, hm])

/-- A reading with a smaller cap finds what a reading with a larger one begins with. If it
finds less, the diagnostics it found are enough for its cap. -/
theorem recoverFrom_cap (hnm : n ≤ m) {f g : Findings} (hf : recoverFrom n count s = some f)
    (hg : recoverFrom m count s = some g) :
    f.Begin g ∧ (f = g ∨ n ≤ count + f.reports.length) := by
  induction hk : s.size using Nat.strongRecOn generalizing s count f g with
  | _ k ih =>
    subst hk
    rw [recoverFrom_run] at hf hg
    obtain hround | ⟨hn, s', hround⟩ := recoverRound_cap hnm count s
    · rw [hround] at hf
      generalize recoverRound m count s = o at hf hg
      rcases o with ⟨_ | _ | found | found, s'⟩ | ⟨d, s'⟩ | _
      · cases hf
        cases hg
        exact ⟨.rfl, .inl rfl⟩
      · simp only [Outcome.gather] at hf hg
        split at hf
        · next hlt =>
          rw [if_pos hlt] at hg
          exact ih _ hlt hf hg rfl
        · cases hf
      · simp only [Outcome.gather] at hf hg
        split at hf
        · next hlt =>
          rw [if_pos hlt] at hg
          obtain ⟨f', hf', rfl⟩ := Option.map_eq_some_iff.1 hf
          obtain ⟨g', hg', rfl⟩ := Option.map_eq_some_iff.1 hg
          obtain ⟨hbegin, hless⟩ := ih _ hlt hf' hg' rfl
          refine ⟨hbegin.prepend found.items found.reports, hless.imp (fun h => by rw [h]) ?_⟩
          intro h
          rw [Findings.prepend, List.length_append, ← Nat.add_assoc]
          exact h
        · cases hf
      · cases hf
        cases hg
        exact ⟨.rfl, .inl rfl⟩
      · cases hf
      · cases hf
    · rw [hround] at hf
      cases hf
      exact ⟨.nil, .inr (Nat.le_trans hn (Nat.le_add_right _ _))⟩

end Grammar

open Grammar

/-- The cap only cuts off : the diagnostics of a reading with the cap `n` are the first `n` of
those with a larger cap, and its items are the first of those. The cap zero counts as one. -/
theorem recoverFile_cap {ts : List Located} (hts : EndsOnce ts) :
    (∀ n m, 1 ≤ n → n ≤ m → ∃ r r', recoverFile n ts = some r ∧ recoverFile m ts = some r' ∧
      r.diagnostics = r'.diagnostics.take n ∧ r.file.items <+: r'.file.items) ∧
      recoverFile 0 ts = recoverFile 1 ts := by
  refine ⟨fun n m hn hnm => ?_, rfl⟩
  obtain ⟨f, hf, hread⟩ := exists_recoverFile hts.endsLast n
  obtain ⟨g, hg, hread'⟩ := exists_recoverFile hts.endsLast m
  rw [Nat.max_eq_right hn] at hf hread
  rw [Nat.max_eq_right (Nat.le_trans hn hnm)] at hg hread'
  obtain ⟨hbegin, hless⟩ := recoverFrom_cap hnm hf hg
  refine ⟨_, _, hread, hread', ?reports, hbegin.items⟩
  case reports =>
    rw [List.take_take, Nat.min_eq_left hnm]
    obtain rfl | hfull := hless
    · rfl
    · rw [Nat.zero_add] at hfull
      obtain ⟨rest, hrest⟩ := hbegin.reports
      rw [← hrest, List.take_append_of_le_length hfull]

/-- The row has three items with a fault each. -/
theorem recoverFile_cap_three_faults :
    let ts : List Located :=
      [.keyword .type, .keyword .namespace_, .keyword .type, .eof].zipIdx.map
        fun (t, i) => ⟨t, ⟨i, i + 1, 1, i + 1⟩⟩
    EndsOnce ts ∧ ∃ r r', recoverFile 2 ts = some r ∧ recoverFile 5 ts = some r' ∧
      r.diagnostics = r'.diagnostics.take 2 ∧ r.file.items <+: r'.file.items := by
  have hts : EndsOnce ([.keyword .type, .keyword .namespace_, .keyword .type, .eof].zipIdx.map
      fun (t, i) => (⟨t, ⟨i, i + 1, 1, i + 1⟩⟩ : Located)) := by
    simp [EndsOnce]
  exact ⟨hts, (recoverFile_cap hts).1 2 5 (by decide) (by decide)⟩

end OpsLang
