import OpsLang.Proofs.Halting.Expr

/-!
# Rows that repeat their last token

At the last token of a stream a reader stays where it is, so it meets that token as often as it
asks for one. What it does is therefore what it would do if the token stood there again and again
(`Stream.more`), as far as it asks. `Repeats t r` says so of a reader on the streams that end in
`t` : an outcome that it comes to is the outcome on a stream with enough of the last token behind
it, whatever follows, and if it comes to none, it comes to none with any number of that token.

The second part is what a repetition adds. A round that stays at the last token takes at least one
of several, or none of them as well, and in both cases the rounds never end
(`Repeats.many`).
-/

namespace OpsLang

/-! ## More of the last token -/

namespace Stream

/-- The last token of the stream is `t`. -/
def EndsWith (t : Located) (s : Stream) : Prop :=
  s.row.getLast? = some t

/-- The stream with `k` times the token `t` behind it, and `rest` behind these. -/
def more (t : Located) (k : Nat) (rest : List Located) (s : Stream) : Stream :=
  ⟨s.here, s.ahead ++ (List.replicate k t ++ rest)⟩

variable {s s' : Stream} {t u : Located} {us rest : List Located} {k : Nat}

theorem EndsWith.of_behind (hs : (s.behind us).EndsWith t) : s.EndsWith t := by
  rw [EndsWith, row_behind, List.getLast?_append, row, List.getLast?_cons, Option.some_or] at hs
  rwa [EndsWith, row, List.getLast?_cons]

theorem Reaches.endsWith (h : s.Reaches s') (hs : s.EndsWith t) : s'.EndsWith t := by
  obtain ⟨us, rfl⟩ := h
  exact hs.of_behind

theorem EndsWith.eq_of_ahead (hs : s.EndsWith t) (h : s.ahead = []) : s = ⟨t, []⟩ := by
  obtain ⟨u, us⟩ := s
  obtain rfl : us = [] := h
  obtain rfl : u = t := Option.some.inj hs
  rfl

@[simp]
theorem here_more : (s.more t k rest).here = s.here := rfl

@[simp]
theorem token_more : (s.more t k rest).token = s.token := rfl

theorem size_more : (s.more t k rest).size = s.size + (k + rest.length) := by
  simp [size, more]

theorem next_more (h : s.ahead ≠ []) : (s.more t k rest).next = s.next := by
  obtain ⟨u, _ | ⟨u', us⟩⟩ := s
  · exact absurd rfl h
  · rfl

theorem advance_more (h : s.ahead ≠ []) : (s.more t k rest).advance = s.advance.more t k rest := by
  obtain ⟨u, _ | ⟨u', us⟩⟩ := s
  · exact absurd rfl h
  · rfl

/-- Behind the last token stands the next of its kind, or what stays the last token. -/
theorem exists_advance_more (hs : s.EndsWith t) (hk : rest = [] ∨ 1 ≤ k) :
    ∃ k' ≤ k, k ≤ k' + 1 ∧ (s.more t k rest).advance = s.advance.more t k' rest := by
  by_cases h : s.ahead = []
  · rw [hs.eq_of_ahead h]
    cases k with
    | zero =>
      obtain rfl : rest = [] := hk.resolve_right (by omega)
      exact ⟨0, Nat.le_refl _, by omega, rfl⟩
    | succ k => exact ⟨k, by omega, by omega, rfl⟩
  · exact ⟨k, Nat.le_refl _, by omega, advance_more h⟩

end Stream

/-! ## Readers on such rows -/

/-- Behind the turn another round follows. -/
def Turn.GoesOn {α : Type} (turn : Turn α) : Prop :=
  turn = .pass ∨ ∃ a, turn = .item a

namespace Reader

variable {α β : Type} {t : Located}

/-- At the place `s` the reader comes to what it comes to with enough more of the token `t` behind,
or to nothing with any number of them. -/
def RepeatsAt (t : Located) (r : Reader α) (s : Stream) : Prop :=
  match r s with
  | .ok a s' => s.Reaches s' ∧ ∃ c, ∀ k rest, rest = [] ∨ c ≤ k →
      ∃ k' ≤ k, k ≤ k' + c ∧ r (s.more t k rest) = .ok a (s'.more t k' rest)
  | .fail d _ => ∃ c, ∀ k rest, rest = [] ∨ c ≤ k → ∃ s', r (s.more t k rest) = .fail d s'
  | .endless => ∀ k, r (s.more t k []) = .endless

/-- On the streams that end in `t` the reader does not tell their end from more of that token. -/
def Repeats (t : Located) (r : Reader α) : Prop :=
  ∀ s : Stream, s.EndsWith t → RepeatsAt t r s

theorem RepeatsAt.bind {r : Reader α} {f : α → Reader β} {s : Stream} (h : RepeatsAt t r s)
    (hf : ∀ a s', r s = .ok a s' → s.Reaches s' → RepeatsAt t (f a) s') :
    RepeatsAt t (r >>= f) s := by
  unfold RepeatsAt at h
  cases hr : r s with
  | ok a s₁ =>
    rw [hr] at h
    obtain ⟨hreach, c₁, h₁⟩ := h
    have h₂ := hf a s₁ hr hreach
    have hrun : (r >>= f) s = f a s₁ := by rw [bind_run, hr, Outcome.andThen_ok]
    have hmore {k k' : Nat} {rest : List Located}
        (hk : r (s.more t k rest) = .ok a (s₁.more t k' rest)) :
        (r >>= f) (s.more t k rest) = f a (s₁.more t k' rest) := by
      rw [bind_run, hk, Outcome.andThen_ok]
    unfold RepeatsAt at h₂ ⊢
    rw [hrun]
    cases hfa : f a s₁ with
    | ok b s₂ =>
      rw [hfa] at h₂
      obtain ⟨hreach₂, c₂, h₂⟩ := h₂
      refine ⟨hreach.trans hreach₂, c₁ + c₂, fun k rest hk => ?_⟩
      obtain ⟨k₁, hle₁, hge₁, hrun₁⟩ := h₁ k rest (hk.imp_right fun h => by omega)
      obtain ⟨k₂, hle₂, hge₂, hrun₂⟩ := h₂ k₁ rest (hk.imp_right fun h => by omega)
      exact ⟨k₂, by omega, by omega, (hmore hrun₁).trans hrun₂⟩
    | fail d s₂ =>
      rw [hfa] at h₂
      obtain ⟨c₂, h₂⟩ := h₂
      refine ⟨c₁ + c₂, fun k rest hk => ?_⟩
      obtain ⟨k₁, hle₁, hge₁, hrun₁⟩ := h₁ k rest (hk.imp_right fun h => by omega)
      obtain ⟨s', hrun₂⟩ := h₂ k₁ rest (hk.imp_right fun h => by omega)
      exact ⟨s', (hmore hrun₁).trans hrun₂⟩
    | endless =>
      rw [hfa] at h₂
      intro k
      obtain ⟨k₁, -, -, hrun₁⟩ := h₁ k [] (.inl rfl)
      exact (hmore hrun₁).trans (h₂ k₁)
  | fail d s₁ =>
    rw [hr] at h
    obtain ⟨c, h⟩ := h
    have hrun : (r >>= f) s = .fail d s₁ := by rw [bind_run, hr, Outcome.andThen_fail]
    unfold RepeatsAt
    rw [hrun]
    refine ⟨c, fun k rest hk => ?_⟩
    obtain ⟨s', hs'⟩ := h k rest hk
    exact ⟨s', by rw [bind_run, hs', Outcome.andThen_fail]⟩
  | endless =>
    rw [hr] at h
    have hrun : (r >>= f) s = .endless := by rw [bind_run, hr, Outcome.andThen_endless]
    unfold RepeatsAt
    rw [hrun]
    intro k
    rw [bind_run, h k, Outcome.andThen_endless]

theorem Repeats.bind {r : Reader α} {f : α → Reader β} (h : Repeats t r)
    (hf : ∀ a, Repeats t (f a)) : Repeats t (r >>= f) :=
  fun s hs => (h s hs).bind fun a s' _ hreach => hf a s' (hreach.endsWith hs)

/-- What a reader does at a place, and there with more of a token, is all that counts. -/
theorem RepeatsAt.congr {r r' : Reader α} {s : Stream} (h : RepeatsAt t r' s) (c : Nat)
    (hs : r s = r' s)
    (hmore : ∀ k rest, rest = [] ∨ c ≤ k → r (s.more t k rest) = r' (s.more t k rest)) :
    RepeatsAt t r s := by
  unfold RepeatsAt at h ⊢
  rw [hs]
  cases hr : r' s with
  | ok a s' =>
    rw [hr] at h
    obtain ⟨hreach, c', h⟩ := h
    refine ⟨hreach, c + c', fun k rest hk => ?_⟩
    obtain ⟨k', hle, hge, hrun⟩ := h k rest (hk.imp_right fun h => by omega)
    exact ⟨k', hle, by omega, (hmore k rest (hk.imp_right fun h => by omega)).trans hrun⟩
  | fail d s' =>
    rw [hr] at h
    obtain ⟨c', h⟩ := h
    refine ⟨c + c', fun k rest hk => ?_⟩
    obtain ⟨s', hrun⟩ := h k rest (hk.imp_right fun h => by omega)
    exact ⟨s', (hmore k rest (hk.imp_right fun h => by omega)).trans hrun⟩
  | endless =>
    rw [hr] at h
    exact fun k => (hmore k [] (.inl rfl)).trans (h k)

theorem Repeats.ite {c : Prop} [Decidable c] {r r' : Reader α} (h : Repeats t r)
    (h' : Repeats t r') : Repeats t (if c then r else r') := by
  split
  · exact h
  · exact h'

/-! ### Small readers -/

theorem repeats_pure (a : α) : Repeats t (pure a : Reader α) :=
  fun s _ => ⟨.refl s, 0, fun k _ _ => ⟨k, Nat.le_refl _, Nat.le_refl _, rfl⟩⟩

theorem repeats_here : Repeats t here :=
  fun s _ => ⟨.refl s, 0, fun k _ _ => ⟨k, Nat.le_refl _, Nat.le_refl _, rfl⟩⟩

theorem repeats_peek : Repeats t peek :=
  fun s _ => ⟨.refl s, 0, fun k _ _ => ⟨k, Nat.le_refl _, Nat.le_refl _, rfl⟩⟩

theorem repeats_skip : Repeats t skip := by
  refine fun s hs => ⟨s.reaches_advance, 1, fun k rest hk => ?_⟩
  obtain ⟨k', hle, hge, hadvance⟩ := Stream.exists_advance_more hs hk
  exact ⟨k', hle, hge, congrArg (Outcome.ok ()) hadvance⟩

/-- A fault is found again, if its diagnostic is about the current token. -/
theorem repeats_failAt {d : Stream → Diagnostic} (hd : ∀ t ts ts', d ⟨t, ts⟩ = d ⟨t, ts'⟩) :
    Repeats t (failAt d : Reader α) :=
  fun s _ => ⟨0, fun k rest _ => ⟨s.more t k rest, congrArg (Outcome.fail · _) (hd _ _ _)⟩⟩

theorem repeats_refuse (expected : List String) : Repeats t (refuse expected : Reader α) :=
  repeats_failAt fun _ _ _ => rfl

theorem repeats_tooDeep : Repeats t (tooDeep : Reader α) :=
  repeats_failAt fun _ _ _ => rfl

theorem repeats_keyword (k : Keyword) : Repeats t (keyword k) :=
  repeats_peek.bind fun _ => repeats_skip.ite (repeats_refuse _)

theorem repeats_symbol (y : Symbol) : Repeats t (symbol y) :=
  repeats_peek.bind fun _ => repeats_skip.ite (repeats_refuse _)

theorem repeats_eat (u : Token) : Repeats t (eat u) :=
  repeats_peek.bind fun _ => (repeats_skip.bind fun _ => repeats_pure _).ite (repeats_pure _)

theorem repeats_name (what : String) : Repeats t (name what) := by
  refine repeats_peek.bind fun u => ?_
  split
  · exact repeats_skip.bind fun _ => repeats_pure _
  · exact repeats_refuse _

theorem repeats_member (what : String) : Repeats t (member what) := by
  refine repeats_peek.bind fun u => ?_
  split
  · exact repeats_skip.bind fun _ => repeats_pure _
  · exact (repeats_skip.bind fun _ => repeats_pure _).ite (repeats_refuse _)
  · exact repeats_refuse _

/-! ### Repetitions -/

/-- What a repetition does behind a round. -/
def goOn (round : Reader (Turn α)) : Turn α → Reader (List α)
  | .stop => pure []
  | .pass => many round
  | .item a => do return a :: (← many round)
  | .last a => pure [a]

/-- A repetition goes on behind a round that leaves less, if another follows. -/
theorem many_of_progress {round : Reader (Turn α)} {s : Stream}
    (h : ∀ turn s', round s = .ok turn s' → turn.GoesOn → s'.size < s.size) :
    many round s = (round >>= goOn round) s := by
  rw [bind_run]
  cases hr : round s with
  | ok turn s' =>
    rw [Outcome.andThen_ok]
    cases turn with
    | stop => exact many_stop hr
    | pass => exact many_pass hr (h _ _ hr (.inl rfl))
    | item a => exact many_item hr (h _ _ hr (.inr ⟨a, rfl⟩))
    | last a => exact many_last hr
  | fail d s' => exact many_of_fail hr
  | endless => exact many_of_endless hr

/-- A repetition that goes on where it began never ends. -/
theorem many_of_stays {round : Reader (Turn α)} {turn : Turn α} {s s' : Stream}
    (h : round s = .ok turn s') (hturn : turn.GoesOn) (hle : s.size ≤ s'.size) :
    many round s = .endless := by
  obtain rfl | ⟨a, rfl⟩ := hturn
  · exact many_pass_endless h (Nat.not_lt.2 hle)
  · exact many_item_endless h (Nat.not_lt.2 hle)

/-- A round that stays at the last token is repeated for ever there, and as well at any number of
that token : each round takes at least one of them, or the first stays where it is. -/
theorem many_more_of_stays {round : Reader (Turn α)} {turn : Turn α} {s : Stream} {c : Nat}
    (hturn : turn.GoesOn)
    (h : ∀ k rest, rest = [] ∨ c ≤ k →
      ∃ k' ≤ k, k ≤ k' + c ∧ round (s.more t k rest) = .ok turn (s.more t k' rest)) (k : Nat) :
    many round (s.more t k []) = .endless := by
  induction k using Nat.strongRecOn with
  | _ k ih =>
    obtain ⟨k', hle, -, hrun⟩ := h k [] (.inl rfl)
    obtain hlt | rfl := Nat.lt_or_eq_of_le hle
    · have hsize : (s.more t k' []).size < (s.more t k []).size := by
        simp only [Stream.size_more]
        omega
      obtain rfl | ⟨a, rfl⟩ := hturn
      · rw [many_pass hrun hsize, ih k' hlt]
      · rw [many_item hrun hsize, ih k' hlt]
        rfl
    · exact many_of_stays hrun hturn (Nat.le_refl _)

theorem Repeats.many {round : Reader (Turn α)} (h : Repeats t round) :
    Repeats t (many round) := by
  intro s
  induction hn : s.size using Nat.strongRecOn generalizing s with
  | _ n ih =>
    subst hn
    intro hs
    have hround := h s hs
    have hr := hround
    unfold RepeatsAt at hr
    cases hrs : round s with
    | ok turn s' =>
      rw [hrs] at hr
      obtain ⟨hreach, c, hmore⟩ := hr
      by_cases hstays : turn.GoesOn ∧ s.size ≤ s'.size
      case pos =>
        obtain ⟨hturn, hle⟩ := hstays
        obtain rfl := hreach.eq_of_size_le hle
        unfold RepeatsAt
        rw [many_of_stays hrs hturn hle]
        exact many_more_of_stays hturn hmore
      case neg =>
        have hlt (hturn : turn.GoesOn) : s'.size < s.size :=
          Nat.lt_of_not_le fun hle => hstays ⟨hturn, hle⟩
        have hgo : RepeatsAt t (round >>= goOn round) s := by
          refine hround.bind fun turn' s₁ hrs' _ => ?_
          obtain ⟨rfl, rfl⟩ := Outcome.ok.inj (hrs.symm.trans hrs')
          have hs' := hreach.endsWith hs
          cases turn with
          | stop => exact repeats_pure _ _ hs'
          | pass => exact ih _ (hlt (.inl rfl)) _ rfl hs'
          | item a =>
            exact (ih _ (hlt (.inr ⟨a, rfl⟩)) _ rfl hs').bind fun _ z _ hz =>
              repeats_pure _ _ (hz.endsWith hs')
          | last a => exact repeats_pure _ _ hs'
        refine hgo.congr c (many_of_progress fun turn' z hz hturn => ?_) fun k rest hk =>
          many_of_progress fun turn' z hz hturn => ?_
        · obtain ⟨rfl, rfl⟩ := Outcome.ok.inj (hrs.symm.trans hz)
          exact hlt hturn
        · obtain ⟨k', hle, -, hrun⟩ := hmore k rest hk
          obtain ⟨rfl, rfl⟩ := Outcome.ok.inj (hrun.symm.trans hz)
          have := hlt hturn
          simp only [Stream.size_more]
          omega
    | fail d s' =>
      rw [hrs] at hr
      obtain ⟨c, hr⟩ := hr
      unfold RepeatsAt
      rw [many_of_fail hrs]
      refine ⟨c, fun k rest hk => ?_⟩
      obtain ⟨z, hz⟩ := hr k rest hk
      exact ⟨z, many_of_fail hz⟩
    | endless =>
      rw [hrs] at hr
      unfold RepeatsAt
      rw [many_of_endless hrs]
      exact fun k => many_of_endless (hr k)

end Reader

end OpsLang
