import OpsLang.Grammar.File

/-!
# Laws of streams and readers

A stream that a reader has worked on is the tokens it took with the rest behind them
(`Stream.behind`). `EndsOnce` is the promise under which the grammar is read : a row ends in
its only `.eof`, so a token that is no `.eof` has another after it
(`Stream.Ends.behind_here`).

Each small reader has one equation that says what it does at a stream (`keyword_run`,
`name_run` and so on), and later proofs use these alone. A repetition is a round and what
it does behind that (`Reader.many_run`), and `Reader.many_cases` is the induction over its
rounds. `Reporter.outcome` forgets the reports of a reporter, which turns it into a reader,
and passes through every combinator.
-/

namespace OpsLang

/-! ## Streams -/

/-- The row ends in its only end of text. -/
def EndsOnce : List Located → Prop
  | [] => False
  | [t] => t.token = .eof
  | t :: t' :: ts => t.token ≠ .eof ∧ EndsOnce (t' :: ts)

/-- The last token of the row is an end of text. There may be others before it. -/
def EndsLast (ts : List Located) : Prop :=
  ∃ t ∈ ts.getLast?, t.token = .eof

theorem EndsOnce.endsLast : ∀ {ts : List Located}, EndsOnce ts → EndsLast ts
  | [t], h => ⟨t, rfl, h⟩
  | _ :: t' :: ts, h => by
    have hrest : EndsOnce (t' :: ts) := h.2
    obtain ⟨u, hu, he⟩ := hrest.endsLast
    exact ⟨u, by rwa [List.getLast?_cons_cons], he⟩

namespace Stream

/-- The stream with the tokens `us` before it. -/
def behind (s : Stream) : List Located → Stream
  | [] => s
  | u :: us => ⟨u, us ++ s.here :: s.ahead⟩

/-- The current token and those after it. -/
def row (s : Stream) : List Located :=
  s.here :: s.ahead

/-- The stream ends in its only end of text. -/
def Ends (s : Stream) : Prop :=
  EndsOnce s.row

/-- The last token of the stream is an end of text. -/
def Closed (s : Stream) : Prop :=
  EndsLast s.row

/-- The last token of the stream is one of `Q`. A stream is closed if that is an end of text. -/
def LastIs (Q : Token → Prop) (s : Stream) : Prop :=
  ∃ t ∈ s.row.getLast?, Q t.token

variable {s s' : Stream} {u : Located} {us vs : List Located} {Q : Token → Prop}

theorem Ends.closed (hs : s.Ends) : s.Closed :=
  EndsOnce.endsLast hs

@[simp]
theorem behind_nil : s.behind [] = s := rfl

@[simp]
theorem here_behind_cons : (s.behind (u :: us)).here = u := rfl

@[simp]
theorem token_behind_cons : (s.behind (u :: us)).token = u.token := rfl

@[simp]
theorem line_behind_cons : (s.behind (u :: us)).line = u.line := rfl

@[simp]
theorem advance_behind_cons : (s.behind (u :: us)).advance = s.behind us := by
  cases us <;> rfl

@[simp]
theorem next_behind_cons : (s.behind (u :: us)).next = (s.behind us).token := by
  cases us <;> rfl

theorem behind_append : s.behind (us ++ vs) = (s.behind vs).behind us := by
  cases us with
  | nil => rfl
  | cons u us => cases vs <;> simp [behind]

theorem row_behind : (s.behind us).row = us ++ s.row := by
  cases us <;> rfl

theorem behind_inj : s.behind us = s.behind vs ↔ us = vs := by
  refine ⟨fun h => ?_, fun h => by rw [h]⟩
  have hrow := congrArg row h
  rwa [row_behind, row_behind, List.append_left_inj] at hrow

theorem size_behind : (s.behind us).size = us.length + s.size := by
  cases us with
  | nil => simp
  | cons u us =>
    simp only [size, behind, List.length_append, List.length_cons]
    omega

theorem ofTokens_append_row : ofTokens (us ++ s.row) = s.behind us := by
  cases us <;> rfl

theorem lastIs_single {t : Located} : LastIs Q ⟨t, []⟩ ↔ Q t.token := by
  simp [LastIs, row]

theorem closed_single {t : Located} : Closed ⟨t, []⟩ ↔ t.token = .eof :=
  lastIs_single (Q := (· = .eof))

/-- A stream goes on behind a token that its last token cannot be. -/
theorem LastIs.behind_here (hs : s.LastIs Q) (h : ¬Q s.token) : s.advance.behind [s.here] = s := by
  obtain ⟨t, ts⟩ := s
  cases ts with
  | nil => exact absurd (lastIs_single.1 hs) h
  | cons t' ts => rfl

theorem LastIs.of_behind (hs : (s.behind us).LastIs Q) : s.LastIs Q := by
  obtain ⟨t, ht, hQ⟩ := hs
  rw [row_behind, List.getLast?_append, row, List.getLast?_cons, Option.some_or] at ht
  exact ⟨t, by rwa [row, List.getLast?_cons], hQ⟩

/-- A token that the last token cannot be has another after it. -/
theorem LastIs.size_advance_lt (hs : s.LastIs Q) (h : ¬Q s.token) : s.advance.size < s.size := by
  have hsize := congrArg size (hs.behind_here h)
  rw [size_behind] at hsize
  simp only [List.length_singleton] at hsize
  omega

/-- A closed stream goes on behind a token that is not the end. -/
theorem Closed.behind_here (hs : s.Closed) (h : s.token ≠ .eof) : s.advance.behind [s.here] = s :=
  LastIs.behind_here (Q := (· = .eof)) hs h

theorem Closed.of_behind (hs : (s.behind us).Closed) : s.Closed :=
  LastIs.of_behind (Q := (· = .eof)) hs

theorem Closed.advance (hs : s.Closed) : s.advance.Closed := by
  obtain ⟨t, ts⟩ := s
  cases ts with
  | nil => exact hs
  | cons t' ts =>
    have hbehind : (behind ⟨t', ts⟩ [t]).Closed := hs
    exact hbehind.of_behind

/-- A token that is not the end has another after it. -/
theorem Closed.size_advance_lt (hs : s.Closed) (h : s.token ≠ .eof) : s.advance.size < s.size :=
  LastIs.size_advance_lt (Q := (· = .eof)) hs h

theorem closed_ofTokens {ts : List Located} (h : EndsLast ts) : (ofTokens ts).Closed := by
  cases ts with
  | nil =>
    obtain ⟨t, ht, -⟩ := h
    cases ht
  | cons t ts => exact h

/-- A stream that ends goes on behind a token that is not the end. -/
theorem Ends.behind_here (hs : s.Ends) (h : s.token ≠ .eof) : s.advance.behind [s.here] = s :=
  hs.closed.behind_here h

theorem Ends.of_behind (hs : (s.behind us).Ends) : s.Ends := by
  induction us with
  | nil => exact hs
  | cons u us ih =>
    refine ih ?_
    cases us with
    | nil => exact hs.2
    | cons u' us => exact hs.2

theorem Ends.advance (hs : s.Ends) : s.advance.Ends := by
  obtain ⟨t, ts⟩ := s
  cases ts with
  | nil => exact hs
  | cons t' ts => exact hs.2

theorem ends_ofTokens {ts : List Located} (h : EndsOnce ts) : (ofTokens ts).Ends := by
  cases ts with
  | nil => exact h.elim
  | cons t ts => exact h

theorem row_ofTokens {ts : List Located} (h : EndsOnce ts) : (ofTokens ts).row = ts := by
  cases ts with
  | nil => exact h.elim
  | cons t ts => rfl

/-- At the end of the text nothing but the end is left. -/
theorem Ends.row_of_eof (hs : s.Ends) (h : s.token = .eof) : s.row = [s.here] := by
  obtain ⟨t, ts⟩ := s
  cases ts with
  | nil => rfl
  | cons t' ts => exact absurd h hs.1

theorem token_advance_of_next (h : s.next ≠ .eof) : s.advance.token = s.next := by
  obtain ⟨t, ts⟩ := s
  cases ts with
  | nil => exact absurd rfl h
  | cons t' ts => rfl

end Stream

theorem endsOnce_append_singleton {ts : List Located} {e : Located} :
    EndsOnce (ts ++ [e]) ↔ e.token = .eof ∧ ∀ t ∈ ts, t.token ≠ .eof := by
  induction ts with
  | nil => simp [EndsOnce]
  | cons t ts ih =>
    obtain ⟨t', ts', h⟩ : ∃ t' ts', ts ++ [e] = t' :: ts' := by
      cases ts <;> simp
    rw [List.cons_append, h, EndsOnce, ← h, ih]
    simp only [List.forall_mem_cons]
    exact and_left_comm

theorem Stream.Ends.exists_last {s : Stream} (hs : s.Ends) :
    ∃ us e, s = (⟨e, []⟩ : Stream).behind us ∧ e.token = .eof := by
  obtain ⟨t, ts⟩ := s
  induction ts generalizing t with
  | nil => exact ⟨[], t, rfl, hs⟩
  | cons t' ts ih =>
    obtain ⟨us, e, hus, he⟩ := ih t' hs.2
    refine ⟨t :: us, e, ?_, he⟩
    have hcons : t :: us = [t] ++ us := rfl
    rw [hcons, behind_append, ← hus]
    rfl

/-! ## Outcomes -/

namespace Outcome

variable {α β : Type} {o : Outcome α} {f : α → Stream → Outcome β}

@[simp]
theorem andThen_ok (a : α) (s : Stream) : (ok a s).andThen f = f a s := rfl

@[simp]
theorem andThen_fail (d : Diagnostic) (s : Stream) : (fail d s : Outcome α).andThen f = fail d s :=
  rfl

@[simp]
theorem andThen_endless : (endless : Outcome α).andThen f = endless := rfl

theorem andThen_eq_ok {b : β} {s : Stream} :
    o.andThen f = ok b s ↔ ∃ a s', o = ok a s' ∧ f a s' = ok b s := by
  constructor
  · intro h
    cases o with
    | ok a s' => exact ⟨a, s', rfl, h⟩
    | fail d s' => simp at h
    | endless => simp at h
  · rintro ⟨a, s', rfl, h⟩
    exact h

theorem andThen_eq_fail {d : Diagnostic} {s : Stream} :
    o.andThen f = fail d s ↔ o = fail d s ∨ ∃ a s', o = ok a s' ∧ f a s' = fail d s := by
  cases o <;> simp [and_assoc]

@[simp]
theorem map_ok (g : α → β) (a : α) (s : Stream) : (ok a s).map g = ok (g a) s := rfl

theorem map_id : o.map id = o := by
  cases o <;> rfl

theorem map_eq_ok {g : α → β} {b : β} {s : Stream} :
    o.map g = ok b s ↔ ∃ a, o = ok a s ∧ g a = b := by
  simp only [map, andThen_eq_ok, ok.injEq]
  constructor
  · rintro ⟨a, s', h, rfl, rfl⟩
    exact ⟨a, h, rfl⟩
  · rintro ⟨a, h, rfl⟩
    exact ⟨a, s, h, rfl, rfl⟩

theorem map_eq_fail {g : α → β} {d : Diagnostic} {s : Stream} :
    o.map g = fail d s ↔ o = fail d s := by
  cases o <;> simp [map]

/-- What a repetition comes to that keeps nothing and whose round from `s` has the outcome
`o` : its end, or what `next` comes to from another place. A round that came to no other place
would be repeated for ever. -/
def again (o : Outcome (Turn Unit)) (s : Stream) (next : Stream → Outcome Unit) : Outcome Unit :=
  match o with
  | ok .pass s' | ok (.item _) s' => if s'.size < s.size then next s' else endless
  | ok .stop s' | ok (.last _) s' => ok () s'
  | fail d s' => fail d s'
  | endless => endless

end Outcome

/-! ## Small readers -/

namespace Reader

variable {α β : Type} {s s' : Stream}

@[simp]
theorem pure_run (a : α) : (pure a : Reader α) s = .ok a s := rfl

@[simp]
theorem bind_run (r : Reader α) (f : α → Reader β) :
    (r >>= f) s = (r s).andThen fun a s' => f a s' := rfl

theorem bind_bind {γ : Type} (r : Reader α) (f : α → Reader β) (g : β → Reader γ) :
    (r >>= f) >>= g = r >>= fun a => f a >>= g := by
  funext s
  simp only [bind_run]
  cases r s <;> rfl

@[simp]
theorem here_run : here s = .ok s.here s := rfl

@[simp]
theorem peek_run : peek s = .ok s.token s := rfl

@[simp]
theorem peekNext_run : peekNext s = .ok s.next s := rfl

@[simp]
theorem skip_run : skip s = .ok () s.advance := rfl

@[simp]
theorem failAt_run (d : Stream → Diagnostic) : (failAt d : Reader α) s = .fail (d s) s := rfl

@[simp]
theorem refuse_run (expected : List String) :
    (refuse expected : Reader α) s = .fail (s.expecting expected) s := rfl

@[simp]
theorem tooDeep_run : (tooDeep : Reader α) s = .fail s.tooDeep s := rfl

@[simp]
theorem ite_run (c : Prop) [Decidable c] (r r' : Reader α) :
    (if c then r else r') s = if c then r s else r' s := by
  split <;> rfl

theorem keyword_run (k : Keyword) :
    keyword k s = if s.token = .keyword k then .ok () s.advance
      else .fail (s.expecting ["'" ++ k.text ++ "'"]) s := by
  simp [keyword]

theorem symbol_run (y : Symbol) :
    symbol y s = if s.token = .symbol y then .ok () s.advance
      else .fail (s.expecting ["'" ++ y.text ++ "'"]) s := by
  simp [symbol]

theorem eat_run (t : Token) :
    eat t s = if s.token = t then .ok true s.advance else .ok false s := by
  simp only [eat, bind_run, peek_run, Outcome.andThen_ok, ite_run]
  split <;> rfl

theorem name_run (what : String) :
    name what s =
      match s.token with
      | .name n => .ok n s.advance
      | _ => .fail (s.expecting [what]) s := by
  cases h : s.token <;> simp [name, h]

theorem member_run (what : String) :
    member what s =
      match s.token with
      | .name n => .ok n s.advance
      | .unit u =>
        if u.toList.all isWordChar then .ok u s.advance else .fail (s.expecting [what]) s
      | _ => .fail (s.expecting [what]) s := by
  simp only [member, bind_run, peek_run, Outcome.andThen_ok]
  cases s.token with
  | unit u => exact ite_run _ _ _
  | _ => rfl

theorem keyword_eq_ok {k : Keyword} {x : Unit} :
    keyword k s = .ok x s' ↔ s.token = .keyword k ∧ s.advance = s' := by
  rw [keyword_run]
  split <;> simp [*]

theorem symbol_eq_ok {y : Symbol} {x : Unit} :
    symbol y s = .ok x s' ↔ s.token = .symbol y ∧ s.advance = s' := by
  rw [symbol_run]
  split <;> simp [*]

theorem name_eq_ok {what n : String} :
    name what s = .ok n s' ↔ s.token = .name n ∧ s.advance = s' := by
  rw [name_run]
  cases s.token <;> simp

end Reader

/-- The token serves as the member `n` : it is that name, or a unit spelling shaped like a
name. -/
def Token.IsMember (n : String) (t : Token) : Prop :=
  t = .name n ∨ t = .unit n ∧ n.toList.all isWordChar

namespace Reader

variable {α β : Type} {s s' : Stream}

theorem member_eq_ok {what n : String} :
    member what s = .ok n s' ↔ s.token.IsMember n ∧ s.advance = s' := by
  rw [member_run, Token.IsMember]
  cases s.token with
  | unit u =>
    by_cases hu : u.toList.all isWordChar
    · simp only [hu, if_true, Outcome.ok.injEq, reduceCtorEq, false_or, Token.unit.injEq]
      constructor
      · rintro ⟨rfl, h⟩
        exact ⟨⟨rfl, hu⟩, h⟩
      · rintro ⟨⟨rfl, -⟩, h⟩
        exact ⟨rfl, h⟩
    · simp only [hu, Bool.false_eq_true, if_false, reduceCtorEq, false_or, Token.unit.injEq,
        false_iff]
      rintro ⟨⟨rfl, h⟩, -⟩
      exact hu h
  | _ => simp

/-! ## Repetition -/

/-- What a repetition does behind a round, from where `n` tokens were left. A round that takes none
would be repeated for ever. -/
def afterRound (round : Reader (Turn α)) (n : Nat) : Turn α → Stream → Outcome (List α)
  | .stop, s => .ok [] s
  | .pass, s => if s.size < n then many round s else .endless
  | .item a, s => if s.size < n then (many round s).map (a :: ·) else .endless
  | .last a, s => .ok [a] s

/-- A repetition is a round, and what it does behind that. -/
theorem many_run (round : Reader (Turn α)) (s : Stream) :
    many round s = (round s).andThen (afterRound round s.size) := by
  rw [many]
  rcases round s with ⟨_ | _ | a | a, s'⟩ | ⟨d, s'⟩ | _ <;> rfl

/-- Behind a round the repetition is over, or it goes on if the round took a token. -/
theorem afterRound_cases (turn : Turn α) :
    (∃ as, ∀ round n s, afterRound round n turn s = .ok as s) ∨
      ∃ g : List α → List α, ∀ round n s,
        afterRound round n turn s = if s.size < n then (many round s).map g else .endless := by
  cases turn with
  | stop => exact .inl ⟨[], fun _ _ _ => rfl⟩
  | last a => exact .inl ⟨[a], fun _ _ _ => rfl⟩
  | item a => exact .inr ⟨(a :: ·), fun _ _ _ => rfl⟩
  | pass => exact .inr ⟨id, fun _ _ _ => by rw [Outcome.map_id, afterRound]⟩

/-- What holds of the last round of a repetition, and of a round if it holds of those after
it, holds of the repetition. -/
theorem many_cases {round : Reader (Turn α)} {motive : Stream → List α → Stream → Prop}
    (stop : ∀ {s s'}, round s = .ok .stop s' → motive s [] s')
    (pass : ∀ {s s₁ as s'}, round s = .ok .pass s₁ → s₁.size < s.size → motive s₁ as s' →
      motive s as s')
    (item : ∀ {s a s₁ as s'}, round s = .ok (.item a) s₁ → s₁.size < s.size →
      motive s₁ as s' → motive s (a :: as) s')
    (last : ∀ {s a s'}, round s = .ok (.last a) s' → motive s [a] s') :
    ∀ {s as s'}, many round s = .ok as s' → motive s as s' := by
  intro s
  induction hn : s.size using Nat.strongRecOn generalizing s with
  | _ n ih =>
    subst hn
    intro as s' h
    rw [many] at h
    split at h
    · next hr =>
      obtain ⟨rfl, rfl⟩ := Outcome.ok.inj h
      exact stop hr
    · next s₁ hr =>
      split at h
      · next hlt => exact pass hr hlt (ih _ hlt rfl h)
      · cases h
    · next a s₁ hr =>
      split at h
      · next hlt =>
        obtain ⟨as', h', rfl⟩ := Outcome.map_eq_ok.1 h
        exact item hr hlt (ih _ hlt rfl h')
      · cases h
    · next a s₁ hr =>
      obtain ⟨rfl, rfl⟩ := Outcome.ok.inj h
      exact last hr
    · cases h
    · cases h

/-- The same induction where it counts only whether the repetition is over behind a round or goes
on. -/
theorem many_rounds {round : Reader (Turn α)} {motive : Stream → List α → Stream → Prop}
    (last : ∀ {s turn as s'}, round s = .ok turn s' →
      (∀ round n s, afterRound round n turn s = .ok as s) → motive s as s')
    (next : ∀ {s turn g s₁ as s'}, round s = .ok turn s₁ → s₁.size < s.size →
      (∀ round n s, afterRound round n turn s =
        if s.size < n then (many round s).map g else .endless) →
      motive s₁ as s' → motive s (g as) s') :
    ∀ {s as s'}, many round s = .ok as s' → motive s as s' :=
  many_cases (fun hr => last hr fun _ _ _ => rfl)
    (fun hr hlt ih => next hr hlt (fun _ _ _ => by rw [Outcome.map_id, afterRound]) ih)
    (fun hr hlt ih => next hr hlt (fun _ _ _ => rfl) ih)
    (fun hr => last hr fun _ _ _ => rfl)

/-- A repetition fails where a round fails, behind rounds that do not. -/
theorem many_fail_cases {round : Reader (Turn α)} {motive : Stream → Diagnostic → Prop}
    (fail : ∀ {s d s'}, round s = .fail d s' → motive s d)
    (pass : ∀ {s s₁ d}, round s = .ok .pass s₁ → s₁.size < s.size → motive s₁ d → motive s d)
    (item : ∀ {s a s₁ d}, round s = .ok (.item a) s₁ → s₁.size < s.size → motive s₁ d →
      motive s d) :
    ∀ {s d s'}, many round s = .fail d s' → motive s d := by
  intro s
  induction hn : s.size using Nat.strongRecOn generalizing s with
  | _ n ih =>
    subst hn
    intro d s' h
    rw [many] at h
    split at h
    · cases h
    · next s₁ hr =>
      split at h
      · next hlt => exact pass hr hlt (ih _ hlt rfl h)
      · cases h
    · next a s₁ hr =>
      split at h
      · next hlt =>
        exact item hr hlt (ih _ hlt rfl (Outcome.map_eq_fail.1 h))
      · cases h
    · cases h
    · next d' s₁ hr =>
      obtain ⟨rfl, rfl⟩ := Outcome.fail.inj h
      exact fail hr
    · cases h

/-- A repetition whose items do not matter repeats its round. -/
theorem many_eq_again (round : Reader (Turn Unit)) :
    ((many round s).map fun _ => ()) =
      (round s).again s fun s' => (many round s').map fun _ => () := by
  rw [many]
  rcases round s with ⟨_ | _ | a | a, s'⟩ | ⟨d, s'⟩ | _
  · rfl
  · by_cases hlt : s'.size < s.size <;> simp [Outcome.again, Outcome.map, hlt]
  · by_cases hlt : s'.size < s.size
    · cases hm : many round s' <;> simp [Outcome.again, Outcome.map, hlt, hm]
    · simp [Outcome.again, Outcome.map, hlt]
  · rfl
  · rfl
  · rfl

theorem many_stop {round : Reader (Turn α)} (h : round s = .ok .stop s') :
    many round s = .ok [] s' := by
  rw [many, h]

theorem many_pass {round : Reader (Turn α)} (h : round s = .ok .pass s')
    (hlt : s'.size < s.size) : many round s = many round s' := by
  rw [many, h]
  simp [hlt]

theorem many_item {round : Reader (Turn α)} {a : α} (h : round s = .ok (.item a) s')
    (hlt : s'.size < s.size) : many round s = (many round s').map (a :: ·) := by
  rw [many, h]
  simp [hlt]

theorem many_last {round : Reader (Turn α)} {a : α} (h : round s = .ok (.last a) s') :
    many round s = .ok [a] s' := by
  rw [many, h]

theorem many_of_fail {round : Reader (Turn α)} {d : Diagnostic} (h : round s = .fail d s') :
    many round s = .fail d s' := by
  rw [many, h]

theorem many_of_endless {round : Reader (Turn α)} (h : round s = .endless) :
    many round s = .endless := by
  rw [many, h]

theorem many_pass_endless {round : Reader (Turn α)} (h : round s = .ok .pass s')
    (hle : ¬s'.size < s.size) : many round s = .endless := by
  rw [many, h]
  simp [hle]

theorem many_item_endless {round : Reader (Turn α)} {a : α} (h : round s = .ok (.item a) s')
    (hle : ¬s'.size < s.size) : many round s = .endless := by
  rw [many, h]
  simp [hle]

/-- A repetition goes on behind its first round, unless that is the last. -/
theorem many_first {round : Reader (Turn α)} {as : List α}
    (h : many round s = .ok as s') :
    ∃ t s₁, round s = .ok t s₁ ∧
      match t with
      | .stop => as = [] ∧ s' = s₁
      | .pass => many round s₁ = .ok as s'
      | .item a => ∃ rest, as = a :: rest ∧ many round s₁ = .ok rest s'
      | .last a => as = [a] ∧ s' = s₁ := by
  rw [many] at h
  split at h
  · next hr =>
    obtain ⟨rfl, rfl⟩ := Outcome.ok.inj h
    exact ⟨_, _, hr, rfl, rfl⟩
  · next hr =>
    split at h
    · exact ⟨_, _, hr, h⟩
    · cases h
  · next hr =>
    split at h
    · obtain ⟨rest, hrest, rfl⟩ := Outcome.map_eq_ok.1 h
      exact ⟨_, _, hr, rest, rfl, hrest⟩
    · cases h
  · next hr =>
    obtain ⟨rfl, rfl⟩ := Outcome.ok.inj h
    exact ⟨_, _, hr, rfl, rfl⟩
  · cases h
  · cases h

end Reader

/-! ## Reporters as readers -/

namespace Reporter

variable {α β : Type}

/-- What comes of a reporter, without its reports. -/
def outcome (r : Reporter α) : Reader α :=
  fun s => (r s).2

theorem bind_run (r : Reporter α) (f : α → Reporter β) (s : Stream) :
    (r >>= f) s =
      match r s with
      | (ds, .ok a s') => prepend ds (f a s')
      | (ds, .fail d s') => (ds, .fail d s')
      | (ds, .endless) => (ds, .endless) := rfl

@[simp]
theorem outcome_pure (a : α) : (pure a : Reporter α).outcome = pure a := rfl

@[simp]
theorem outcome_ofReader (r : Reader α) : (ofReader r).outcome = r := rfl

@[simp]
theorem outcome_liftM (r : Reader α) : (liftM r : Reporter α).outcome = r := rfl

@[simp]
theorem outcome_bind (r : Reporter α) (f : α → Reporter β) :
    (r >>= f).outcome = r.outcome >>= fun a => (f a).outcome := by
  funext s
  rw [outcome, bind_run, Reader.bind_run, outcome]
  rcases r s with ⟨ds, _ | _ | _⟩ <;> rfl

@[simp]
theorem outcome_ite (c : Prop) [Decidable c] (r r' : Reporter α) :
    (if c then r else r').outcome = if c then r.outcome else r'.outcome := by
  split <;> rfl

theorem outcome_many (round : Reporter (Turn α)) :
    outcome (many round) = Reader.many round.outcome := by
  funext s
  induction hn : s.size using Nat.strongRecOn generalizing s with
  | _ n ih =>
    subst hn
    show (many round s).2 = Reader.many round.outcome s
    have ho : round.outcome s = (round s).2 := rfl
    rw [many, Reader.many, ho]
    rcases round s with ⟨ds, ⟨_ | _ | a | a, s'⟩ | ⟨d, s'⟩ | _⟩
    · rfl
    · by_cases hlt : s'.size < s.size
      · simpa [hlt, prepend, outcome] using ih _ hlt s' rfl
      · simp [hlt]
    · by_cases hlt : s'.size < s.size
      · simpa [hlt, outcome] using congrArg (Outcome.map (a :: ·)) (ih _ hlt s' rfl)
      · simp [hlt]
    · rfl
    · rfl
    · rfl

@[simp]
theorem outcome_many_bind (round : Reporter (Turn α)) (f : List α → Reporter β) :
    (many round >>= f).outcome = Reader.many round.outcome >>= fun as => (f as).outcome := by
  rw [← outcome_many]
  exact outcome_bind (many round) f

end Reporter

end OpsLang
