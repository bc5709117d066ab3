import Mathlib.Data.List.Forall2
import OpsLang.Proofs.Appending.Reader
import OpsLang.Proofs.Spelling.Expr

/-!
# Rows on other lines

Two rows with the same tokens may stand on other lines (`Relined`). All that their lines may not
do is to part a number from a unit in one of the rows and not in the other.

`Reader.Matches` compares two readers on such rows. Both come to a value, and the two values are
related, or both fail with diagnostics that say the same (`Diagnostic.Alike`) and that point at
the same place of their rows. A relation of values takes the place of equality, since statements
and declarations carry the lines they stand on, and the readers of their parts are given them.
-/

namespace OpsLang

/-! ## Rows -/

/-- The rows have the same tokens, and a unit behind a number stands on the line of the number in
both of them or in neither. -/
inductive Relined : List Located → List Located → Prop
  | nil : Relined [] []
  | cons {t t' : Located} {ts ts' : List Located} (htoken : t'.token = t.token)
      (hline : ∀ n w, t.token = .number n → ∀ u ∈ ts.head?, ∀ u' ∈ ts'.head?,
        u.token = .unit w → (u'.line = t'.line ↔ u.line = t.line))
      (h : Relined ts ts') : Relined (t :: ts) (t' :: ts')

namespace Relined

variable {us us' vs vs' : List Located}

theorem words_eq (h : Relined us us') : words us' = words us := by
  induction h with
  | nil => rfl
  | cons htoken _ _ ih => rw [words_cons, words_cons, htoken, ih]

theorem length_eq (h : Relined us us') : us'.length = us.length := by
  simpa [words] using congrArg List.length h.words_eq

theorem head_token (h : Relined us us') {u u' : Located} (hu : u ∈ us.head?)
    (hu' : u' ∈ us'.head?) : u'.token = u.token := by
  cases h with
  | nil => cases hu
  | cons htoken _ _ =>
    cases hu
    cases hu'
    exact htoken

theorem refl (us : List Located) : Relined us us := by
  induction us with
  | nil => exact .nil
  | cons t ts ih =>
    refine .cons rfl (fun _ _ _ u hu u' hu' _ => ?_) ih
    rw [Option.mem_unique hu hu']

theorem symm (h : Relined us us') : Relined us' us := by
  induction h with
  | nil => exact .nil
  | cons htoken hline h ih =>
    refine .cons htoken.symm (fun n w hn u hu u' hu' hw => ?_) ih
    rw [htoken] at hn
    rw [h.head_token hu' hu] at hw
    exact (hline n w hn u' hu' u hu hw).symm

/-- Rows without units. -/
theorem of_words : ∀ {us us' : List Located}, words us' = words us →
    (∀ u ∈ us, ∀ w, u.token ≠ .unit w) → Relined us us'
  | [], us', h, _ => by
    rw [words_eq_nil.1 h]
    exact .nil
  | u :: us, us', h, hunit => by
    obtain ⟨u', us', rfl, hu, hus⟩ := words_eq_cons.1 h
    rw [List.forall_mem_cons] at hunit
    exact .cons hu (fun _ w _ v hv _ _ hw => absurd hw (hunit.2 v (List.mem_of_mem_head? hv) w))
      (of_words hus hunit.2)

/-- Rows put together where no unit begins the second. -/
theorem append (h : Relined us us') (h' : Relined vs vs')
    (hunit : ∀ v ∈ vs.head?, ∀ w, v.token ≠ .unit w) : Relined (us ++ vs) (us' ++ vs') := by
  induction h with
  | nil => exact h'
  | @cons t t' ts ts' htoken hline h ih =>
    refine .cons htoken (fun n w hn u hu u' hu' hw => ?_) ih
    cases h with
    | nil => exact absurd hw (hunit u hu w)
    | cons => exact hline n w hn u hu u' hu' hw

end Relined

/-! ## Places -/

/-- The rows of the streams are on other lines. -/
def Stream.Relined (s s' : Stream) : Prop :=
  OpsLang.Relined s.row s'.row

namespace Stream.Relined

variable {s s' : Stream}

theorem token_eq (h : s.Relined s') : s'.token = s.token :=
  h.head_token rfl rfl

theorem size_eq (h : s.Relined s') : s'.size = s.size :=
  Nat.succ.inj h.length_eq

theorem next_eq (h : s.Relined s') : s'.next = s.next := by
  obtain ⟨t, ts⟩ := s
  obtain ⟨t', ts'⟩ := s'
  cases h with
  | cons _ _ h =>
    cases h with
    | nil => rfl
    | cons htoken _ _ => exact htoken

theorem advance (h : s.Relined s') : s.advance.Relined s'.advance := by
  obtain ⟨t, ts⟩ := s
  obtain ⟨t', ts'⟩ := s'
  cases h with
  | cons htoken hline h =>
    cases h with
    | nil => exact .cons htoken hline .nil
    | cons htoken' hline' h' => exact .cons htoken' hline' h'

/-- A unit behind a number is on the line of the number in both rows or in neither. -/
theorem line_iff (h : s.Relined s') {n w : String} (hn : s.token = .number n)
    (hw : s.advance.token = .unit w) : s'.advance.line = s'.line ↔ s.advance.line = s.line := by
  obtain ⟨t, ts⟩ := s
  obtain ⟨t', ts'⟩ := s'
  cases h with
  | cons _ hline h =>
    cases h with
    | nil => exact absurd (hn.symm.trans hw) (by simp)
    | cons => exact hline n w hn _ rfl _ rfl hw

end Stream.Relined

/-- From `s` and `s'` two readings have come to the same place of their rows. -/
structure Abreast (s s' p p' : Stream) : Prop where
  left : s.Reaches p
  right : s'.Reaches p'
  relined : p.Relined p'

namespace Abreast

variable {s s' p p' q q' : Stream}

theorem refl (h : s.Relined s') : Abreast s s' s s' :=
  ⟨.refl s, .refl s', h⟩

theorem trans (h : Abreast s s' p p') (h' : Abreast p p' q q') : Abreast s s' q q' :=
  ⟨h.left.trans h'.left, h.right.trans h'.right, h'.relined⟩

theorem advance (h : s.Relined s') : Abreast s s' s.advance s'.advance :=
  ⟨s.reaches_advance, s'.reaches_advance, h.advance⟩

end Abreast

/-! ## Diagnostics and outcomes -/

/-- The diagnostics are of one kind, list the same and found the same. -/
structure Diagnostic.Alike (d d' : Diagnostic) : Prop where
  kind : d'.kind = d.kind
  expected : d'.expected = d.expected
  found : d'.found = d.found

/-- The diagnostics are about the current token and say the same of the same token. -/
structure TellAlike (d d' : Stream → Diagnostic) : Prop where
  span : ∀ s, (d s).span = s.here.span
  span' : ∀ s, (d' s).span = s.here.span
  alike : ∀ s s' : Stream, s'.token = s.token → (d s).Alike (d' s')

variable {α β γ δ : Type} {R : α → β → Prop} {Q : γ → δ → Prop}

/-- From `s` and `s'` two readings came to related values at the same place of their rows, or to
diagnostics that say the same of the same place. -/
inductive Outcome.Matches (R : α → β → Prop) (s s' : Stream) : Outcome α → Outcome β → Prop
  | ok {a : α} {b : β} {p p' : Stream} (hR : R a b) (h : Abreast s s' p p') :
    Outcome.Matches R s s' (.ok a p) (.ok b p')
  | fail {d d' : Diagnostic} {p p' q q' : Stream} (h : Abreast s s' q q')
      (hspan : d.span = q.here.span) (hspan' : d'.span = q'.here.span) (hd : d.Alike d') :
    Outcome.Matches R s s' (.fail d p) (.fail d' p')
  | endless : Outcome.Matches R s s' .endless .endless

namespace Outcome.Matches

variable {s s' p p' : Stream} {o : Outcome α} {o' : Outcome β}

theorem of_abreast (h : Abreast s s' p p') (ho : o.Matches R p p' o') : o.Matches R s s' o' := by
  cases ho with
  | ok hR h' => exact .ok hR (h.trans h')
  | fail h' hspan hspan' hd => exact .fail (h.trans h') hspan hspan' hd
  | endless => exact .endless

theorem mono {R' : α → β → Prop} (h : o.Matches R s s' o') (hR : ∀ a b, R a b → R' a b) :
    o.Matches R' s s' o' := by
  cases h with
  | ok h hp => exact .ok (hR _ _ h) hp
  | fail hq hspan hspan' hd => exact .fail hq hspan hspan' hd
  | endless => exact .endless

theorem andThen (h : o.Matches R s s' o') {f : α → Stream → Outcome γ}
    {f' : β → Stream → Outcome δ}
    (hf : ∀ a b p p', R a b → Abreast s s' p p' → (f a p).Matches Q p p' (f' b p')) :
    (o.andThen f).Matches Q s s' (o'.andThen f') := by
  cases h with
  | ok hR hp => exact (hf _ _ _ _ hR hp).of_abreast hp
  | fail hq hspan hspan' hd => exact .fail hq hspan hspan' hd
  | endless => exact .endless

theorem map (h : o.Matches R s s' o') {f : α → γ} {f' : β → δ}
    (hf : ∀ a b, R a b → Q (f a) (f' b)) : (o.map f).Matches Q s s' (o'.map f') :=
  h.andThen fun a b _ _ hR hp => .ok (hf a b hR) (.refl hp.relined)

/-- A value stands against a related value. -/
theorem exists_ok {a : α} (h : (Outcome.ok a p).Matches R s s' o') :
    ∃ b p', o' = .ok b p' ∧ R a b ∧ Abreast s s' p p' := by
  cases h with
  | ok hR hp => exact ⟨_, _, rfl, hR, hp⟩

end Outcome.Matches

/-! ## Readers -/

namespace Reader

/-- At `s` and `s'` the two readers match. -/
def MatchesAt (R : α → β → Prop) (s s' : Stream) (r : Reader α) (r' : Reader β) : Prop :=
  (r s).Matches R s s' (r' s')

/-- On rows on other lines the two readers match. -/
def Matches (R : α → β → Prop) (r : Reader α) (r' : Reader β) : Prop :=
  ∀ ⦃s s' : Stream⦄, s.Relined s' → MatchesAt R s s' r r'

/-- The reader reads the same on other lines. -/
abbrev Steady (r : Reader α) : Prop :=
  Matches Eq r r

section At

variable {s s' : Stream} {r : Reader α} {r' : Reader β} {f : α → Reader γ} {f' : β → Reader δ}

theorem MatchesAt.bind (h : MatchesAt R s s' r r')
    (hf : ∀ a b p p', R a b → Abreast s s' p p' → MatchesAt Q p p' (f a) (f' b)) :
    MatchesAt Q s s' (r >>= f) (r' >>= f') :=
  Outcome.Matches.andThen h hf

theorem MatchesAt.pure {a : α} {b : β} (h : s.Relined s') (hR : R a b) :
    MatchesAt R s s' (Pure.pure a) (Pure.pure b) :=
  .ok hR (.refl h)

theorem MatchesAt.peek {f f' : Token → Reader γ} {Q : γ → γ → Prop} (h : s.Relined s')
    (hf : MatchesAt Q s s' (f s.token) (f' s.token)) :
    MatchesAt Q s s' (Reader.peek >>= f) (Reader.peek >>= f') := by
  unfold MatchesAt
  rw [bind_run, bind_run, peek_run, peek_run, h.token_eq]
  exact hf

theorem matchesAt_failAt {d d' : Stream → Diagnostic} (hd : TellAlike d d') (h : s.Relined s') :
    MatchesAt R s s' (failAt d) (failAt d') :=
  .fail (.refl h) (hd.span s) (hd.span' s') (hd.alike s s' h.token_eq)

end At

variable {r q : Reader α} {r' q' : Reader β} {f : α → Reader γ} {f' : β → Reader δ}

theorem Matches.mono {R' : α → β → Prop} (h : Matches R r r') (hR : ∀ a b, R a b → R' a b) :
    Matches R' r r' :=
  fun _ _ hs => Outcome.Matches.mono (h hs) hR

theorem Matches.bind (h : Matches R r r') (hf : ∀ a b, R a b → Matches Q (f a) (f' b)) :
    Matches Q (r >>= f) (r' >>= f') :=
  fun _ _ hs => MatchesAt.bind (h hs) fun a b _ _ hR hp => hf a b hR hp.relined

/-- Behind a reader that reads the same on other lines. -/
theorem Matches.after {Q : γ → δ → Prop} {f : α → Reader γ} {f' : α → Reader δ} (h : r.Steady)
    (hf : ∀ a, Matches Q (f a) (f' a)) : Matches Q (r >>= f) (r >>= f') :=
  h.bind fun a _ hab => hab ▸ hf a

theorem matches_pure {a : α} {b : β} (h : R a b) : Matches R (pure a) (pure b) :=
  fun _ _ hs => .pure hs h

theorem Matches.ite {c : Prop} [Decidable c] (h : Matches R r r') (h' : Matches R q q') :
    Matches R (if c then r else q) (if c then r' else q') := by
  split
  · exact h
  · exact h'

theorem matches_failAt {d d' : Stream → Diagnostic} (hd : TellAlike d d') :
    Matches R (failAt d) (failAt d') :=
  fun _ _ hs => matchesAt_failAt hd hs

theorem matches_here : Matches (fun t t' => t'.token = t.token) here here :=
  fun _ _ hs => .ok hs.token_eq (.refl hs)

/-! ### Readers that read the same -/

section Steady

variable {r q : Reader α} {f : α → Reader β}

theorem Steady.bind (h : r.Steady) (hf : ∀ a, (f a).Steady) : (r >>= f).Steady :=
  .after h hf

theorem steady_pure (a : α) : (pure a : Reader α).Steady :=
  matches_pure rfl

theorem Steady.ite {c : Prop} [Decidable c] (h : r.Steady) (h' : q.Steady) :
    (if c then r else q).Steady :=
  Matches.ite h h'

theorem steady_peek : peek.Steady :=
  fun _ _ hs => .ok hs.token_eq.symm (.refl hs)

theorem steady_peekNext : peekNext.Steady :=
  fun _ _ hs => .ok hs.next_eq.symm (.refl hs)

theorem steady_skip : skip.Steady :=
  fun _ _ hs => .ok rfl (.advance hs)

theorem tellAlike_expecting (ws : List String) :
    TellAlike (fun s => s.expecting ws) (fun s => s.expecting ws) where
  span _ := rfl
  span' _ := rfl
  alike s s' h := ⟨rfl, rfl, by simp only [Stream.expecting, Diagnostic.expecting, h]⟩

theorem steady_refuse (ws : List String) : (refuse ws : Reader α).Steady :=
  matches_failAt (tellAlike_expecting ws)

theorem tellAlike_tooDeep : TellAlike Stream.tooDeep Stream.tooDeep where
  span _ := rfl
  span' _ := rfl
  alike s s' h := ⟨rfl, rfl, by simp only [Stream.tooDeep, h]⟩

theorem matches_tooDeep : Matches R tooDeep tooDeep :=
  matches_failAt tellAlike_tooDeep

theorem steady_keyword (k : Keyword) : (keyword k).Steady :=
  steady_peek.bind fun _ => steady_skip.ite (steady_refuse _)

theorem steady_symbol (y : Symbol) : (symbol y).Steady :=
  steady_peek.bind fun _ => steady_skip.ite (steady_refuse _)

theorem steady_eat (t : Token) : (eat t).Steady :=
  steady_peek.bind fun _ => (steady_skip.bind fun _ => steady_pure _).ite (steady_pure _)

theorem steady_name (what : String) : (name what).Steady := by
  refine steady_peek.bind fun t => ?_
  split
  · exact steady_skip.bind fun _ => steady_pure _
  · exact steady_refuse _

theorem steady_member (what : String) : (member what).Steady := by
  refine steady_peek.bind fun t => ?_
  split
  · exact steady_skip.bind fun _ => steady_pure _
  · exact (steady_skip.bind fun _ => steady_pure _).ite (steady_refuse _)
  · exact steady_refuse _

end Steady

end Reader

/-! ## Repetitions -/

/-- The rounds go on in the same way, with related items. -/
inductive Turn.Matches (R : α → β → Prop) : Turn α → Turn β → Prop
  | stop : Turn.Matches R .stop .stop
  | pass : Turn.Matches R .pass .pass
  | item {a : α} {b : β} (h : R a b) : Turn.Matches R (.item a) (.item b)
  | last {a : α} {b : β} (h : R a b) : Turn.Matches R (.last a) (.last b)

theorem Turn.matches_refl (t : Turn α) : Turn.Matches Eq t t := by
  cases t with
  | stop => exact .stop
  | pass => exact .pass
  | item => exact .item rfl
  | last => exact .last rfl

namespace Reader

/-- Repetitions match if their rounds do. -/
theorem Matches.many {round : Reader (Turn α)} {round' : Reader (Turn β)}
    (h : Matches (Turn.Matches R) round round') :
    Matches (List.Forall₂ R) (Reader.many round) (Reader.many round') := by
  intro s s' hs
  induction hn : s.size using Nat.strongRecOn generalizing s s' with
  | _ n ih =>
    subst hn
    unfold MatchesAt
    rw [many_run, many_run]
    refine Outcome.Matches.andThen (h hs) fun turn turn' p p' hturn hp => ?_
    -- The rows are equally long, so both repetitions go on or both come to no end.
    have hsize : p'.size < s'.size ↔ p.size < s.size := by
      rw [hp.relined.size_eq, hs.size_eq]
    cases hturn with
    | stop => exact .ok .nil (.refl hp.relined)
    | last hR => exact .ok (.cons hR .nil) (.refl hp.relined)
    | pass =>
      simp only [afterRound, hsize]
      split
      · next hlt => exact ih _ hlt hp.relined rfl
      · exact .endless
    | item hR =>
      simp only [afterRound, hsize]
      split
      · next hlt => exact (ih _ hlt hp.relined rfl).map fun _ _ => .cons hR
      · exact .endless

theorem Steady.many {round : Reader (Turn α)} (h : round.Steady) :
    Steady (Reader.many round) := by
  have hround : Matches (Turn.Matches Eq) round round :=
    Matches.mono h fun t _ htu => htu ▸ t.matches_refl
  exact hround.many.mono fun _ _ h => by rwa [List.forall₂_eq_eq_eq] at h

theorem steady_semicolons : semicolons.Steady :=
  Steady.bind (.many ((steady_eat _).bind fun _ => (steady_pure _).ite (steady_pure _)))
    fun _ => steady_pure _

end Reader

end OpsLang
