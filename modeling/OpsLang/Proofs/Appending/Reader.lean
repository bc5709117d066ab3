import OpsLang.Proofs.NestingLimit
import OpsLang.Proofs.Termination

/-!
# Readers on a row with more behind it

A row `us` stands before its end `e`, or before any other stream. `Persists e us long o` says
that the outcome `o` before the end is also that of `long`, the reading before a stream, unless
it was made at the end itself : a value is read again, and so is a fault that lies before the
end. Where all of the row went into a value, the next token could belong to it, so the value is
read again only before a token that parts what stands before it from what is behind
(`Token.Parts`).

There are two exceptions, both at the nesting limit. A name that is the last token and too deep
for a value is passed over if `=` turns out to stand behind it (`Persisting.moved`). And an
activity behind `confirm` that runs into the end may turn out to be one, while the condition
that was read in its place is too deep (`OpenConfirm`).

`Persists` passes through sequencing (`PersistsAt.bind`) and repetition (`PersistsAt.many`).
-/

namespace OpsLang

/-- Nothing that can stop before the token goes on with it. -/
def Token.Parts (t : Token) : Prop :=
  t = .keyword .end_ ∨ t = .keyword .main

/-- The name that a token is. -/
def Token.name? : Token → Option String
  | .name n => some n
  | _ => none

/-- What a token is behind a dot or as the name of a field. -/
def Token.member? : Token → Option String
  | .name n => some n
  | .unit u => if u.toList.all isWordChar then some u else none
  | _ => none

/-- The diagnostic says that a construct would be open inside too many others. -/
def Diagnostic.IsTooDeep (d : Diagnostic) : Prop :=
  ∃ s : Stream, d = s.tooDeep

/-- What stands behind some `confirm` runs into the end `e` when it is read as an activity. -/
def OpenConfirm (e : Located) (us : List Located) : Prop :=
  ∃ xs c ys room d s, us = xs ++ c :: ys ∧ c.token = .keyword .confirm ∧
    Grammar.activityReference (Grammar.expression room) ((⟨e, []⟩ : Stream).behind ys) =
      .fail d s ∧ d.span = e.span

/-- The fault lies at the last token of the row, which is a name. -/
def AtLastName (us : List Located) (d : Diagnostic) : Prop :=
  ∃ u ∈ us.getLast?, (∃ n, u.token = .name n) ∧ d.span = u.span

theorem OpenConfirm.of_suffix {e : Located} {us vs : List Located} (h : OpenConfirm e vs)
    (hvs : vs <:+ us) : OpenConfirm e us := by
  obtain ⟨xs, c, ys, room, d, s, rfl, hc, hactivity, hd⟩ := h
  obtain ⟨zs, rfl⟩ := hvs
  exact ⟨zs ++ xs, c, ys, room, d, s, (List.append_assoc _ _ _).symm, hc, hactivity, hd⟩

theorem AtLastName.of_suffix {us vs : List Located} {d : Diagnostic} (h : AtLastName vs d)
    (hvs : vs <:+ us) : AtLastName us d := by
  obtain ⟨u, hu, hd⟩ := h
  obtain ⟨zs, rfl⟩ := hvs
  exact ⟨u, by simp [List.getLast?_append, Option.mem_def.1 hu], hd⟩

/-! ## Outcomes -/

/-- The fault `d` that lies in the row `us` is found before `t` as well, where the outcome is
`o`. -/
inductive Persisting {α : Type} (us : List Located) (d : Diagnostic) (t : Stream)
    (o : Outcome α) : Prop
  | same {s : Stream} (h : o = .fail d s)
  /-- What is too deep is found a token later. -/
  | moved (hd : d.IsTooDeep) (hname : AtLastName us d) (ht : t.token = .symbol .assign)
    (ho : o.IsTooDeep)

/-- The outcome `o` before the end `e` of the row `us` is that of `long` before any stream. -/
inductive Persists {α : Type} (e : Located) (us : List Located) (long : Stream → Outcome α) :
    Outcome α → Prop
  | ok {a : α} {vs : List Located} (hvs : vs <:+ us)
      (h : ∀ t : Stream, (vs = [] → t.token.Parts) → long t = .ok a (t.behind vs)) :
      Persists e us long (.ok a ((⟨e, []⟩ : Stream).behind vs))
  | atEnd {d : Diagnostic} {s : Stream} (hd : d.span = e.span) : Persists e us long (.fail d s)
  | before {d : Diagnostic} {s : Stream} (hus : us ≠ [])
      (h : ∀ t, Persisting us d t (long t)) : Persists e us long (.fail d s)
  | deep {o : Outcome α} (ho : o.IsTooDeep) (hopen : OpenConfirm e us) : Persists e us long o
  | endless : Persists e us long .endless

section Outcomes

variable {α β : Type} {e : Located} {us vs : List Located} {d : Diagnostic} {t : Stream}
  {o : Outcome α} {long long' : Stream → Outcome α}

theorem Persisting.of_suffix (h : Persisting vs d t o) (hvs : vs <:+ us) :
    Persisting us d t o := by
  cases h with
  | same h => exact .same h
  | moved hd hname ht ho => exact .moved hd (hname.of_suffix hvs) ht ho

theorem Persisting.andThen (h : Persisting us d t o) (f : α → Stream → Outcome β) :
    Persisting us d t (o.andThen f) := by
  cases h with
  | same h => exact .same (by rw [h, Outcome.andThen_fail])
  | moved hd hname ht ho => exact .moved hd hname ht (ho.andThen f)

namespace Persists

/-- A value for which all of the row was taken. -/
theorem ok_nil {a : α} (h : ∀ t : Stream, t.token.Parts → long t = .ok a t) :
    Persists e us long (.ok a ⟨e, []⟩) := by
  have hrest : ∀ t : Stream, (([] : List Located) = [] → t.token.Parts) →
      long t = .ok a (t.behind []) := fun t ht => h t (ht rfl)
  exact .ok List.nil_suffix hrest

theorem of_suffix (h : Persists e vs long o) (hvs : vs <:+ us) : Persists e us long o := by
  cases h with
  | ok hws h => exact .ok (hws.trans hvs) h
  | atEnd hd => exact .atEnd hd
  | before hne h =>
    refine .before ?_ fun t => (h t).of_suffix hvs
    rintro rfl
    exact hne (List.suffix_nil.1 hvs)
  | deep ho hopen => exact .deep ho (hopen.of_suffix hvs)
  | endless => exact .endless

/-- Another reading will do that differs at most where the row is empty and the next token
parts nothing. -/
theorem congr (h : Persists e us long o)
    (hlong : ∀ t : Stream, (us = [] → t.token.Parts) → long' t = long t) :
    Persists e us long' o := by
  cases h with
  | ok hvs h =>
    refine .ok hvs fun t ht => ?_
    rw [hlong t, h t ht]
    rintro rfl
    exact ht (List.suffix_nil.1 hvs)
  | atEnd hd => exact .atEnd hd
  | before hne h =>
    refine .before hne fun t => ?_
    rw [hlong t fun hus => absurd hus hne]
    exact h t
  | deep ho hopen => exact .deep ho hopen
  | endless => exact .endless

/-- At the end of the row only a value says anything of another reading. -/
theorem of_ne_ok (h : Persists e [] long o) (ho : ∀ a s, o ≠ .ok a s) :
    Persists e [] long' o := by
  cases h with
  | ok => exact absurd rfl (ho _ _)
  | atEnd hd => exact .atEnd hd
  | before hne h => exact absurd rfl hne
  | deep ho hopen => exact .deep ho hopen
  | endless => exact .endless

/-- Going on from a value, in a way that may depend on the stream. -/
theorem andThen (h : Persists e us long o) {f : α → Stream → Outcome β}
    {g : Stream → α → Stream → Outcome β}
    (hfg : ∀ a vs, vs <:+ us →
      Persists e vs (fun t => g t a (t.behind vs)) (f a ((⟨e, []⟩ : Stream).behind vs))) :
    Persists e us (fun t => (long t).andThen (g t)) (o.andThen f) := by
  cases h with
  | @ok a vs hvs h =>
    rw [Outcome.andThen_ok]
    have hrest := hfg a vs hvs
    generalize f a ((⟨e, []⟩ : Stream).behind vs) = o' at hrest
    refine (hrest.congr fun t ht => ?_).of_suffix hvs
    rw [h t ht, Outcome.andThen_ok]
  | atEnd hd => exact .atEnd hd
  | before hne h => exact .before hne fun t => (h t).andThen (g t)
  | deep ho hopen => exact .deep (ho.andThen f) hopen
  | endless => exact .endless

theorem map (h : Persists e us long o) (f : α → β) :
    Persists e us (fun t => (long t).map f) (o.map f) :=
  h.andThen fun _ _ _ => .ok List.suffix_rfl fun _ _ => rfl

end Persists

end Outcomes

/-! ## Readers -/

theorem Stream.size_behind_lt_size_behind {s : Stream} {us vs : List Located} :
    (s.behind vs).size < (s.behind us).size ↔ vs.length < us.length := by
  rw [size_behind, size_behind, Nat.add_lt_add_iff_right]

namespace Reader

variable {α β : Type} {e : Located} {us vs : List Located}

/-- What takes a token comes to no value at the end. -/
theorem Proceeds.ne_ok {r : Reader α} (h : r.Proceeds) (he : e.token = .eof) (a : α)
    (s : Stream) : r ⟨e, []⟩ ≠ .ok a s := by
  intro hr
  have hpast := h ⟨e, []⟩ (Stream.closed_single.2 he)
  rw [hr] at hpast
  exact Nat.not_lt_zero _ hpast.2

/-- What the reader comes to before the end `e` of the row it comes to before any stream. -/
def PersistsAt (r : Reader α) (e : Located) (us : List Located) : Prop :=
  Persists e us (fun t => r (t.behind us)) (r ((⟨e, []⟩ : Stream).behind us))

/-- The diagnostic is about the current token alone. -/
structure IsAboutHere (d : Stream → Diagnostic) : Prop where
  span : ∀ s, (d s).span = s.here.span
  here : ∀ s s' : Stream, s.here = s'.here → d s = d s'

theorem isAboutHere_expecting (expected : List String) :
    IsAboutHere fun s => s.expecting expected where
  span _ := rfl
  here s s' h := by simp only [Stream.expecting, Stream.token, h]

theorem isAboutHere_tooDeep : IsAboutHere Stream.tooDeep where
  span _ := rfl
  here s s' h := by simp only [Stream.tooDeep, Stream.token, h]

namespace PersistsAt

variable {r : Reader α} {f : α → Reader β}

theorem bind (h : r.PersistsAt e us) (hf : ∀ a vs, vs <:+ us → (f a).PersistsAt e vs) :
    (r >>= f).PersistsAt e us :=
  h.andThen hf

theorem pure (a : α) : (Pure.pure a : Reader α).PersistsAt e us :=
  .ok List.suffix_rfl fun _ _ => rfl

theorem failAt {d : Stream → Diagnostic} (hd : IsAboutHere d) :
    (Reader.failAt d : Reader α).PersistsAt e us := by
  cases us with
  | nil => exact .atEnd (hd.span _)
  | cons u us =>
    refine .before (List.cons_ne_nil _ _) fun t => .same (s := t.behind (u :: us)) ?_
    exact congrArg (Outcome.fail · _) (hd.here _ _ rfl)

/-- A fault that is the same before all streams. -/
theorem of_fail {d : Stream → Diagnostic} {g : Stream → Stream} (hus : us ≠ [])
    (hd : ∀ t t', d t = d t') (h : ∀ t : Stream, r (t.behind us) = .fail (d t) (g t)) :
    r.PersistsAt e us := by
  unfold PersistsAt
  rw [h]
  exact .before hus fun t => .same (hd t _ ▸ h t)

theorem refuse (expected : List String) : (Reader.refuse expected : Reader α).PersistsAt e us :=
  failAt (isAboutHere_expecting expected)

theorem tooDeep : (Reader.tooDeep : Reader α).PersistsAt e us :=
  failAt isAboutHere_tooDeep

theorem ite {c : Prop} [Decidable c] {r' : Reader α} (h : c → r.PersistsAt e us)
    (h' : ¬c → r'.PersistsAt e us) : (if c then r else r').PersistsAt e us := by
  split
  · next hc => exact h hc
  · next hc => exact h' hc

/-- Passing over the first token of the row. -/
theorem skip {u : Located} : Reader.skip.PersistsAt e (u :: us) := by
  unfold PersistsAt
  rw [skip_run, Stream.advance_behind_cons]
  exact .ok (List.suffix_cons u us) fun t _ => by rw [skip_run, Stream.advance_behind_cons]

/-- Looking at the current token, where a token that parts what stands before it from what is
behind is met like the end. -/
theorem peek {f : Token → Reader β}
    (hend : us = [] → ∀ t : Stream, t.token.Parts → f t.token t = f e.token t)
    (hf : (f ((⟨e, []⟩ : Stream).behind us).token).PersistsAt e us) :
    (Reader.peek >>= f).PersistsAt e us := by
  refine Persists.congr hf fun t ht => ?_
  cases us with
  | nil => exact hend rfl t (ht rfl)
  | cons u us => rfl

/-- Looking at the current token, where the end is refused. -/
theorem peek_ne_ok {f : Token → Reader β} (hend : ∀ a s, f e.token ⟨e, []⟩ ≠ .ok a s)
    (hf : (f ((⟨e, []⟩ : Stream).behind us).token).PersistsAt e us) :
    (Reader.peek >>= f).PersistsAt e us := by
  cases us with
  | nil => exact hf.of_ne_ok hend
  | cons u us => exact hf

theorem here_cons {u : Located} {f : Located → Reader β} (hf : (f u).PersistsAt e (u :: us)) :
    (Reader.here >>= f).PersistsAt e (u :: us) :=
  hf

/-- Looking at the place of the current token, in front of what takes a token. -/
theorem here {f : Located → Reader β} (he : e.token = .eof) (hproceeds : ∀ u, (f u).Proceeds)
    (hf : ∀ u, (f u).PersistsAt e us) : (Reader.here >>= f).PersistsAt e us := by
  cases us with
  | cons u us => exact hf u
  | nil => exact (hf e).of_ne_ok ((hproceeds e).ne_ok he)

end PersistsAt

/-! ### Small readers -/

section Small

variable (he : e.token = .eof)

include he

/-- A reader that takes the current token for a value, or refuses it. -/
theorem persistsAt_take {r : Reader α} {g : Token → Option α} {d : Stream → Diagnostic}
    (hd : IsAboutHere d) (hg : g .eof = none)
    (hr : ∀ s, r s = match g s.token with
      | some a => .ok a s.advance
      | none => .fail (d s) s) : r.PersistsAt e us := by
  cases us with
  | nil =>
    have hend : r ⟨e, []⟩ = .fail (d ⟨e, []⟩) ⟨e, []⟩ := by
      rw [hr, Stream.token, he, hg]
    unfold PersistsAt
    rw [Stream.behind_nil, hend]
    exact .atEnd (hd.span _)
  | cons u us =>
    unfold PersistsAt
    simp only [hr, Stream.token_behind_cons, Stream.advance_behind_cons]
    cases g u.token with
    | some a => exact .ok (List.suffix_cons u us) fun t _ => rfl
    | none => exact PersistsAt.failAt hd

theorem persistsAt_keyword (k : Keyword) : (keyword k).PersistsAt e us := by
  refine persistsAt_take he (g := fun t => if t = .keyword k then some () else none)
    (isAboutHere_expecting ["'" ++ k.text ++ "'"]) rfl fun s => ?_
  rw [keyword_run]
  split <;> simp [*]

theorem persistsAt_symbol (y : Symbol) : (symbol y).PersistsAt e us := by
  refine persistsAt_take he (g := fun t => if t = .symbol y then some () else none)
    (isAboutHere_expecting ["'" ++ y.text ++ "'"]) rfl fun s => ?_
  rw [symbol_run]
  split <;> simp [*]

theorem persistsAt_name (what : String) : (name what).PersistsAt e us := by
  refine persistsAt_take he (g := Token.name?) (isAboutHere_expecting [what]) rfl fun s => ?_
  rw [name_run]
  cases s.token <;> rfl

theorem persistsAt_member (what : String) : (member what).PersistsAt e us := by
  refine persistsAt_take he (g := Token.member?) (isAboutHere_expecting [what]) rfl fun s => ?_
  rw [member_run]
  unfold Token.member?
  cases s.token with
  | unit u => by_cases hu : u.toList.all isWordChar <;> simp [hu]
  | _ => rfl

theorem persistsAt_eat {t : Token} (ht : t ≠ .eof) (hparts : ¬t.Parts) :
    (eat t).PersistsAt e us := by
  unfold PersistsAt
  simp only [eat_run]
  cases us with
  | nil =>
    have hend : (⟨e, []⟩ : Stream).token ≠ t := fun h => ht (h.symm.trans he)
    rw [Stream.behind_nil, if_neg hend]
    refine .ok List.suffix_rfl fun s hs => ?_
    have hs' : s.token ≠ t := by
      rintro rfl
      exact hparts (hs rfl)
    rw [Stream.behind_nil, if_neg hs']
  | cons u us =>
    simp only [Stream.token_behind_cons, Stream.advance_behind_cons]
    split
    · exact .ok (List.suffix_cons u us) fun _ _ => rfl
    · exact .ok List.suffix_rfl fun _ _ => rfl

end Small

/-! ### Repetition -/

theorem PersistsAt.many {round : Reader (Turn α)}
    (h : ∀ vs, vs <:+ us → round.PersistsAt e vs) : Reader.PersistsAt (Reader.many round) e us := by
  induction hn : us.length using Nat.strongRecOn generalizing us with
  | _ n ih =>
    subst hn
    unfold PersistsAt
    simp only [many_run]
    refine (h us List.suffix_rfl).andThen fun turn vs hvs => ?_
    have hsize (s : Stream) : (s.behind vs).size < (s.behind us).size ↔ vs.length < us.length :=
      Stream.size_behind_lt_size_behind
    obtain ⟨as, heq⟩ | ⟨g, heq⟩ := afterRound_cases turn
    · simp only [heq]
      exact .ok List.suffix_rfl fun _ _ => rfl
    · simp only [heq, hsize]
      by_cases hlt : vs.length < us.length
      · simp only [hlt, if_true]
        exact (ih _ hlt (fun ws hws => h ws (hws.trans hvs)) rfl).map g
      · simp only [hlt, if_false]
        exact .endless

end Reader

end OpsLang
