import OpsLang.Proofs.Spelling.Expr
import OpsLang.Proofs.Termination

/-!
# Tokens that are read as a value

`Reader.Takes` says what was read if a reading came to a value. `Reader.Yields` says the
converse : before a token of the right kind the reader takes just the tokens `ts` and comes
to a value with the property `P`. It is put together along a production, with one lemma for
each small reader in front of the rest, and along the rounds of a repetition.
-/

namespace OpsLang

/-- The token that stands first where the tokens are before one that is `ok`. -/
def First (ok : Token → Prop) : List Token → Token → Prop
  | [], t => ok t
  | u :: _, t => t = u

theorem first_behind {ok : Token → Prop} {s : Stream} {us : List Located} (hs : ok s.token) :
    First ok (words us) (s.behind us).token := by
  cases us with
  | nil => exact hs
  | cons u us => rfl

theorem token_behind_of_words {s : Stream} {us : List Located} {t : Token} {ts : List Token}
    (h : words us = t :: ts) : (s.behind us).token = t := by
  obtain ⟨u, us, rfl, hu, -⟩ := words_eq_cons.1 h
  exact hu

namespace Reader

variable {α β : Type}

/-- Before a token that is `ok`, the reader takes the tokens `ts` and no more, and comes to a
value with the property `P`. -/
def Yields (r : Reader α) (ok : Token → Prop) (ts : List Token) (P : α → Prop) : Prop :=
  ∀ ⦃us s⦄, words us = ts → Fused us → ok s.token → ∃ a, r (s.behind us) = .ok a s ∧ P a

namespace Yields

variable {r : Reader α} {f : β → Reader α} {ok ok' : Token → Prop} {t : Token}
  {ts ts' : List Token} {P P' : α → Prop} {Q : β → Prop}

theorem mono (h : r.Yields ok ts P) (hok : ∀ t, ok' t → ok t) (hP : ∀ a, P a → P' a) :
    r.Yields ok' ts P' := by
  intro us s hus hf hs
  obtain ⟨a, hrun, ha⟩ := h hus hf (hok _ hs)
  exact ⟨a, hrun, hP a ha⟩

theorem pure {a : α} (h : P a) : (Pure.pure a : Reader α).Yields ok [] P := by
  intro us s hus _ _
  obtain rfl := words_eq_nil.1 hus
  exact ⟨a, rfl, h⟩

/-- One reader behind another, whose tokens stand before those of the second. -/
theorem bind {r : Reader β} (h : r.Yields ok ts Q) (hok : ∀ t, First ok' ts' t → ok t)
    (hf : ∀ b, Q b → (f b).Yields ok' ts' P) : (r >>= f).Yields ok' (ts ++ ts') P := by
  intro us s hus hfused hs
  obtain ⟨vs, vs', rfl, rfl, rfl⟩ := words_eq_append.1 hus
  obtain ⟨b, hrun, hb⟩ := h rfl hfused.left (hok _ (first_behind hs))
  obtain ⟨a, hrun', ha⟩ := hf b hb rfl hfused.right hs
  exact ⟨a, by rw [Stream.behind_append, bind_run, hrun, Outcome.andThen_ok, hrun'], ha⟩

/-- One reader behind another, when it is known which token the first one stops at. -/
theorem andThen {r : Reader β} (h : r.Yields ok ts Q) (ht : ok t)
    (hf : ∀ b, Q b → (f b).Yields ok' (t :: ts') P) :
    (r >>= f).Yields ok' (ts ++ t :: ts') P :=
  h.bind (by rintro _ rfl; exact ht) hf

/-- The second reader takes nothing. -/
theorem bind_nil {r : Reader β} (h : r.Yields ok ts Q) (hf : ∀ b, Q b → (f b).Yields ok [] P) :
    (r >>= f).Yields ok ts P := by
  have hok : ∀ t, First ok [] t → ok t := fun _ ht => ht
  have hall := h.bind hok hf
  rwa [List.append_nil] at hall

theorem map {r : Reader β} {g : β → α} (h : r.Yields ok ts Q) (hg : ∀ b, Q b → P (g b)) :
    (r >>= fun b => Pure.pure (g b)).Yields ok ts P :=
  h.bind_nil fun b hb => .pure (hg b hb)

/-! ### One token before the rest -/

/-- A reader that takes the one token at which it stands. -/
theorem cons {r : Reader β} {b : β} (hr : ∀ s : Stream, s.token = t → r s = .ok b s.advance)
    (h : (f b).Yields ok ts P) : (r >>= f).Yields ok (t :: ts) P := by
  intro us s hus hfused hs
  obtain ⟨u, us, rfl, rfl, rfl⟩ := words_eq_cons.1 hus
  obtain ⟨a, hrun, ha⟩ := h rfl hfused.tail hs
  exact ⟨a, by rw [bind_run, hr _ rfl, Stream.advance_behind_cons, Outcome.andThen_ok, hrun], ha⟩

/-- A reader that takes nothing. -/
theorem look {r : Reader β} {b : β} (hr : ∀ s : Stream, First ok ts s.token → r s = .ok b s)
    (h : (f b).Yields ok ts P) : (r >>= f).Yields ok ts P := by
  intro us s hus hfused hs
  obtain ⟨a, hrun, ha⟩ := h hus hfused hs
  have hfirst : First ok ts (s.behind us).token := by
    rw [← hus]
    exact first_behind hs
  exact ⟨a, by rw [bind_run, hr _ hfirst, Outcome.andThen_ok, hrun], ha⟩

theorem skip {f : Unit → Reader α} (h : (f ()).Yields ok ts P) :
    (Reader.skip >>= f).Yields ok (t :: ts) P :=
  cons (fun _ _ => rfl) h

theorem keyword {k : Keyword} {f : Unit → Reader α} (h : (f ()).Yields ok ts P) :
    (Reader.keyword k >>= f).Yields ok (.keyword k :: ts) P :=
  cons (fun _ hs => keyword_eq_ok.2 ⟨hs, rfl⟩) h

theorem symbol {y : Symbol} {f : Unit → Reader α} (h : (f ()).Yields ok ts P) :
    (Reader.symbol y >>= f).Yields ok (.symbol y :: ts) P :=
  cons (fun _ hs => symbol_eq_ok.2 ⟨hs, rfl⟩) h

theorem name {what n : String} {f : String → Reader α} (h : (f n).Yields ok ts P) :
    (Reader.name what >>= f).Yields ok (.name n :: ts) P :=
  cons (fun _ hs => name_eq_ok.2 ⟨hs, rfl⟩) h

theorem member {what n : String} {f : String → Reader α} (ht : t.IsMember n)
    (h : (f n).Yields ok ts P) : (Reader.member what >>= f).Yields ok (t :: ts) P :=
  cons (fun _ hs => member_eq_ok.2 ⟨by rwa [hs], rfl⟩) h

theorem eat {f : Bool → Reader α} (h : (f true).Yields ok ts P) :
    (Reader.eat t >>= f).Yields ok (t :: ts) P :=
  cons (fun _ hs => by rw [eat_run, if_pos hs]) h

theorem eat_not {f : Bool → Reader α} (ht : ∀ u, First ok ts u → u ≠ t)
    (h : (f false).Yields ok ts P) : (Reader.eat t >>= f).Yields ok ts P :=
  look (fun _ hs => by rw [eat_run, if_neg (ht _ hs)]) h

theorem here {f : Located → Reader α} (h : ∀ u, (f u).Yields ok ts P) :
    (Reader.here >>= f).Yields ok ts P :=
  fun _ _ hus hfused hs => h _ hus hfused hs

theorem peek {f : Token → Reader α} (h : (f t).Yields ok (t :: ts) P) :
    (Reader.peek >>= f).Yields ok (t :: ts) P :=
  look (fun s hs => congrArg (fun t => Outcome.ok t s) hs) h

theorem peek_nil {f : Token → Reader α} (h : ∀ t, ok t → (f t).Yields ok [] P) :
    (Reader.peek >>= f).Yields ok [] P := by
  intro us s hus hfused hs
  obtain rfl := words_eq_nil.1 hus
  exact h _ hs rfl hfused hs

/-- No semicolons stand where the tokens begin. -/
theorem semicolons {f : Unit → Reader α}
    (ht : ∀ u, First ok ts u → u ≠ .symbol .semicolon) (h : (f ()).Yields ok ts P) :
    (Reader.semicolons >>= f).Yields ok ts P :=
  look (fun _ hs => Grammar.semicolons_of_ne (ht _ hs)) h

end Yields

/-! ## Rounds -/

section Rounds

variable {round : Reader (Turn α)} {ok ok' : Token → Prop} {ts ts' : List Token}
  {P : α → Prop} {Q : List α → Prop}

theorem Yields.many_stop (h : round.Yields ok ts (· = .stop)) :
    Yields (many round) ok ts (· = []) := by
  intro us s hus hf hs
  obtain ⟨_, hrun, rfl⟩ := h hus hf hs
  exact ⟨[], Reader.many_stop hrun, rfl⟩

theorem Yields.many_last (h : round.Yields ok ts fun t => ∃ a, t = .last a ∧ P a) :
    Yields (many round) ok ts fun as => ∃ a, as = [a] ∧ P a := by
  intro us s hus hf hs
  obtain ⟨_, hrun, a, rfl, ha⟩ := h hus hf hs
  exact ⟨[a], Reader.many_last hrun, a, rfl, ha⟩

/-- A round that keeps an item, and the rounds after it. -/
theorem Yields.many_item (h : round.Yields ok ts fun t => ∃ a, t = .item a ∧ P a)
    (hts : ts ≠ []) (hok : ∀ t, First ok' ts' t → ok t) (hrest : Yields (many round) ok' ts' Q) :
    Yields (many round) ok' (ts ++ ts') fun as => ∃ a as', as = a :: as' ∧ P a ∧ Q as' := by
  intro us s hus hf hs
  obtain ⟨vs, vs', rfl, rfl, rfl⟩ := words_eq_append.1 hus
  obtain ⟨_, hrun, a, rfl, ha⟩ := h rfl hf.left (hok _ (first_behind hs))
  obtain ⟨as, hrun', has⟩ := hrest rfl hf.right hs
  have hlt : (s.behind vs').size < ((s.behind vs').behind vs).size := by
    have hsize : ((s.behind vs').behind vs).size = vs.length + (s.behind vs').size :=
      Stream.size_behind
    have hpos := List.length_pos_iff.2 fun h => hts (words_eq_nil.2 h)
    omega
  refine ⟨a :: as, ?_, a, as, rfl, ha, has⟩
  rw [Stream.behind_append, Reader.many_item hrun hlt, hrun', Outcome.map_ok]

end Rounds

end Reader

end OpsLang
