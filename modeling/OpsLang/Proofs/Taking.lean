import OpsLang.Proofs.Productions
import OpsLang.Proofs.Spelling.Expr

/-!
# What readers take

`Reader.Takes r P` says that a value which `r` reads from a stream that ends is in the
relation `P` to the tokens taken for it. The relation is built along the reader : that of a
sequence splits the tokens (`Takes.bind`), and that of a repetition is the closure of the
relation of its rounds (`Rounds`).
-/

namespace OpsLang

/-- A stream before a rest is known to stand before it with its first token too. -/
theorem Stream.Ends.eq_behind_cons {s s' : Stream} {us : List Located} (hs : s.Ends)
    (h : s.token ≠ .eof) (hb : s.advance = s'.behind us) : s = s'.behind (s.here :: us) := by
  have hcons : s.here :: us = [s.here] ++ us := rfl
  rw [hcons, Stream.behind_append, ← hb, hs.behind_here h]

namespace Reader

variable {α β : Type}

/-- A value is in the relation `P` to the tokens that the reader takes for it. -/
def Takes (r : Reader α) (P : α → List Token → Prop) : Prop :=
  ∀ ⦃s a s'⦄, s.Ends → r s = .ok a s' → ∃ us, s = s'.behind us ∧ P a (words us)

/-- What a repetition takes, when its rounds take `R`. -/
inductive Rounds (R : Turn α → List Token → Prop) : List α → List Token → Prop
  | stop {ts : List Token} (h : R .stop ts) : Rounds R [] ts
  | pass {as : List α} {ts us : List Token} (h : R .pass ts) (hs : Rounds R as us) :
      Rounds R as (ts ++ us)
  | item {a : α} {as : List α} {ts us : List Token} (h : R (.item a) ts) (hs : Rounds R as us) :
      Rounds R (a :: as) (ts ++ us)
  | last {a : α} {ts : List Token} (h : R (.last a) ts) : Rounds R [a] ts

variable {r : Reader α} {P P' : α → List Token → Prop} {f : α → Reader β}
  {Q : α → β → List Token → Prop}

theorem Takes.mono (h : r.Takes P) (hP : ∀ a ts, P a ts → P' a ts) : r.Takes P' := by
  intro s a s' hs hr
  obtain ⟨us, hus, ha⟩ := h hs hr
  exact ⟨us, hus, hP a _ ha⟩

theorem Takes.bind (h : r.Takes P) (hf : ∀ a, (f a).Takes (Q a)) :
    (r >>= f).Takes fun b ts => ∃ a us vs, P a us ∧ Q a b vs ∧ ts = us ++ vs := by
  intro s b s' hs hr
  rw [bind_run, Outcome.andThen_eq_ok] at hr
  obtain ⟨a, s₁, hr, hfa⟩ := hr
  obtain ⟨us, rfl, ha⟩ := h hs hr
  obtain ⟨vs, rfl, hb⟩ := hf a hs.of_behind hfa
  exact ⟨us ++ vs, Stream.behind_append.symm, a, words us, words vs, ha, hb, words_append⟩

theorem Takes.ite {c : Prop} [Decidable c] {r' : Reader α} (h : c → r.Takes P)
    (h' : ¬c → r'.Takes P) : (if c then r else r').Takes P := by
  split
  · next hc => exact h hc
  · next hc => exact h' hc

theorem takes_pure (a : α) : (pure a : Reader α).Takes fun b ts => b = a ∧ ts = [] := by
  rintro s b s' - hr
  obtain ⟨rfl, rfl⟩ := Outcome.ok.inj hr
  exact ⟨[], rfl, rfl, rfl⟩

theorem takes_peek : peek.Takes fun _ ts => ts = [] := by
  rintro s b s' - hr
  obtain ⟨-, rfl⟩ := Outcome.ok.inj hr
  exact ⟨[], rfl, rfl⟩

theorem takes_failAt (d : Stream → Diagnostic) : (failAt d : Reader α).Takes P := by
  rintro s b s' - hr
  cases hr

/-- Passing over a token that is not the end takes it. -/
theorem eq_behind_of_advance {s s' : Stream} (hs : s.Ends) (h : s.token ≠ .eof)
    (hadv : s.advance = s') : s = s'.behind [s.here] := by
  rw [← hadv, hs.behind_here h]

theorem takes_keyword (k : Keyword) : (keyword k).Takes fun _ ts => ts = [.keyword k] := by
  rintro s a s' hs hr
  obtain ⟨ht, hadv⟩ := keyword_eq_ok.1 hr
  exact ⟨[s.here], eq_behind_of_advance hs (by simp [ht]) hadv, congrArg (fun t => [t]) ht⟩

theorem takes_symbol (y : Symbol) : (symbol y).Takes fun _ ts => ts = [.symbol y] := by
  rintro s a s' hs hr
  obtain ⟨ht, hadv⟩ := symbol_eq_ok.1 hr
  exact ⟨[s.here], eq_behind_of_advance hs (by simp [ht]) hadv, congrArg (fun t => [t]) ht⟩

theorem takes_name (what : String) : (name what).Takes fun n ts => ts = [.name n] := by
  rintro s n s' hs hr
  obtain ⟨ht, hadv⟩ := name_eq_ok.1 hr
  exact ⟨[s.here], eq_behind_of_advance hs (by simp [ht]) hadv, congrArg (fun t => [t]) ht⟩

theorem takes_member (what : String) :
    (member what).Takes fun n ts => ∃ t, t.IsMember n ∧ ts = [t] := by
  rintro s n s' hs hr
  obtain ⟨ht, hadv⟩ := member_eq_ok.1 hr
  refine ⟨[s.here], eq_behind_of_advance hs ?_ hadv, s.token, ht, rfl⟩
  rcases ht with ht | ⟨ht, -⟩ <;> simp [ht]

/-- A reader that begins with an optional token. -/
theorem Takes.ifEat {t : Token} (ht : t ≠ .eof) {r' : Reader α} (h : r.Takes P)
    (h' : r'.Takes P') :
    (do if ← eat t then r else r' : Reader α).Takes fun a ts =>
      (∃ us, P a us ∧ ts = t :: us) ∨ P' a ts := by
  intro s a s' hs hr
  rw [bind_run, eat_run] at hr
  split at hr
  · next hst =>
    obtain ⟨us, hus, ha⟩ := h hs.advance hr
    refine ⟨s.here :: us, hs.eq_behind_cons (fun he => ht (hst.symm.trans he)) hus, .inl ?_⟩
    exact ⟨words us, ha, congrArg (· :: words us) hst⟩
  · obtain ⟨us, hus, ha⟩ := h' hs hr
    exact ⟨us, hus, .inr ha⟩

theorem takes_many {round : Reader (Turn α)} {R : Turn α → List Token → Prop}
    (h : round.Takes R) : Takes (many round) (Rounds R) := by
  intro s as s' hs hr
  refine many_cases (motive := fun s as s' => s.Ends → ∃ us, s = s'.behind us ∧
    Rounds R as (words us)) ?stop ?pass ?item ?last hr hs
  case stop =>
    intro s s' hr hs
    obtain ⟨us, hus, hR⟩ := h hs hr
    exact ⟨us, hus, .stop hR⟩
  case pass =>
    intro s s₁ as s' hr _ ih hs
    obtain ⟨us, rfl, hR⟩ := h hs hr
    obtain ⟨vs, rfl, hRs⟩ := ih hs.of_behind
    exact ⟨us ++ vs, Stream.behind_append.symm, by simpa using Rounds.pass hR hRs⟩
  case item =>
    intro s a s₁ as s' hr _ ih hs
    obtain ⟨us, rfl, hR⟩ := h hs hr
    obtain ⟨vs, rfl, hRs⟩ := ih hs.of_behind
    exact ⟨us ++ vs, Stream.behind_append.symm, by simpa using Rounds.item hR hRs⟩
  case last =>
    intro s a s' hr hs
    obtain ⟨us, hus, hR⟩ := h hs hr
    exact ⟨us, hus, .last hR⟩

end Reader

end OpsLang
