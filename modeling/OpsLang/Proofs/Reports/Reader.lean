import OpsLang.Proofs.Termination

/-!
# Where readers find faults

A reading finds its faults in the order of the text : `Spots P s ds s'` says that the diagnostics
`ds` belong to places from `s` up to `s'`, one behind the other, where `P` says which diagnostics
a place can have. `Marks` says so of what comes of a reading : its reports have places up to where
it came to, and what it failed with has a place behind them that it did not go back from.

Both pass through sequencing and repetition (`Reporter.Marks.bind`, `Reporter.Marks.many`). Most
readers blame the current token and say what should stand there (`Stream.Explains`). The limit
of nesting only blames it (`Stream.Blames`), so it can be told from all other faults.
-/

namespace OpsLang

/-! ## Diagnostics about a place -/

namespace Stream

/-- What the diagnostic says was found is the current token, or the `end` that stands there with
the word behind it. Where a type is declared as a mere name, it is that name. -/
def Finds (s : Stream) (d : Diagnostic) : Prop :=
  d.found = some s.token.describe ∨
    (s.token = .keyword .end_ ∧ s.next ≠ .eof ∧
      d.found = some (Grammar.endText s.next.lexeme)) ∨
    ∃ name p, d = s.bareAlias name p

/-- The diagnostic is about the current token, and is no lexical one. -/
structure Blames (s : Stream) (d : Diagnostic) : Prop where
  span : d.span = s.here.span
  kind : d.kind ≠ .lexical
  found : d.kind = .grammar → s.Finds d

/-- The diagnostic is about the current token and lists what would have been accepted. -/
structure Explains (s : Stream) (d : Diagnostic) : Prop extends s.Blames d where
  expected : d.expected ≠ []

variable {s : Stream}

theorem blames_tooDeep : s.Blames s.tooDeep :=
  ⟨rfl, nofun, fun _ => .inl rfl⟩

theorem explains_expecting {e : String} {es : List String} : s.Explains (s.expecting (e :: es)) :=
  ⟨⟨rfl, nofun, fun _ => .inl rfl⟩, List.cons_ne_nil _ _⟩

theorem explains_strayUnit {unit : String} : s.Explains (s.strayUnit unit) :=
  ⟨⟨rfl, nofun, fun _ => .inl rfl⟩, List.cons_ne_nil _ _⟩

theorem explains_badSize {lexeme : String} : s.Explains (s.badSize lexeme) :=
  ⟨⟨rfl, nofun, fun _ => .inl rfl⟩, List.cons_ne_nil _ _⟩

theorem explains_bareAlias {name : String} {p : Path} : s.Explains (s.bareAlias name p) :=
  ⟨⟨rfl, nofun, fun _ => .inr (.inr ⟨name, p, rfl⟩)⟩, List.cons_ne_nil _ _⟩

theorem explains_unterminated {kind : BlockKind} {line : Nat} :
    s.Explains (s.unterminated kind line) :=
  ⟨⟨rfl, nofun, nofun⟩, List.cons_ne_nil _ _⟩

theorem explains_otherEnd {e : String} (hend : s.token = .keyword .end_) (hnext : s.next ≠ .eof) :
    s.Explains (.expecting s.here.span [e] (Grammar.endText s.next.lexeme)) :=
  ⟨⟨rfl, nofun, fun _ => .inr (.inl ⟨hend, hnext, rfl⟩)⟩, List.cons_ne_nil _ _⟩

end Stream

/-! ## Diagnostics in order -/

section Spots

variable {P : Stream → Diagnostic → Prop} {s s' s'' : Stream} {d : Diagnostic}
  {ds es : List Diagnostic}

/-- The diagnostics have places from `s` up to `s'`, one behind the other. -/
inductive Spots (P : Stream → Diagnostic → Prop) : Stream → List Diagnostic → Stream → Prop
  | nil {s s' : Stream} (h : s.Reaches s') : Spots P s [] s'
  | cons {s p s' : Stream} {d : Diagnostic} {ds : List Diagnostic} (h : s.Reaches p) (hd : P p d)
      (hds : Spots P p ds s') : Spots P s (d :: ds) s'

namespace Spots

theorem of_reaches (hs : s.Reaches s') (h : Spots P s' ds s'') : Spots P s ds s'' := by
  cases h with
  | nil h => exact .nil (hs.trans h)
  | cons h hd hds => exact .cons (hs.trans h) hd hds

theorem append (h : Spots P s ds s') (h' : Spots P s' es s'') : Spots P s (ds ++ es) s'' := by
  induction h with
  | nil h => exact h'.of_reaches h
  | cons h hd _ ih => exact .cons h hd (ih h')

theorem reaches (h : Spots P s ds s') : s.Reaches s' := by
  induction h with
  | nil h => exact h
  | cons h _ _ ih => exact h.trans ih

theorem exists_place (h : Spots P s ds s') : ∀ d ∈ ds, ∃ p, s.Reaches p ∧ P p d := by
  induction h with
  | nil => simp
  | @cons s p s' d ds h hd _ ih =>
    refine List.forall_mem_cons.2 ⟨⟨p, h, hd⟩, fun e he => ?_⟩
    obtain ⟨q, hq, hPq⟩ := ih e he
    exact ⟨q, h.trans hq, hPq⟩

end Spots

end Spots

/-! ## Outcomes -/

section Outcomes

variable {α β : Type} {P : Stream → Diagnostic → Prop} {s s' : Stream} {ds : List Diagnostic}

/-- What comes of a reading from `s` has its diagnostics in order : the reports, which are of
grammar, and behind them what the reading failed with. -/
inductive Marks (P : Stream → Diagnostic → Prop) (s : Stream) :
    List Diagnostic × Outcome α → Prop
  | ok {ds : List Diagnostic} {a : α} {s' : Stream} (h : Spots P s ds s')
      (hds : ∀ d ∈ ds, d.kind = .grammar) : Marks P s (ds, .ok a s')
  | fail {ds : List Diagnostic} {d : Diagnostic} {p s' : Stream} (h : Spots P s ds p)
      (hds : ∀ d ∈ ds, d.kind = .grammar) (hd : P p d) (hp : p.Reaches s') :
      Marks P s (ds, .fail d s')
  | endless (ds : List Diagnostic) : Marks P s (ds, .endless)

namespace Marks

theorem value {a : α} (h : s.Reaches s') : Marks P s ([], .ok a s') :=
  .ok (.nil h) (by simp)

theorem fault {d : Diagnostic} (hd : P s d) (h : s.Reaches s') :
    Marks P s ([], (.fail d s' : Outcome α)) :=
  .fail (.nil (.refl s)) (by simp) hd h

/-- Reports of an earlier reading stand before those of a later one. -/
theorem prepend {x : List Diagnostic × Outcome α} (h : Spots P s ds s')
    (hds : ∀ d ∈ ds, d.kind = .grammar) (hx : Marks P s' x) :
    Marks P s (Reporter.prepend ds x) := by
  cases hx with
  | ok hes hk => exact .ok (h.append hes) (List.forall_mem_append.2 ⟨hds, hk⟩)
  | fail hes hk hd hp => exact .fail (h.append hes) (List.forall_mem_append.2 ⟨hds, hk⟩) hd hp
  | endless es => exact .endless _

theorem of_reaches {x : List Diagnostic × Outcome α} (hs : s.Reaches s') (hx : Marks P s' x) :
    Marks P s x :=
  hx.prepend (.nil hs) (by simp)

theorem map {o : Outcome α} (f : α → β) (h : Marks P s (ds, o)) : Marks P s (ds, o.map f) := by
  cases h with
  | ok h hds => exact .ok h hds
  | fail h hds hd hp => exact .fail h hds hd hp
  | endless ds => exact .endless ds

end Marks

end Outcomes

/-! ## Reporters -/

namespace Reporter

variable {α β : Type} {P : Stream → Diagnostic → Prop}

/-- On a closed stream the reporter has its diagnostics in order. -/
def Marks (P : Stream → Diagnostic → Prop) (r : Reporter α) : Prop :=
  ∀ s : Stream, s.Closed → OpsLang.Marks P s (r s)

theorem marks_pure (a : α) : (pure a : Reporter α).Marks P :=
  fun s _ => .value (.refl s)

theorem Marks.bind {r : Reporter α} {f : α → Reporter β} (h : r.Marks P)
    (hf : ∀ a, (f a).Marks P) : (r >>= f).Marks P := by
  intro s hs
  have hr := h s hs
  rw [bind_run]
  generalize r s = x at hr
  cases hr with
  | ok h hds => exact (hf _ _ (h.reaches.closed hs)).prepend h hds
  | fail h hds hd hp => exact .fail h hds hd hp
  | endless ds => exact .endless ds

theorem Marks.ite {c : Prop} [Decidable c] {r r' : Reporter α} (h : r.Marks P)
    (h' : r'.Marks P) : (if c then r else r').Marks P := by
  split
  · exact h
  · exact h'

/-- A repetition has its diagnostics in order if its round has. -/
theorem Marks.many {round : Reporter (Turn α)} (h : round.Marks P) :
    Reporter.Marks P (many round) := by
  intro s
  induction hn : s.size using Nat.strongRecOn generalizing s with
  | _ n ih =>
    subst hn
    intro hs
    have hr := h s hs
    rw [Reporter.many]
    generalize round s = x at hr
    cases hr with
    | @ok ds t s' h hds =>
      have hs' := h.reaches.closed hs
      cases t with
      | stop => exact .ok h hds
      | last a => exact .ok h hds
      | pass =>
        by_cases hlt : s'.size < s.size
        · simpa only [hlt, if_true] using (ih _ hlt s' rfl hs').prepend h hds
        · simpa only [hlt, if_false] using .endless _
      | item a =>
        by_cases hlt : s'.size < s.size
        · simpa only [hlt, if_true, prepend] using
            ((ih _ hlt s' rfl hs').map (a :: ·)).prepend h hds
        · simpa only [hlt, if_false] using .endless _
    | fail h hds hd hp => exact .fail h hds hd hp
    | endless ds => exact .endless ds

end Reporter

/-! ## Readers -/

theorem Reporter.ofReader_bind {α β : Type} (r : Reader α) (f : α → Reader β) :
    Reporter.ofReader (r >>= f) = Reporter.ofReader r >>= fun a => Reporter.ofReader (f a) := by
  funext s
  rw [Reporter.bind_run, ofReader, ofReader, Reader.bind_run]
  cases r s <;> rfl

theorem Reporter.ofReader_many {α : Type} (round : Reader (Turn α)) :
    Reporter.ofReader (Reader.many round) = Reporter.many (Reporter.ofReader round) := by
  funext s
  induction hn : s.size using Nat.strongRecOn generalizing s with
  | _ n ih =>
    subst hn
    show ([], Reader.many round s) = _
    rw [Reader.many, Reporter.many, ofReader]
    rcases round s with ⟨_ | _ | a | a, s'⟩ | ⟨d, s'⟩ | _
    · rfl
    · by_cases hlt : s'.size < s.size
      · simp only [hlt, if_true, ← ih _ hlt s' rfl]
        rfl
      · simp only [hlt, if_false]
    · by_cases hlt : s'.size < s.size
      · simp only [hlt, if_true, ← ih _ hlt s' rfl]
        rfl
      · simp only [hlt, if_false]
    · rfl
    · rfl
    · rfl

namespace Reader

variable {α β : Type} {P : Stream → Diagnostic → Prop}

/-- On a closed stream the reader fails at a place that it can blame. -/
def Marks (P : Stream → Diagnostic → Prop) (r : Reader α) : Prop :=
  (Reporter.ofReader r).Marks P

theorem Marks.liftM {r : Reader α} (h : r.Marks P) : (liftM r : Reporter α).Marks P :=
  h

theorem Marks.bind {r : Reader α} {f : α → Reader β} (h : r.Marks P) (hf : ∀ a, (f a).Marks P) :
    (r >>= f).Marks P := by
  show (Reporter.ofReader (r >>= f)).Marks P
  rw [Reporter.ofReader_bind]
  exact Reporter.Marks.bind h hf

theorem Marks.ite {c : Prop} [Decidable c] {r r' : Reader α} (h : r.Marks P) (h' : r'.Marks P) :
    (if c then r else r').Marks P := by
  split
  · exact h
  · exact h'

theorem Marks.many {round : Reader (Turn α)} (h : round.Marks P) :
    Reader.Marks P (Reader.many round) := by
  show (Reporter.ofReader (Reader.many round)).Marks P
  rw [Reporter.ofReader_many]
  exact Reporter.Marks.many h

theorem marks_pure (a : α) : (pure a : Reader α).Marks P :=
  Reporter.marks_pure a

theorem marks_here : here.Marks P :=
  fun s _ => .value (.refl s)

theorem marks_peek : peek.Marks P :=
  fun s _ => .value (.refl s)

theorem marks_peekNext : peekNext.Marks P :=
  fun s _ => .value (.refl s)

theorem marks_skip : skip.Marks P :=
  fun s _ => .value s.reaches_advance

theorem marks_eat (t : Token) : (eat t).Marks P :=
  marks_peek.bind fun _ => (marks_skip.bind fun _ => marks_pure _).ite (marks_pure _)

theorem marks_failAt {d : Stream → Diagnostic} (h : ∀ s, P s (d s)) :
    (failAt d : Reader α).Marks P :=
  fun s _ => .fault (h s) (.refl s)

theorem marks_semicolons : semicolons.Marks P :=
  (Marks.many ((marks_eat _).bind fun _ => (marks_pure _).ite (marks_pure _))).bind fun _ =>
    marks_pure _

section Explaining

variable (hP : ∀ {s d}, s.Explains d → P s d)

include hP

theorem marks_refuse (e : String) (es : List String) : (refuse (e :: es) : Reader α).Marks P :=
  marks_failAt fun _ => hP Stream.explains_expecting

theorem marks_keyword (k : Keyword) : (keyword k).Marks P :=
  marks_peek.bind fun _ => marks_skip.ite (marks_refuse hP _ _)

theorem marks_symbol (y : Symbol) : (symbol y).Marks P :=
  marks_peek.bind fun _ => marks_skip.ite (marks_refuse hP _ _)

theorem marks_name (what : String) : (name what).Marks P := by
  refine marks_peek.bind fun t => ?_
  split
  · exact marks_skip.bind fun _ => marks_pure _
  · exact marks_refuse hP _ _

theorem marks_member (what : String) : (member what).Marks P := by
  refine marks_peek.bind fun t => ?_
  split
  · exact marks_skip.bind fun _ => marks_pure _
  · exact (marks_skip.bind fun _ => marks_pure _).ite (marks_refuse hP _ _)
  · exact marks_refuse hP _ _

end Explaining

end Reader

end OpsLang
