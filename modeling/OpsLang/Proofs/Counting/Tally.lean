import OpsLang.Proofs.Appending.Reader
import OpsLang.Proofs.Reports.Reader

/-!
# Counting open constructs

The readers of the grammar are told how many levels are left. A `Tally` keeps a counter of the
open constructs in place of that : `Tally.nested` raises the counter, reads, and lowers it again,
or it refuses the construct because the counter stands at the limit. All that happens to the
counter is logged (`Event`), so that the log tells how many constructs are open at a time
(`openCount`).

`Follows` says that a tally reads what a reporter reads, and all that is to be known of its
counter : it comes back to where it stood, it tells the number of open constructs all along, and
a construct is refused exactly if the nesting is reported to be too deep. Beside it runs the
same tally with a higher limit, which does the same if nothing is refused, and else opens the
first construct that is refused (`Deviates`). All this passes through sequencing and repetition
(`Follows.bind`, `Follows.many`) and through a construct (`follows_construct`).
-/

namespace OpsLang

/-! ## The log of a counter -/

/-- What may be open inside one another. -/
inductive Construct where
  /-- The statements of a block. -/
  | block
  /-- The expression of a statement, in parentheses or of an argument. -/
  | expression
  | rightOperand
  /-- What stands behind a unary operator. -/
  | prefixOperand
  /-- A declaration inside a namespace. -/
  | declaration
  /-- The type of a field, or of the elements of an array. -/
  | type
  deriving DecidableEq, Repr

/-- What may happen to a construct. -/
inductive Act where
  | opened
  | closed
  | refused
  deriving DecidableEq, Repr

/-- Something that happens to a construct, and where the counter stands then. -/
structure Event where
  act : Act
  construct : Construct
  level : Nat
  deriving DecidableEq, Repr

/-- The number of open constructs after an event, when `n` were open before. -/
def Event.after (n : Nat) (e : Event) : Nat :=
  match e.act with
  | .opened => n + 1
  | .closed => n - 1
  | .refused => n

/-- The number of open constructs after some events, when `n` were open before. -/
def openCount (n : Nat) (es : List Event) : Nat :=
  es.foldl Event.after n

section Events

variable {limit low n : Nat} {es es' : List Event}

@[simp]
theorem openCount_nil : openCount n [] = n := rfl

@[simp]
theorem openCount_cons (e : Event) : openCount n (e :: es) = openCount (e.after n) es := rfl

@[simp]
theorem openCount_append : openCount n (es ++ es') = openCount (openCount n es) es' :=
  List.foldl_append

/-- The counter tells the number of open constructs, which is never below `low` nor above the
limit, and a construct is refused only at the limit. -/
def Tells (limit low : Nat) : Nat → List Event → Prop
  | _, [] => True
  | n, e :: es =>
    (e.level = e.after n ∧ low ≤ e.level ∧ e.level ≤ limit ∧ (e.act = .refused → e.level = limit)) ∧
      Tells limit low (e.after n) es

theorem Tells.append (h : Tells limit low n es) (h' : Tells limit low (openCount n es) es') :
    Tells limit low n (es ++ es') := by
  induction es generalizing n with
  | nil => exact h'
  | cons e es ih => exact ⟨h.1, ih h.2 h'⟩

theorem Tells.weaken {low' : Nat} (hle : low' ≤ low) (h : Tells limit low n es) :
    Tells limit low' n es := by
  induction es generalizing n with
  | nil => trivial
  | cons e es ih =>
    obtain ⟨⟨hlevel, hlow, hrest⟩, hes⟩ := h
    exact ⟨⟨hlevel, Nat.le_trans hle hlow, hrest⟩, ih hes⟩

/-- At every time the counter tells how many constructs are open. -/
theorem Tells.level {e : Event} (h : Tells limit low n (es ++ e :: es')) :
    e.level = openCount n (es ++ [e]) ∧ low ≤ e.level ∧ e.level ≤ limit ∧
      (e.act = .refused → e.level = limit) := by
  induction es generalizing n with
  | nil => exact h.1
  | cons d es ih => exact ih h.2

/-- At no time more constructs are open than the limit allows. -/
theorem Tells.openCount_le (hn : n ≤ limit) (h : Tells limit low n (es ++ es')) :
    openCount n es ≤ limit := by
  induction es generalizing n with
  | nil => exact hn
  | cons e es ih =>
    obtain ⟨⟨hlevel, -, hle, -⟩, hes⟩ := h
    exact ih (hlevel ▸ hle) hes

/-- One log opens a construct at a place where the other refuses it at the limit. -/
def Deviates (limit : Nat) (es es' : List Event) : Prop :=
  ∃ xs c ys ys', es = xs ++ ⟨.refused, c, limit⟩ :: ys ∧ es' = xs ++ ⟨.opened, c, limit + 1⟩ :: ys'

theorem Deviates.append_right (h : Deviates limit es es') (ys ys' : List Event) :
    Deviates limit (es ++ ys) (es' ++ ys') := by
  obtain ⟨xs, c, zs, zs', rfl, rfl⟩ := h
  exact ⟨xs, c, zs ++ ys, zs' ++ ys', by simp, by simp⟩

theorem Deviates.append_left (h : Deviates limit es es') (xs : List Event) :
    Deviates limit (xs ++ es) (xs ++ es') := by
  obtain ⟨us, c, zs, zs', rfl, rfl⟩ := h
  exact ⟨xs ++ us, c, zs, zs', by simp, by simp⟩

end Events

/-! ## Readings with a counter -/

/-- What a reading with a counter does and comes to. -/
structure Run (α : Type) where
  log : List Event
  /-- Where the counter stands in the end. -/
  level : Nat
  reports : List Diagnostic
  outcome : Outcome α

namespace Run

variable {α β : Type}

/-- The run with others in front of it. -/
def behind (u : Run α) (log : List Event) (reports : List Diagnostic) : Run α :=
  { u with log := log ++ u.log, reports := reports ++ u.reports }

/-- Make something else of what the run comes to, without the counter. -/
def conclude (u : Run α) (f : List Diagnostic × Outcome α → List Diagnostic × Outcome β) : Run β :=
  ⟨u.log, u.level, (f (u.reports, u.outcome)).1, (f (u.reports, u.outcome)).2⟩

/-- Go on from a value, where the counter stands. -/
def andThen (u : Run α) (f : α → Nat → Stream → Run β) : Run β :=
  match u.outcome with
  | .ok a s => (f a u.level s).behind u.log u.reports
  | .fail d s => ⟨u.log, u.level, u.reports, .fail d s⟩
  | .endless => ⟨u.log, u.level, u.reports, .endless⟩

/-- A construct was refused. -/
def Refused (u : Run α) : Prop :=
  ∃ e ∈ u.log, e.act = .refused

end Run

/-- The diagnostics of a reading, with the one it failed with. -/
def Outcome.faults {α : Type} : Outcome α → List Diagnostic
  | fail d _ => [d]
  | _ => []

/-- The nesting was found too deep somewhere. -/
def RaisesTooDeep {α : Type} (x : List Diagnostic × Outcome α) : Prop :=
  ∃ d ∈ x.1 ++ x.2.faults, d.IsTooDeep

/-- A reader that reports and keeps a counter, given where the counter stands. -/
def Tally (α : Type) : Type :=
  Nat → Stream → Run α

namespace Tally

variable {α β : Type}

instance : Monad Tally where
  pure a := fun n s => ⟨[], n, [], .ok a s⟩
  bind t f := fun n s => (t n s).andThen fun a n s => f a n s

/-- A reader that does not touch the counter. -/
def ofReader (r : Reader α) : Tally α :=
  fun n s => ⟨[], n, [], r s⟩

instance : MonadLift Reader Tally := ⟨ofReader⟩

/-- Read a construct one level deeper, unless the limit is reached. -/
def nested (limit : Nat) (c : Construct) (t : Tally α) : Tally α := fun n s =>
  if limit ≤ n then ⟨[⟨.refused, c, n⟩], n, [], .fail s.tooDeep s⟩
  else
    let u := t (n + 1) s
    { u with
      log := ⟨.opened, c, n + 1⟩ :: u.log ++ [⟨.closed, c, u.level - 1⟩]
      level := u.level - 1 }

/-- Repeat a round and collect what it keeps. -/
def many (round : Tally (Turn α)) (n : Nat) (s : Stream) : Run (List α) :=
  match round n s with
  | ⟨log, m, ds, .ok .stop s'⟩ => ⟨log, m, ds, .ok [] s'⟩
  | ⟨log, m, ds, .ok .pass s'⟩ =>
    if s'.size < s.size then (many round m s').behind log ds else ⟨log, m, ds, .endless⟩
  | ⟨log, m, ds, .ok (.item a) s'⟩ =>
    if s'.size < s.size then
      ((many round m s').conclude fun x => (x.1, x.2.map (a :: ·))).behind log ds
    else ⟨log, m, ds, .endless⟩
  | ⟨log, m, ds, .ok (.last a) s'⟩ => ⟨log, m, ds, .ok [a] s'⟩
  | ⟨log, m, ds, .fail d s'⟩ => ⟨log, m, ds, .fail d s'⟩
  | ⟨log, m, ds, .endless⟩ => ⟨log, m, ds, .endless⟩
termination_by s.size

end Tally

/-! ## Reporters as readings that go on -/

namespace Reporter

variable {α β : Type}

/-- Go on from a value. -/
def andThen (x : List Diagnostic × Outcome α) (f : α → Stream → List Diagnostic × Outcome β) :
    List Diagnostic × Outcome β :=
  match x with
  | (ds, .ok a s) => prepend ds (f a s)
  | (ds, .fail d s) => (ds, .fail d s)
  | (ds, .endless) => (ds, .endless)

theorem many_run (round : Reporter (Turn α)) (s : Stream) :
    many round s = andThen (round s) fun t s' =>
      match t with
      | .stop => ([], .ok [] s')
      | .pass => if s'.size < s.size then many round s' else ([], .endless)
      | .item a =>
        if s'.size < s.size then ((many round s').1, (many round s').2.map (a :: ·))
        else ([], .endless)
      | .last a => ([], .ok [a] s') := by
  rw [many]
  rcases round s with ⟨ds, ⟨_ | _ | a | a, s'⟩ | ⟨d, s'⟩ | _⟩
  · simp [andThen, prepend]
  · by_cases hlt : s'.size < s.size <;> simp [andThen, prepend, hlt]
  · by_cases hlt : s'.size < s.size <;> simp [andThen, prepend, hlt]
  · simp [andThen, prepend]
  · rfl
  · rfl

end Reporter

theorem Tally.many_run {α : Type} (round : Tally (Turn α)) (n : Nat) (s : Stream) :
    many round n s = (round n s).andThen fun t m s' =>
      match t with
      | .stop => ⟨[], m, [], .ok [] s'⟩
      | .pass => if s'.size < s.size then many round m s' else ⟨[], m, [], .endless⟩
      | .item a =>
        if s'.size < s.size then
          (many round m s').conclude fun x => (x.1, x.2.map (a :: ·))
        else ⟨[], m, [], .endless⟩
      | .last a => ⟨[], m, [], .ok [a] s'⟩ := by
  rw [many]
  rcases round n s with ⟨log, m, ds, ⟨_ | _ | a | a, s'⟩ | ⟨d, s'⟩ | _⟩
  · simp [Run.andThen, Run.behind]
  · by_cases hlt : s'.size < s.size <;> simp [Run.andThen, Run.behind, hlt]
  · by_cases hlt : s'.size < s.size <;> simp [Run.andThen, Run.behind, hlt]
  · simp [Run.andThen, Run.behind]
  · rfl
  · rfl

/-! ## Counters that are exact -/

section Counts

variable {α β : Type} {limit n : Nat} {s s' : Stream}

/-- The outcome leaves a rest of `s`, if it is one. -/
def Outcome.Keeps (s : Stream) : Outcome α → Prop
  | ok _ s' | fail _ s' => s.Reaches s'
  | endless => True

/-- The run `u` from `s`, with the counter at `n`, comes to `x`, and its counter is exact. With a
higher limit the run is `w`. -/
structure Counts (limit n : Nat) (s : Stream) (x : List Diagnostic × Outcome α) (u w : Run α) :
    Prop where
  result : (u.reports, u.outcome) = x
  level : u.level = n
  tells : Tells limit n n u.log
  balanced : openCount n u.log = n
  keeps : x.2.Keeps s
  raises : u.Refused ↔ RaisesTooDeep x
  place : ∀ d s', x.2 = .fail d s' → d.IsTooDeep → d = s'.tooDeep
  higher : w = u ∧ ¬u.Refused ∨ Deviates limit u.log w.log

theorem Run.refused_behind {u : Run α} {log : List Event} {ds : List Diagnostic} :
    (u.behind log ds).Refused ↔ (∃ e ∈ log, e.act = .refused) ∨ u.Refused := by
  simp [Refused, behind, or_and_right, exists_or]

theorem raisesTooDeep_prepend {ds : List Diagnostic} {x : List Diagnostic × Outcome α} :
    RaisesTooDeep (Reporter.prepend ds x) ↔ (∃ d ∈ ds, d.IsTooDeep) ∨ RaisesTooDeep x := by
  simp [RaisesTooDeep, Reporter.prepend, or_and_right, exists_or]

theorem Outcome.Keeps.of_reaches {o : Outcome α} (hs : s.Reaches s') (h : o.Keeps s') :
    o.Keeps s := by
  cases o with
  | ok a s'' => exact hs.trans h
  | fail d s'' => exact hs.trans h
  | endless => trivial

/-- Whatever is read next comes behind the log. -/
theorem Run.log_andThen (u : Run α) (f : α → Nat → Stream → Run β) :
    ∃ es, (u.andThen f).log = u.log ++ es := by
  unfold andThen
  split
  · exact ⟨_, rfl⟩
  · exact ⟨[], (List.append_nil _).symm⟩
  · exact ⟨[], (List.append_nil _).symm⟩

namespace Counts

variable {x : List Diagnostic × Outcome α} {u w : Run α}

/-- A run that does not touch the counter, nor finds the nesting too deep. -/
theorem untouched {o : Outcome α} (hkeeps : o.Keeps s) (ho : ∀ d ∈ o.faults, ¬d.IsTooDeep) :
    Counts limit n s ([], o) ⟨[], n, [], o⟩ ⟨[], n, [], o⟩ where
  result := rfl
  level := rfl
  tells := trivial
  balanced := rfl
  keeps := hkeeps
  raises := by
    simp only [Run.Refused, RaisesTooDeep, List.nil_append, List.not_mem_nil, false_and,
      exists_false, false_iff, not_exists, not_and]
    exact ho
  place := by
    rintro d s' rfl hd
    exact absurd hd (ho d (by simp [Outcome.faults]))
  higher := .inl ⟨rfl, by simp [Run.Refused]⟩

theorem of_reaches (hs : s.Reaches s') (h : Counts limit n s' x u w) : Counts limit n s x u w :=
  { h with keeps := h.keeps.of_reaches hs }

theorem andThen (h : Counts limit n s x u w) {g : α → Stream → List Diagnostic × Outcome β}
    {f f' : α → Nat → Stream → Run β}
    (hf : ∀ a s', x.2 = .ok a s' → Counts limit n s' (g a s') (f a n s') (f' a n s')) :
    Counts limit n s (Reporter.andThen x g) (u.andThen f) (w.andThen f') := by
  obtain ⟨rfl, rfl, htells, hbalanced, hkeeps, hraises, hplace, hhigher⟩ := h
  -- The higher limit matters only up to the first refusal.
  have hdeviates (hd : Deviates limit u.log w.log) :
      Deviates limit (u.andThen f).log (w.andThen f').log := by
    obtain ⟨es, hes⟩ := u.log_andThen f
    obtain ⟨es', hes'⟩ := w.log_andThen f'
    rw [hes, hes']
    exact hd.append_right es es'
  obtain ⟨log, m, ds, o⟩ := u
  cases o with
  | ok a s' =>
    obtain ⟨hresult, hlevel, htells', hbalanced', hkeeps', hraises', hplace', hhigher'⟩ :=
      hf a s' rfl
    have hgo : (⟨log, m, ds, .ok a s'⟩ : Run α).andThen f = (f a m s').behind log ds := rfl
    refine ⟨?_, hlevel, ?_, ?_, hkeeps'.of_reaches hkeeps, ?_, hplace', ?_⟩
    · rw [hgo, Reporter.andThen, ← hresult]
      rfl
    · exact htells.append (by rwa [hbalanced])
    · rw [hgo, Run.behind, openCount_append, hbalanced, hbalanced']
    · rw [hgo, Run.refused_behind, Reporter.andThen, raisesTooDeep_prepend, hraises']
      refine or_congr_left (hraises.trans ?_)
      simp [RaisesTooDeep, Outcome.faults]
    · obtain ⟨rfl, hnot⟩ | hd := hhigher
      · obtain ⟨heq, hnot'⟩ | hd' := hhigher'
        · refine .inl ⟨by simp only [Run.andThen, heq], ?_⟩
          rw [hgo, Run.refused_behind]
          exact fun h => h.elim hnot hnot'
        · exact .inr (hd'.append_left log)
      · exact .inr (hdeviates hd)
  | fail d s' =>
    refine ⟨rfl, rfl, htells, hbalanced, hkeeps, hraises, ?_, ?_⟩
    · rintro e s'' he hd
      obtain ⟨rfl, rfl⟩ := Outcome.fail.inj he
      exact hplace d s' rfl hd
    · exact hhigher.imp (fun h => ⟨by rw [h.1]; rfl, h.2⟩) hdeviates
  | endless =>
    refine ⟨rfl, rfl, htells, hbalanced, trivial, hraises, nofun, ?_⟩
    exact hhigher.imp (fun h => ⟨by rw [h.1]; rfl, h.2⟩) hdeviates

/-- What is made of a run without the counter, if that hides no nesting that is too deep. -/
theorem conclude (h : Counts limit n s x u w)
    {f : List Diagnostic × Outcome α → List Diagnostic × Outcome β} (hkeeps : (f x).2.Keeps s)
    (hraises : RaisesTooDeep (f x) ↔ RaisesTooDeep x)
    (hplace : ∀ d s', (f x).2 = .fail d s' → d.IsTooDeep → d = s'.tooDeep) :
    Counts limit n s (f x) (u.conclude f) (w.conclude f) := by
  obtain ⟨rfl, hlevel, htells, hbalanced, -, hrefused, -, hhigher⟩ := h
  refine ⟨rfl, hlevel, htells, hbalanced, hkeeps, hrefused.trans hraises.symm, hplace, ?_⟩
  exact hhigher.imp (fun h => ⟨by rw [h.1], h.2⟩) id

/-- A fault that is passed over, and reported. -/
theorem drop {ds : List Diagnostic} {d : Diagnostic} {s' s'' : Stream} {b : β}
    (h : Counts limit n s (ds, .fail d s') u w)
    {f : List Diagnostic × Outcome α → List Diagnostic × Outcome β}
    (hf : f (ds, .fail d s') = (ds ++ [d], .ok b s'')) (hs : s'.Reaches s'') :
    Counts limit n s (f (ds, .fail d s')) (u.conclude f) (w.conclude f) := by
  have hreach : s.Reaches s' := h.keeps
  refine h.conclude ?_ ?_ ?_
  · rw [hf]
    exact hreach.trans hs
  · simp [hf, RaisesTooDeep, Outcome.faults]
  · rw [hf]
    exact nofun

/-- A run that is followed by another from the same place, to which alone the reading comes. What
the first one finds too deep the second one has to as well. -/
theorem retry {o : Outcome α} (h : Counts limit n s ([], o) u w) {y : List Diagnostic × Outcome β}
    {v v' w' : Run β} (hv : Counts limit n s y v v')
    (hdeep : RaisesTooDeep ([], o) → RaisesTooDeep y) (heq : w = u → w' = v'.behind u.log u.reports)
    (hlog : ∃ es, w'.log = w.log ++ es) :
    Counts limit n s y (v.behind u.log u.reports) w' := by
  obtain ⟨hresult, -, htells, hbalanced, -, hraises, -, hhigher⟩ := h
  obtain ⟨hresult', hlevel', htells', hbalanced', hkeeps', hraises', hplace', hhigher'⟩ := hv
  have hreports : u.reports = [] := congrArg Prod.fst hresult
  refine ⟨?_, hlevel', ?_, ?_, hkeeps', ?_, hplace', ?_⟩
  · rw [← hresult', Run.behind, hreports]
    rfl
  · exact htells.append (by rwa [hbalanced])
  · rw [Run.behind, openCount_append, hbalanced, hbalanced']
  · rw [Run.refused_behind, hraises']
    exact ⟨fun h => h.elim (fun hu => hdeep (hraises.1 hu)) id, .inr⟩
  · obtain ⟨hw, hnot⟩ | hd := hhigher
    · rw [heq hw]
      obtain ⟨rfl, hnot'⟩ | hd' := hhigher'
      · exact .inl ⟨rfl, fun hv => (Run.refused_behind.1 hv).elim hnot hnot'⟩
      · exact .inr (hd'.append_left u.log)
    · obtain ⟨es, hes⟩ := hlog
      rw [hes]
      exact .inr (hd.append_right v.log es)

theorem map (h : Counts limit n s x u w) (f : α → β) :
    Counts limit n s (x.1, x.2.map f) (u.conclude fun x => (x.1, x.2.map f))
      (w.conclude fun x => (x.1, x.2.map f)) := by
  obtain ⟨ds, o⟩ := x
  refine h.conclude (f := fun x => (x.1, x.2.map f)) ?_ ?_ ?_
  · cases o <;> exact h.keeps
  · cases o <;> exact Iff.rfl
  · rintro d s' he hd
    exact h.place d s' (Outcome.map_eq_fail.1 he) hd

/-- A construct is refused at the limit, and opened with a higher one. -/
theorem refused {limit' : Nat} (hlt : limit < limit') (c : Construct) (s : Stream)
    (t t' : Tally α) :
    Counts limit limit s ([], .fail s.tooDeep s) (t.nested limit c limit s)
      (t'.nested limit' c limit s) := by
  have hrefuse : t.nested limit c limit s =
      ⟨[⟨.refused, c, limit⟩], limit, [], .fail s.tooDeep s⟩ := if_pos (Nat.le_refl _)
  rw [hrefuse]
  refine ⟨rfl, rfl, ?_, rfl, .refl s, ?_, ?_, .inr ?_⟩
  · exact ⟨⟨rfl, Nat.le_refl _, Nat.le_refl _, fun _ => rfl⟩, trivial⟩
  · exact iff_of_true ⟨_, List.mem_singleton_self _, rfl⟩ ⟨_, List.mem_singleton_self _, s, rfl⟩
  · rintro d s' he -
    obtain ⟨rfl, rfl⟩ := Outcome.fail.inj he
    rfl
  · refine ⟨[], c, [], (t' (limit + 1) s).log ++ [⟨.closed, c, (t' (limit + 1) s).level - 1⟩], rfl,
      ?_⟩
    rw [Tally.nested, if_neg (Nat.not_le_of_lt hlt)]
    rfl

/-- Below the limit a construct is opened, and the counter lowered behind it again. -/
theorem nested {limit' : Nat} (hlt : limit < limit') (hn : n < limit) (c : Construct)
    {t t' : Tally α} (h : Counts limit (n + 1) s x (t (n + 1) s) (t' (n + 1) s)) :
    Counts limit n s x (t.nested limit c n s) (t'.nested limit' c n s) := by
  have hopen : ∀ {l : Nat} {t : Tally α}, n < l → t.nested l c n s =
      { t (n + 1) s with
        log := ⟨.opened, c, n + 1⟩ :: (t (n + 1) s).log ++ [⟨.closed, c, (t (n + 1) s).level - 1⟩]
        level := (t (n + 1) s).level - 1 } := fun hl => if_neg (Nat.not_le_of_lt hl)
  rw [hopen hn, hopen (Nat.lt_trans hn hlt)]
  obtain ⟨hresult, hlevel, htells, hbalanced, hkeeps, hraises, hplace, hhigher⟩ := h
  have hle : n ≤ limit := Nat.le_of_lt hn
  rw [hlevel, Nat.add_sub_cancel]
  refine ⟨hresult, rfl, ?_, ?_, hkeeps, ?_, hplace, ?_⟩
  · refine ⟨⟨rfl, Nat.le_succ n, hn, nofun⟩, (htells.weaken (Nat.le_succ n)).append ?_⟩
    show Tells limit n (openCount (n + 1) _) _
    rw [hbalanced]
    exact ⟨⟨rfl, Nat.le_refl n, hle, nofun⟩, trivial⟩
  · show openCount (n + 1) (_ ++ _) = n
    rw [openCount_append, hbalanced]
    rfl
  · rw [← hraises]
    simp [Run.Refused]
  · obtain ⟨heq, hnot⟩ | hd := hhigher
    · refine .inl ⟨by rw [heq, hlevel, Nat.add_sub_cancel], ?_⟩
      simpa [Run.Refused] using hnot
    · refine .inr ?_
      exact (hd.append_right _ _).append_left [⟨.opened, c, n + 1⟩]

end Counts

end Counts

/-! ## Reporters and tallies -/

namespace Reporter

variable {α β : Type} {limit n : Nat}

/-- With the counter at `n` the tally `t` does what the reporter does, and its counter is exact;
`t'` is the same with a higher limit. -/
def Follows (limit n : Nat) (r : Reporter α) (t t' : Tally α) : Prop :=
  ∀ s : Stream, s.Closed → Counts limit n s (r s) (t n s) (t' n s)

theorem follows_pure (a : α) : (pure a : Reporter α).Follows limit n (pure a) (pure a) :=
  fun s _ => .untouched (.refl s) (by simp [Outcome.faults])

theorem Follows.bind {r : Reporter α} {t t' : Tally α} {f : α → Reporter β} {g g' : α → Tally β}
    (h : r.Follows limit n t t') (hf : ∀ a, (f a).Follows limit n (g a) (g' a)) :
    (r >>= f).Follows limit n (t >>= g) (t' >>= g') := by
  intro s hs
  have hr := h s hs
  refine hr.andThen fun a s' ha => hf a s' ?_
  have hkeeps := hr.keeps
  rw [ha] at hkeeps
  exact hkeeps.closed hs

theorem Follows.ite {c : Prop} [Decidable c] {r₁ r₂ : Reporter α} {t₁ t₁' t₂ t₂' : Tally α}
    (h₁ : r₁.Follows limit n t₁ t₁') (h₂ : r₂.Follows limit n t₂ t₂') :
    (if c then r₁ else r₂).Follows limit n (if c then t₁ else t₂) (if c then t₁' else t₂') := by
  split
  · exact h₁
  · exact h₂

theorem Follows.many {round : Reporter (Turn α)} {t t' : Tally (Turn α)}
    (h : round.Follows limit n t t') :
    Follows limit n (Reporter.many round) (Tally.many t) (Tally.many t') := by
  intro s
  induction hsize : s.size using Nat.strongRecOn generalizing s with
  | _ k ih =>
    subst hsize
    intro hs
    have hr := h s hs
    rw [many_run, Tally.many_run, Tally.many_run]
    refine hr.andThen fun a s' ha => ?_
    have hkeeps := hr.keeps
    rw [ha] at hkeeps
    have hs' : s'.Closed := Stream.Reaches.closed hkeeps hs
    have hend : ∀ {as : List α}, Counts limit n s' ([], .ok as s') ⟨[], n, [], .ok as s'⟩
        ⟨[], n, [], .ok as s'⟩ := .untouched (.refl s') (by simp [Outcome.faults])
    have hendless : Counts limit n s' ([], (.endless : Outcome (List α))) ⟨[], n, [], .endless⟩
        ⟨[], n, [], .endless⟩ := .untouched trivial (by simp [Outcome.faults])
    cases a with
    | stop => exact hend
    | pass =>
      by_cases hlt : s'.size < s.size
      · simpa only [hlt, if_true] using ih _ hlt s' rfl hs'
      · simpa only [hlt, if_false] using hendless
    | item a =>
      by_cases hlt : s'.size < s.size
      · simpa only [hlt, if_true] using (ih _ hlt s' rfl hs').map (a :: ·)
      · simpa only [hlt, if_false] using hendless
    | last a => exact hend

end Reporter

namespace Reader

variable {α β : Type} {limit n : Nat}

/-- With the counter at `n` the tally `t` does what the reader does, and its counter is exact;
`t'` is the same with a higher limit. -/
def Follows (limit n : Nat) (r : Reader α) (t t' : Tally α) : Prop :=
  (Reporter.ofReader r).Follows limit n t t'

theorem Follows.liftM {r : Reader α} {t t' : Tally α} (h : r.Follows limit n t t') :
    (liftM r : Reporter α).Follows limit n t t' :=
  h

theorem Follows.bind {r : Reader α} {t t' : Tally α} {f : α → Reader β} {g g' : α → Tally β}
    (h : r.Follows limit n t t') (hf : ∀ a, (f a).Follows limit n (g a) (g' a)) :
    (r >>= f).Follows limit n (t >>= g) (t' >>= g') := by
  show (Reporter.ofReader (r >>= f)).Follows limit n (t >>= g) (t' >>= g')
  rw [Reporter.ofReader_bind]
  exact Reporter.Follows.bind h hf

theorem Follows.ite {c : Prop} [Decidable c] {r₁ r₂ : Reader α} {t₁ t₁' t₂ t₂' : Tally α}
    (h₁ : r₁.Follows limit n t₁ t₁') (h₂ : r₂.Follows limit n t₂ t₂') :
    (if c then r₁ else r₂).Follows limit n (if c then t₁ else t₂) (if c then t₁' else t₂') := by
  split
  · exact h₁
  · exact h₂

theorem Follows.many {round : Reader (Turn α)} {t t' : Tally (Turn α)}
    (h : round.Follows limit n t t') :
    Reader.Follows limit n (Reader.many round) (Tally.many t) (Tally.many t') := by
  show (Reporter.ofReader (Reader.many round)).Follows limit n (Tally.many t) (Tally.many t')
  rw [Reporter.ofReader_many]
  exact Reporter.Follows.many h

theorem follows_pure (a : α) : (pure a : Reader α).Follows limit n (pure a) (pure a) :=
  Reporter.follows_pure a

/-- A diagnostic that says what should stand there is not about the nesting. -/
theorem not_isTooDeep_of_explains {s : Stream} {d : Diagnostic} (h : s.Explains d) :
    ¬d.IsTooDeep := by
  rintro ⟨s', rfl⟩
  exact h.expected rfl

/-- A reader that has no level to open leaves the counter alone. -/
theorem Marks.follows {r : Reader α} (h : r.Marks Stream.Explains) :
    r.Follows limit n (Tally.ofReader r) (Tally.ofReader r) := by
  intro s hs
  have hr : OpsLang.Marks Stream.Explains s ([], r s) := h s hs
  refine .untouched ?_ ?_
  · generalize r s = o at hr
    cases hr with
    | ok h => exact h.reaches
    | fail h _ _ hp => exact h.reaches.trans hp
    | endless => trivial
  · generalize r s = o at hr
    cases hr with
    | fail _ _ hd =>
      intro e he
      obtain rfl := List.mem_singleton.1 he
      exact not_isTooDeep_of_explains hd
    | _ => simp [Outcome.faults]

end Reader

section Constructs

variable {α : Type} {limit limit' n room : Nat} {t t' : Tally α} (hlt : limit < limit')
  (c : Construct) (hn : n + room = limit)

include hlt hn

/-- A construct is refused where no level is left, and else read one level deeper. -/
theorem Reporter.follows_construct {r : Nat → Reporter α} (hzero : r 0 = ofReader Reader.tooDeep)
    (hsucc : ∀ left, room = left + 1 → (r (left + 1)).Follows limit (n + 1) t t') :
    (r room).Follows limit n (t.nested limit c) (t'.nested limit' c) := by
  intro s hs
  cases room with
  | zero =>
    obtain rfl : n = limit := hn
    have htooDeep : r 0 s = ([], .fail s.tooDeep s) := by rw [hzero]; rfl
    rw [htooDeep]
    exact .refused hlt c s t t'
  | succ left => exact .nested hlt (by omega) c (hsucc left rfl s hs)

theorem Reader.follows_construct {r : Nat → Reader α} (hzero : r 0 = Reader.tooDeep)
    (hsucc : ∀ left, room = left + 1 → (r (left + 1)).Follows limit (n + 1) t t') :
    (r room).Follows limit n (t.nested limit c) (t'.nested limit' c) :=
  Reporter.follows_construct (r := fun room => .ofReader (r room)) hlt c hn (by rw [hzero]) hsucc

end Constructs

end OpsLang
