import OpsLang.Proofs.OpenBlocks.Nest
import OpsLang.Proofs.Taking

/-!
# Readers that run out of text inside a block

A reader that begins inside the blocks `pre` and leaves the blocks `post` open may run into the
end `e` of its row `us` before it is done. `Tracks` says what is known then : the fault names
the innermost block that is open at the end, and before the words that close what the reader
would have closed itself it comes to a value instead (`Tracks.runsOut`). A value is read
again before any stream, and the words taken for it lead from `pre` to `post`. All other faults
are of grammar.

Behind a reader that runs out the rest of a sequence is read from closing words alone
(`Reader.Closes`), so `Reader.TracksAt.bind` asks of the rest that it can be. Readers of what
stands between blocks never run out (`Reader.Blockless`).
-/

namespace OpsLang

/-! ## Outcomes -/

/-- The fault of a text that runs out at the end `e` of the row `us`, which began inside the
blocks `pre`. At the end those in `n` are open inside `post`, and the innermost of all is the
one that is named. An `end` that stands last belongs to one in `n`. -/
structure RunsOut (e : Located) (us : List Located) (pre post : List OpenBlock)
    (d : Diagnostic) (n : Nest) : Prop where
  nest : ∀ around, Nest.after ⟨pre ++ around, false⟩ us = ⟨n.blocks ++ (post ++ around), n.ending⟩
  inside : n.ending = true → n.blocks ≠ []
  names : ∃ b bs, n.blocks ++ post = b :: bs ∧ d = .unterminated e.span b.kind.text b.line

/-- The outcome before the end `e` of the row `us` of a reader that leads from the blocks `pre`
to the blocks `post`, and comes to `long` before any stream. What it comes to before closing
words is in `done`. -/
inductive Tracks {α : Type} (e : Located) (us : List Located) (pre post : List OpenBlock)
    (done : α → Prop) (long : Stream → Outcome α) : Outcome α → Prop
  | ok {a : α} {xs vs : List Located} (hus : us = xs ++ vs)
      (hxs : ∀ around, Nest.after ⟨pre ++ around, false⟩ xs = ⟨post ++ around, false⟩)
      (h : ∀ t : Stream, (vs = [] → t.token.Parts) → long t = .ok a (t.behind vs)) :
      Tracks e us pre post done long (.ok a ((⟨e, []⟩ : Stream).behind vs))
  | runsOut {d : Diagnostic} {s : Stream} {n : Nest} (hout : RunsOut e us pre post d n)
      (h : ∀ cs t, words cs = n.closing.map .keyword → AtClosing post t →
        ∃ a, done a ∧ long (t.behind cs) = .ok a t) :
      Tracks e us pre post done long (.fail d s)
  | fault {d : Diagnostic} {s : Stream} (hd : d.kind = .grammar) :
      Tracks e us pre post done long (.fail d s)
  | endless : Tracks e us pre post done long .endless

/-- The outcome of a reading from `s` that took no word that opens or ends a block, or a fault
of grammar. -/
inductive Outcome.Blockless {α : Type} (s : Stream) : Outcome α → Prop
  | ok {a : α} {s' : Stream} {us : List Located} (hs : s = s'.behind us)
      (hus : ∀ u ∈ us, u.token.isBlockless = true) : Blockless s (.ok a s')
  | fail {d : Diagnostic} {s' : Stream} (hd : d.kind = .grammar) : Blockless s (.fail d s')
  | endless : Blockless s .endless

namespace Outcome.Blockless

variable {α β : Type} {s : Stream} {o : Outcome α}

theorem pure (a : α) (s : Stream) : (Outcome.ok a s).Blockless s :=
  .ok s.behind_nil.symm (by simp)

theorem andThen (h : o.Blockless s) (hs : s.Ends) {f : α → Stream → Outcome β}
    (hf : ∀ a s', s'.Ends → (f a s').Blockless s') : (o.andThen f).Blockless s := by
  cases h with
  | @ok a s' us heq hus =>
    subst heq
    rw [andThen_ok]
    have hrest := hf a s' hs.of_behind
    generalize f a s' = o' at hrest
    cases hrest with
    | @ok b s'' vs heq hvs =>
      subst heq
      exact .ok Stream.behind_append.symm (List.forall_mem_append.2 ⟨hus, hvs⟩)
    | fail hd => exact .fail hd
    | endless => exact .endless
  | fail hd => exact .fail hd
  | endless => exact .endless

theorem map (h : o.Blockless s) (hs : s.Ends) (f : α → β) : (o.map f).Blockless s :=
  h.andThen hs fun a s' _ => .pure (f a) s'

/-- The current token is taken first. -/
theorem of_advance (h : o.Blockless s.advance) (hs : s.Ends)
    (ht : s.token.isBlockless = true) : o.Blockless s := by
  have hhere : s.advance.behind [s.here] = s := hs.behind_here (Token.ne_eof_of_isBlockless ht)
  cases h with
  | ok heq hus =>
    rw [heq, ← Stream.behind_append] at hhere
    exact .ok hhere.symm (List.forall_mem_cons.2 ⟨ht, hus⟩)
  | fail hd => exact .fail hd
  | endless => exact .endless

end Outcome.Blockless

theorem Stream.Ends.head_ne_eof {s : Stream} {u : Located} {us : List Located}
    (hs : (s.behind (u :: us)).Ends) : u.token ≠ .eof := by
  cases us with
  | nil => exact hs.1
  | cons u' us => exact hs.1

theorem Stream.Ends.of_suffix {s : Stream} {us vs : List Located} (hs : (s.behind us).Ends)
    (hvs : vs <:+ us) : (s.behind vs).Ends := by
  obtain ⟨xs, rfl⟩ := hvs
  rw [Stream.behind_append] at hs
  exact hs.of_behind

section Tracking

variable {α β : Type} {e : Located} {us xs vs : List Located} {d : Diagnostic} {n : Nest}
  {pre mid own post : List OpenBlock} {done : α → Prop} {done' : β → Prop}
  {long long' : Stream → Outcome α} {o : Outcome α}

/-- Words were taken before the row in which the text runs out. -/
theorem RunsOut.behind (h : RunsOut e vs mid post d n)
    (hxs : ∀ around, Nest.after ⟨pre ++ around, false⟩ xs = ⟨mid ++ around, false⟩) :
    RunsOut e (xs ++ vs) pre post d n where
  nest around := by rw [Nest.after_append, hxs, h.nest]
  inside := h.inside
  names := h.names

/-- More blocks are left open, which something else will close. -/
theorem RunsOut.leave (h : RunsOut e us pre (own ++ post) d n) :
    RunsOut e us pre post d ⟨n.blocks ++ own, n.ending⟩ where
  nest around := by rw [h.nest, List.append_assoc, List.append_assoc]
  inside hend := by simp [h.inside hend]
  names := by simpa using h.names

/-- Where nothing is left of the row, closing words part what stands before them from what is
behind. -/
theorem RunsOut.parts (h : RunsOut e [] pre post d n) {cs : List Located} {t : Stream}
    (hcs : words cs = n.closing.map .keyword) (ht : AtClosing post t) :
    (t.behind cs).token.Parts := by
  have hend : n.ending = false := (congrArg Nest.ending (h.nest [])).symm
  rw [Nest.closing, hend] at hcs
  obtain ⟨b, bs, hbs, -⟩ := h.names
  exact (ht.behind hcs).parts (by rw [hbs]; exact List.cons_ne_nil _ _)

namespace Tracks

/-- What is read of the rest of a row, behind what was taken of it. -/
theorem behind {r : Stream → Outcome α}
    (h : Tracks e vs mid post done (fun t => r (t.behind vs)) o)
    (hxs : ∀ around, Nest.after ⟨pre ++ around, false⟩ xs = ⟨mid ++ around, false⟩)
    (hlong : ∀ t : Stream, (vs = [] → t.token.Parts) → long t = r (t.behind vs)) :
    Tracks e (xs ++ vs) pre post done long o := by
  cases h with
  | @ok a ys ws hus hys h =>
    subst hus
    refine .ok (List.append_assoc _ _ _).symm (fun around => ?_) fun t ht => ?_
    · rw [Nest.after_append, hxs, hys]
    · rw [hlong t fun hnil => ht (List.append_eq_nil_iff.1 hnil).2, h t ht]
  | runsOut hout h =>
    refine .runsOut (hout.behind hxs) fun cs t hcs ht => ?_
    obtain ⟨a, ha, hr⟩ := h cs t hcs ht
    refine ⟨a, ha, ?_⟩
    rw [hlong, hr]
    rintro rfl
    exact hout.parts hcs ht
  | fault hd => exact .fault hd
  | endless => exact .endless

theorem andThen {f : α → Stream → Outcome β} (h : Tracks e us pre (own ++ post) done long o)
    (hf : ∀ a vs, vs <:+ us → Tracks e vs (own ++ post) post done'
      (fun t => f a (t.behind vs)) (f a ((⟨e, []⟩ : Stream).behind vs)))
    (hc : ∀ a cs t, done a → words cs = (closings own).map .keyword → AtClosing post t →
      ∃ b, done' b ∧ f a (t.behind cs) = .ok b t) :
    Tracks e us pre post done' (fun t => (long t).andThen f) (o.andThen f) := by
  cases h with
  | @ok a xs vs hus hxs h =>
    subst hus
    rw [Outcome.andThen_ok]
    exact (hf a vs (List.suffix_append xs vs)).behind hxs fun t ht => by
      rw [h t ht, Outcome.andThen_ok]
  | @runsOut d s n hout h =>
    refine .runsOut hout.leave fun cs t hcs ht => ?_
    rw [Nest.closing_append own hout.inside, List.map_append] at hcs
    obtain ⟨cs, cs', rfl, hcs, hcs'⟩ := words_eq_append.1 hcs
    obtain ⟨a, ha, hr⟩ := h cs (t.behind cs') hcs (ht.behind hcs')
    obtain ⟨b, hb, hfa⟩ := hc a cs' t ha hcs' ht
    refine ⟨b, hb, ?_⟩
    rw [Stream.behind_append, hr, Outcome.andThen_ok, hfa]
  | fault hd => exact .fault hd
  | endless => exact .endless

/-- What is taken for a value leads from the blocks before it to those behind it. -/
theorem of_ok {a : α} (h : Tracks e us pre post done long (.ok a ((⟨e, []⟩ : Stream).behind vs))) :
    ∃ xs, us = xs ++ vs ∧
      ∀ around, Nest.after ⟨pre ++ around, false⟩ xs = ⟨post ++ around, false⟩ := by
  generalize hs : (⟨e, []⟩ : Stream).behind vs = s at h
  cases h with
  | @ok _ xs _ hus hxs =>
    obtain rfl := Stream.behind_inj.1 hs
    exact ⟨xs, hus, hxs⟩

theorem map (h : Tracks e us pre post done long o) {f : α → β} (hf : ∀ a, done a → done' (f a)) :
    Tracks e us pre post done' (fun t => (long t).map f) (o.map f) := by
  have h' : Tracks e us pre ([] ++ post) done long o := h
  refine h'.andThen (fun a vs _ => ?_) fun a cs t ha hcs _ => ?_
  · exact .ok (List.nil_append vs).symm (fun _ => rfl) fun _ _ => rfl
  · obtain rfl : cs = [] := words_eq_nil.1 hcs
    exact ⟨f a, hf a ha, rfl⟩

/-- What takes no word that opens or ends a block comes to a value or to a fault of grammar. -/
theorem blockless_cases (hp : Persists e us long o)
    (hb : o.Blockless ((⟨e, []⟩ : Stream).behind us)) :
    (∃ a xs vs, us = xs ++ vs ∧ o = .ok a ((⟨e, []⟩ : Stream).behind vs) ∧
      (∀ bs, Nest.after ⟨bs, false⟩ xs = ⟨bs, false⟩) ∧
        ∀ t : Stream, (vs = [] → t.token.Parts) → long t = .ok a (t.behind vs)) ∨
      (∃ d s, o = .fail d s ∧ d.kind = .grammar) ∨ o = .endless := by
  have hfault : ∀ {d s}, o = .fail d s → d.kind = .grammar := by
    rintro d s rfl
    cases hb with
    | fail hd => exact hd
  cases hp with
  | @ok a vs hvs h =>
    cases hb with
    | @ok _ _ xs heq hxs =>
      rw [← Stream.behind_append, Stream.behind_inj] at heq
      exact .inl ⟨a, xs, vs, heq, rfl, fun _ => Nest.after_blockless hxs, h⟩
  | atEnd => exact .inr (.inl ⟨_, _, rfl, hfault rfl⟩)
  | before => exact .inr (.inl ⟨_, _, rfl, hfault rfl⟩)
  | deep ho =>
    obtain ⟨s, hs⟩ := ho
    exact .inr (.inl ⟨_, s, hs, hfault hs⟩)
  | endless => exact .inr (.inr rfl)

theorem of_blockless (hp : Persists e us long o)
    (hb : o.Blockless ((⟨e, []⟩ : Stream).behind us)) : Tracks e us pre pre done long o := by
  obtain ⟨a, xs, vs, hus, rfl, hxs, h⟩ | ⟨d, s, rfl, hd⟩ | rfl := blockless_cases hp hb
  · exact .ok hus (fun _ => hxs _) h
  · exact .fault hd
  · exact .endless

theorem andThen_of_blockless {f : α → Stream → Outcome β} (hp : Persists e us long o)
    (hb : o.Blockless ((⟨e, []⟩ : Stream).behind us))
    (hf : ∀ a vs, vs <:+ us → Tracks e vs pre post done' (fun t => f a (t.behind vs))
      (f a ((⟨e, []⟩ : Stream).behind vs))) :
    Tracks e us pre post done' (fun t => (long t).andThen f) (o.andThen f) := by
  obtain ⟨a, xs, vs, rfl, rfl, hxs, h⟩ | ⟨d, s, rfl, hd⟩ | rfl := blockless_cases hp hb
  · rw [Outcome.andThen_ok]
    exact (hf a vs (List.suffix_append xs vs)).behind (fun _ => hxs _) fun t ht => by
      rw [h t ht, Outcome.andThen_ok]
  · exact .fault hd
  · exact .endless

end Tracks

end Tracking

/-! ## Readers -/

namespace Reader

variable {α β : Type} {e : Located} {us : List Located} {pre own post : List OpenBlock}
  {done : α → Prop} {done' : β → Prop}

/-- The reader takes no word that opens or ends a block, and all its faults are of grammar. -/
def Blockless (r : Reader α) : Prop :=
  ∀ s, s.Ends → (r s).Blockless s

/-- The reader, which leads from the blocks `pre` to the blocks `post`, on a row. -/
def TracksAt (r : Reader α) (e : Located) (us : List Located) (pre post : List OpenBlock)
    (done : α → Prop) : Prop :=
  ((⟨e, []⟩ : Stream).behind us).Ends →
    Tracks e us pre post done (fun t => r (t.behind us)) (r ((⟨e, []⟩ : Stream).behind us))

/-- The reader is content with the words that close the blocks `own`, inside `post`. -/
def Closes (r : Reader α) (own post : List OpenBlock) (done : α → Prop) : Prop :=
  ∀ cs t, words cs = (closings own).map .keyword → AtClosing post t →
    ∃ a, done a ∧ r (t.behind cs) = .ok a t

namespace Blockless

variable {r r' : Reader α} {f : α → Reader β}

theorem bind (h : r.Blockless) (hf : ∀ a, (f a).Blockless) : (r >>= f).Blockless :=
  fun s hs => (h s hs).andThen hs fun a s' hs' => hf a s' hs'

theorem pure (a : α) : (Pure.pure a : Reader α).Blockless :=
  fun s _ => .pure a s

theorem failAt {d : Stream → Diagnostic} (h : ∀ s, (d s).kind = .grammar) :
    (Reader.failAt d : Reader α).Blockless :=
  fun s _ => .fail (h s)

theorem tooDeep : (Reader.tooDeep : Reader α).Blockless :=
  failAt fun _ => rfl

theorem ite {c : Prop} [Decidable c] (h : c → r.Blockless) (h' : ¬c → r'.Blockless) :
    (if c then r else r').Blockless := by
  split
  · next hc => exact h hc
  · next hc => exact h' hc

theorem many {round : Reader (Turn α)} (h : round.Blockless) :
    Reader.Blockless (Reader.many round) := by
  intro s hs
  induction hn : s.size using Nat.strongRecOn generalizing s with
  | _ n ih =>
    subst hn
    rw [many_run]
    refine (h s hs).andThen hs fun turn s' hs' => ?_
    obtain ⟨as, heq⟩ | ⟨g, heq⟩ := afterRound_cases turn
    · rw [heq]
      exact .pure as s'
    · rw [heq]
      split
      · next hlt => exact (ih _ hlt s' hs' rfl).map hs' g
      · exact .endless

end Blockless

theorem blockless_keyword {k : Keyword} (hk : (Token.keyword k).isBlockless = true) :
    (keyword k).Blockless := by
  intro s hs
  rw [keyword_run]
  split
  · next ht => exact .of_advance (.pure _ _) hs (ht ▸ hk)
  · exact .fail rfl

theorem blockless_symbol (y : Symbol) : (symbol y).Blockless := by
  intro s hs
  rw [symbol_run]
  split
  · next ht => exact .of_advance (.pure _ _) hs (ht ▸ rfl)
  · exact .fail rfl

theorem blockless_name (what : String) : (name what).Blockless := by
  intro s hs
  rw [name_run]
  split
  · next n ht => exact .of_advance (.pure _ _) hs (ht ▸ rfl)
  · exact .fail rfl

theorem blockless_member (what : String) : (member what).Blockless := by
  intro s hs
  rw [member_run]
  split
  · next n ht => exact .of_advance (.pure _ _) hs (ht ▸ rfl)
  · next u ht =>
    split
    · exact .of_advance (.pure _ _) hs (ht ▸ rfl)
    · exact .fail rfl
  · exact .fail rfl

theorem blockless_eat {t : Token} (ht : t.isBlockless = true) : (eat t).Blockless := by
  intro s hs
  rw [eat_run]
  split
  · next heq => exact .of_advance (.pure _ _) hs (heq ▸ ht)
  · exact .pure _ _

/-! ## Sequences -/

/-- Any value will do. -/
abbrev AnyValue : α → Prop :=
  fun _ => True

namespace Closes

variable {r : Reader α} {f : α → Reader β} {own' : List OpenBlock}

theorem bind (h : r.Closes own (own' ++ post) AnyValue) (hf : ∀ a, (f a).Closes own' post done') :
    (r >>= f).Closes (own ++ own') post done' := by
  intro cs t hcs ht
  rw [closings_append, List.map_append] at hcs
  obtain ⟨cs, cs', rfl, hcs, hcs'⟩ := words_eq_append.1 hcs
  obtain ⟨a, -, hr⟩ := h cs (t.behind cs') hcs (ht.behind hcs')
  obtain ⟨b, hb, hfa⟩ := hf a cs' t hcs' ht
  refine ⟨b, hb, ?_⟩
  rw [Stream.behind_append, bind_run, hr, Outcome.andThen_ok, hfa]

/-- What closes no block meets the words that close those around. -/
theorem of_run (h : ∀ t, AtClosing post t → ∃ a, done a ∧ r t = .ok a t) :
    r.Closes [] post done := by
  intro cs t hcs ht
  obtain rfl : cs = [] := words_eq_nil.1 hcs
  exact h t ht

theorem pure {a : α} (h : done a) : (Pure.pure a : Reader α).Closes [] post done :=
  of_run fun _ _ => ⟨a, h, rfl⟩

end Closes

namespace TracksAt

variable {r r' : Reader α} {f : α → Reader β}

/-- Behind a reader that runs out, what closes the blocks `own` is read from closing words. -/
theorem bind (own : List OpenBlock) (h : r.TracksAt e us pre (own ++ post) done)
    (hf : ∀ a vs, vs <:+ us → (f a).TracksAt e vs (own ++ post) post done')
    (hc : ∀ a, done a → (f a).Closes own post done') : (r >>= f).TracksAt e us pre post done' :=
  fun hs => (h hs).andThen (fun a vs hvs => hf a vs hvs (hs.of_suffix hvs))
    fun a cs t ha => hc a ha cs t

theorem map (h : r.TracksAt e us pre post done) {g : α → β} (hg : ∀ a, done a → done' (g a)) :
    (r >>= fun a => Pure.pure (g a)).TracksAt e us pre post done' :=
  fun hs => (h hs).map hg

theorem of_blockless (hp : r.PersistsAt e us) (hb : r.Blockless) : r.TracksAt e us pre pre done :=
  fun hs => .of_blockless hp (hb _ hs)

/-- What takes no word that opens or ends a block never runs out. -/
theorem bind_blockless (hp : r.PersistsAt e us) (hb : r.Blockless)
    (hf : ∀ a vs, vs <:+ us → (f a).TracksAt e vs pre post done') :
    (r >>= f).TracksAt e us pre post done' :=
  fun hs => .andThen_of_blockless hp (hb _ hs) fun a vs hvs => hf a vs hvs (hs.of_suffix hvs)

theorem pure (a : α) : (Pure.pure a : Reader α).TracksAt e us pre pre done :=
  of_blockless (.pure a) (.pure a)

/-- Readers that do the same on a row. -/
theorem congr (h : r'.TracksAt e us pre post done)
    (hr : ∀ t : Stream, r (t.behind us) = r' (t.behind us)) : r.TracksAt e us pre post done := by
  simpa only [TracksAt, hr] using h

/-- What takes no word that opens or ends a block, behind what may run out. -/
theorem bind_closed (h : r.TracksAt e us pre post done) (hp : ∀ a vs, (f a).PersistsAt e vs)
    (hb : ∀ a, (f a).Blockless)
    (hc : ∀ a t, done a → AtClosing post t → ∃ b, done' b ∧ f a t = .ok b t) :
    (r >>= f).TracksAt e us pre post done' :=
  bind [] h (fun a vs _ => of_blockless (hp a vs) (hb a)) fun a ha =>
    .of_run fun t ht => hc a t ha ht

/-- Looking at the first token of a row. -/
theorem peek_cons {u : Located} {f : Token → Reader β}
    (h : (f u.token).TracksAt e (u :: us) pre post done') :
    (Reader.peek >>= f).TracksAt e (u :: us) pre post done' :=
  h

/-- Looking at the place of the first token of a row. -/
theorem here_cons {u : Located} {f : Located → Reader β}
    (h : (f u).TracksAt e (u :: us) pre post done') :
    (Reader.here >>= f).TracksAt e (u :: us) pre post done' :=
  h

theorem of_fault
    (h : ∃ d s, r ((⟨e, []⟩ : Stream).behind us) = .fail d s ∧ d.kind = .grammar) :
    r.TracksAt e us pre post done := by
  intro _
  obtain ⟨d, s, hr, hd⟩ := h
  rw [hr]
  exact .fault hd

theorem bind_of_fault
    (h : ∃ d s, r ((⟨e, []⟩ : Stream).behind us) = .fail d s ∧ d.kind = .grammar) :
    (r >>= f).TracksAt e us pre post done' := by
  obtain ⟨d, s, hr, hd⟩ := h
  exact of_fault ⟨d, s, by rw [bind_run, hr, Outcome.andThen_fail], hd⟩

/-- The reader runs out before it takes anything. -/
theorem of_end (own : List OpenBlock) {b : OpenBlock} {bs : List OpenBlock}
    (h : ∃ s, r ⟨e, []⟩ = .fail (.unterminated e.span b.kind.text b.line) s)
    (hbs : own ++ post = b :: bs) (hc : r.Closes own post done) :
    r.TracksAt e [] (own ++ post) post done := by
  intro _
  obtain ⟨s, h⟩ := h
  rw [Stream.behind_nil, h]
  exact .runsOut (n := ⟨own, false⟩) ⟨fun _ => by simp, by simp, b, bs, hbs, rfl⟩ hc

/-- The first word of the row opens a block. -/
theorem opens {u : Located} {kind : BlockKind} {pre' : List OpenBlock}
    (h : r'.TracksAt e us (⟨kind, u.line, false⟩ :: pre') post done)
    (hu : u.token = .keyword kind.closer)
    (hpre : ∀ around, (pre ++ around).modifyHead (·.enter kind) = pre' ++ around)
    (hr : ∀ t : Stream, r (t.behind (u :: us)) = r' (t.behind us)) :
    r.TracksAt e (u :: us) pre post done := by
  intro hs
  have hstep : ∀ around, Nest.after ⟨pre ++ around, false⟩ [u] =
      ⟨⟨kind, u.line, false⟩ :: pre' ++ around, false⟩ := by
    intro around
    rw [Nest.after_cons, Nest.after_nil, Nest.step_opener hu, hpre]
    rfl
  rw [hr]
  exact (h (hs.of_suffix (List.suffix_cons u us))).behind hstep fun t _ => hr t

/-- Passing over the word that opens a block, which is not the `main` of those around. -/
theorem skip_opener {u : Located} (kind : BlockKind) {f : Unit → Reader β}
    (h : (f ()).TracksAt e us (⟨kind, u.line, false⟩ :: pre) post done')
    (hu : u.token = .keyword kind.closer) (hkind : kind ≠ .main) :
    (Reader.skip >>= f).TracksAt e (u :: us) pre post done' := by
  refine h.opens hu (fun _ => OpenBlock.modifyHead_enter_of_ne hkind _) fun t => ?_
  rw [bind_run, skip_run, Stream.advance_behind_cons, Outcome.andThen_ok]

/-- What a repetition comes to before closing words, from what its round does. -/
theorem exists_many {round : Reader (Turn α)} {turn : Turn α} {ws : List Located} {t : Stream}
    (hround : round (t.behind ws) = .ok turn t)
    (h : turn = .stop ∨ (∃ a, turn = .last a) ∨ ∃ as, Reader.many round t = .ok as t) :
    ∃ as, Reader.many round (t.behind ws) = .ok as t := by
  obtain rfl | ⟨a, rfl⟩ | ⟨as, has⟩ := h
  · exact ⟨[], many_stop hround⟩
  · exact ⟨[a], many_last hround⟩
  cases ws with
  | nil => exact ⟨as, has⟩
  | cons w ws =>
    have hlt : t.size < (t.behind (w :: ws)).size := by
      rw [Stream.size_behind, List.length_cons]
      omega
    cases turn with
    | stop => exact ⟨[], many_stop hround⟩
    | last a => exact ⟨[a], many_last hround⟩
    | pass => exact ⟨as, by rw [many_pass hround hlt, has]⟩
    | item a => exact ⟨a :: as, by rw [many_item hround hlt, has, Outcome.map_ok]⟩

/-- A repetition tracks the blocks if its rounds do. A round that runs out has to be the last,
or the repetition has to stop before closing words. -/
theorem many {round : Reader (Turn α)} {last : Turn α → Prop}
    (h : ∀ vs, vs <:+ us → round.TracksAt e vs pre pre last)
    (hlast : ∀ turn t, last turn → AtClosing pre t →
      turn = .stop ∨ (∃ a, turn = .last a) ∨ ∃ as, Reader.many round t = .ok as t) :
    Reader.TracksAt (Reader.many round) e us pre pre AnyValue := by
  induction hn : us.length using Nat.strongRecOn generalizing us with
  | _ n ih =>
    subst hn
    intro hs
    have hround := h us List.suffix_rfl hs
    generalize ho : round ((⟨e, []⟩ : Stream).behind us) = o at hround
    cases hround with
    | @ok turn xs vs hus hxs hlong =>
      subst hus
      have hsize : ∀ s : Stream, (s.behind vs).size < (s.behind (xs ++ vs)).size ↔ xs ≠ [] := by
        intro s
        rw [Stream.size_behind_lt_size_behind, List.length_append, ← List.length_pos_iff]
        omega
      have hrest : xs ≠ [] → Reader.TracksAt (Reader.many round) e vs pre pre AnyValue := by
        intro hne
        refine ih vs.length ?_ (fun ws hws => h ws (hws.trans (List.suffix_append xs vs))) rfl
        rw [List.length_append]
        exact Nat.lt_add_of_pos_left (List.length_pos_iff.2 hne)
      have hs' := hs.of_suffix (List.suffix_append xs vs)
      simp only [many_run, ho, Outcome.andThen_ok]
      obtain ⟨as, heq⟩ | ⟨g, heq⟩ := afterRound_cases turn
      · rw [heq]
        exact .ok rfl hxs fun t ht => by rw [hlong t ht, Outcome.andThen_ok, heq]
      · rw [heq]
        by_cases hne : xs = []
        · rw [if_neg (mt (hsize _).1 (not_not_intro hne))]
          exact .endless
        · rw [if_pos ((hsize _).2 hne)]
          have hmap : Tracks e vs pre pre AnyValue (fun t => (Reader.many round (t.behind vs)).map g)
              ((Reader.many round ((⟨e, []⟩ : Stream).behind vs)).map g) :=
            (hrest hne hs').map fun _ _ => trivial
          exact Tracks.behind (r := fun s => (Reader.many round s).map g) hmap hxs fun t ht => by
            rw [hlong t ht, Outcome.andThen_ok, heq, if_pos ((hsize t).2 hne)]
    | runsOut hout hlong =>
      rw [many_of_fail ho]
      refine .runsOut hout fun cs t hcs ht => ?_
      obtain ⟨turn, hturn, hr⟩ := hlong cs t hcs ht
      rw [← Stream.behind_append] at hr ⊢
      obtain ⟨as, has⟩ := exists_many hr (hlast turn t hturn ht)
      exact ⟨as, trivial, has⟩
    | fault hd =>
      rw [many_of_fail ho]
      exact .fault hd
    | endless =>
      rw [many_of_endless ho]
      exact .endless

end TracksAt

end Reader

end OpsLang
