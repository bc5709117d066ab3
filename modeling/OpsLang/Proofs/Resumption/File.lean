import Mathlib
import OpsLang.Proofs.Resumption.Stages
import OpsLang.Proofs.Scanning

/-!
# Where a recovering reading goes on

Behind the fault of an item the reading goes on at the next place where an item may begin. Of
the tokens that are skipped only the first, which the fault was found in front of, can be such
a place (`recoverFile_skips`).

The items that are kept begin outside all braces, as long as no declaration in front of them was
given up inside its own braces (`recoverFile_level`). Braces inside procedures do not count :
the grammar has none there, and the skipping inside a block does not look for them.
-/

namespace OpsLang

namespace Grammar

open Reader

/-! ## Skipping -/

/-- An item may begin with the token `t` behind the tokens `xs`. -/
def MayBegin (xs : List Token) (t : Token) : Prop :=
  beginsItem t = true ∧ openBraces 0 xs = 0 ∧ xs.getLast? ≠ some (.keyword .end_)

instance (xs : List Token) (t : Token) : Decidable (MayBegin xs t) :=
  inferInstanceAs (Decidable (_ ∧ _ ∧ _))

/-- What skipping with `depth` open braces passes over : no keyword of an item outside the
braces, unless `end` stands in front of it or it stands first and may not be stopped at. -/
theorem nextItemFrom_ok {depth : Nat} {mayStop : Bool} {t : Located} {ts : List Located}
    {s' : Stream} (h : nextItemFrom depth mayStop t ts = .ok () s') :
    ∃ us, (⟨t, ts⟩ : Stream) = s'.behind us ∧
      (s'.token = .eof ∨ beginsItem s'.token = true ∧ openBraces depth (words us) = 0) ∧
      ∀ xs u ys, words us = xs ++ u :: ys → beginsItem u = true → openBraces depth xs = 0 →
        xs = [] ∧ mayStop = false ∨ xs.getLast? = some (.keyword .end_) := by
  fun_induction nextItemFrom depth mayStop t ts with
  | case1 depth mayStop t ts ht =>
    obtain ⟨-, rfl⟩ := Outcome.ok.inj h
    exact ⟨[], rfl, .inl ht, by simp⟩
  | case2 depth mayStop t ts ht hstop =>
    obtain ⟨-, rfl⟩ := Outcome.ok.inj h
    exact ⟨[], rfl, .inr ⟨hstop.2.2, hstop.1⟩, by simp⟩
  | case3 => cases h
  | case4 depth mayStop t ht hgo t' ts' ih =>
    obtain ⟨us, hus, hend, hnone⟩ := ih h
    refine ⟨t :: us, ?_, hend, fun xs u ys hxs hu hopen => ?_⟩
    · have hrow := congrArg Stream.row hus
      rw [Stream.row_behind] at hrow
      exact congrArg (Stream.mk t) hrow
    · obtain _ | ⟨x, xs⟩ := xs
      · -- The skipping would have stopped at its first token, if it might.
        obtain ⟨rfl, -⟩ := List.cons.inj hxs
        have hdepth : depth = 0 := hopen
        exact .inl ⟨rfl, by simpa [hdepth, hu] using hgo⟩
      · obtain ⟨rfl, htail⟩ := List.cons.inj hxs
        obtain ⟨rfl, hend⟩ | hlast := hnone xs u ys htail hu hopen
        · exact .inr (by simpa using hend)
        · exact .inr (by rw [List.getLast?_cons, hlast, Option.getD_some])

namespace Stage

variable {g : Stage}

/-- What is skipped behind the fault of an item, if the reading goes on : it goes on at an item
or at the end of the text, and no keyword that it passes over could begin one, but perhaps the
first token. -/
theorem Read.skipped_of_fault (h : g.Read) {d : Diagnostic} (hd : d ∈ g.fault?)
    (hfatal : d.isFatal = false) :
    g.stop.Reaches g.next ∧
      (g.next.token = .eof ∨
        beginsItem g.next.token = true ∧ openBraces 0 (words g.skipped) = 0) ∧
      ∀ xs u ys, words g.skipped = xs ++ u :: ys → xs ≠ [] → beginsItem u = true →
        openBraces 0 xs = 0 → xs.getLast? = some (.keyword .end_) := by
  obtain ⟨us, hus, hend, hnone⟩ := nextItemFrom_ok (h.dropped d hd hfatal)
  have hstop : g.stop = g.next.behind us := hus
  have hskipped : g.skipped = us := by rw [skipped, hstop, Stream.upTo_behind]
  rw [hskipped]
  refine ⟨⟨us, hstop⟩, hend, fun xs u ys hxs hne hu hopen => ?_⟩
  obtain ⟨hnil, -⟩ | hlast := hnone xs u ys hxs hu hopen
  · exact absurd hnil hne
  · exact hlast

/-- Of the tokens of the row `ts` that were skipped behind the fault of the item, `xs` stand in
front of `t`, and an item may begin with `t` in the row. -/
def PassesOver (ts : List Located) (g : Stage) (xs : List Token) (t : Token) : Prop :=
  xs ++ [t] <+: words g.skipped ∧ MayBegin (words ((Stream.ofTokens ts).upTo g.stop) ++ xs) t

instance (ts : List Located) (g : Stage) (xs : List Token) (t : Token) :
    Decidable (g.PassesOver ts xs t) :=
  inferInstanceAs (Decidable (_ ∧ _))

/-- The reading of the file goes on behind the round. -/
def Resumes (g : Stage) : Prop :=
  ∀ d ∈ g.fault?, d.isFatal = false

theorem Read.reaches_next (h : g.Read) (hresumes : g.Resumes) : g.stop.Reaches g.next := by
  cases hf : g.fault? with
  | none =>
    rw [h.kept hf]
    exact .refl _
  | some d => exact (h.skipped_of_fault hf (hresumes d hf)).1

end Stage

/-! ## Rounds behind one another -/

/-- The rounds lead from one place to another. -/
inductive Leads : Stream → List Stage → Stream → Prop
  | nil (s : Stream) : Leads s [] s
  | cons {g : Stage} {gs : List Stage} {s : Stream} (h : g.Read) (hresumes : g.Resumes)
      (hs : Leads g.next gs s) : Leads g.origin (g :: gs) s

theorem stages_eq_append {cap count : Nat} {s : Stream} {pre post : List Stage} {g : Stage}
    (h : stages cap count s = pre ++ g :: post) : Leads s pre g.origin ∧ g.Read := by
  induction pre generalizing count s with
  | nil =>
    obtain ⟨rfl, hread, -⟩ := stages_eq_cons h
    exact ⟨.nil _, hread⟩
  | cons p pre ih =>
    obtain ⟨rfl, hread, hnil | ⟨hresumes, n, hrest⟩⟩ := stages_eq_cons h
    · simp at hnil
    · obtain ⟨hleads, hg⟩ := ih hrest.symm
      exact ⟨.cons hread hresumes hleads, hg⟩

theorem Leads.reaches {s s' : Stream} {gs : List Stage} (h : Leads s gs s') (hs : s.Closed) :
    s.Reaches s' := by
  induction h with
  | nil s => exact .refl s
  | cons hread hresumes _ ih =>
    have hstart := hread.reaches_start hs
    have hstop := hread.reaches_stop (hstart.closed hs)
    have hnext := (hstart.trans hstop).trans (hread.reaches_next hresumes)
    exact hnext.trans (ih (hnext.closed hs))

/-! ## Braces outside procedures -/

namespace Stage

/-- The tokens of the round that stand in no procedure. -/
def outside (g : Stage) : List Token :=
  words (g.origin.upTo g.start) ++
    (if g.start.token = .keyword .procedure then [] else words (g.start.upTo g.stop)) ++
      words g.skipped

/-- A declaration was given up while braces of its own were open. -/
def GivenUpInside (g : Stage) : Prop :=
  g.fault?.isSome ∧ g.start.token ≠ .keyword .procedure ∧
    openBraces 0 (words (g.start.upTo g.stop)) ≠ 0

instance (g : Stage) : Decidable g.GivenUpInside :=
  inferInstanceAs (Decidable (_ ∧ _ ∧ _))

variable {g : Stage}

theorem Read.balanced_semicolons (h : g.Read) (hs : g.origin.Closed) :
    Balanced (words (g.origin.upTo g.start)) := by
  obtain ⟨us, hus, hall, -⟩ := semicolons_eq_ok hs h.semicolons
  rw [hus, Stream.upTo_behind]
  exact .semicolons (forall_mem_words.2 hall)

/-- A declaration that was kept opens as many braces as it closes. -/
theorem Read.balanced_declaration (h : g.Read) (hs : g.start.Ends) (hkept : g.fault? = none)
    (htoken : g.start.token ≠ .keyword .procedure) :
    Balanced (words (g.start.upTo g.stop)) := by
  have hitem : (Grammar.item .recovering).outcome g.start = g.outcome := congrArg Prod.snd h.item
  unfold fault? at hkept
  unfold outcome at hitem
  split at hkept
  case h_2 => cases hkept
  case h_1 a hr =>
    simp only [hr] at hitem
    have hdecl : ∀ {d : Declaration → Item},
        (declaration maxNesting g.start).map d = .ok a g.stop →
          Balanced (words (g.start.upTo g.stop)) := by
      intro d hd
      obtain ⟨b, hb, -⟩ := Outcome.map_eq_ok.1 hd
      obtain ⟨us, hus, hbalanced⟩ := balances_declaration maxNesting hs hb
      rwa [hus, Stream.upTo_behind]
    rw [item_run] at hitem
    split at hitem
    · next hproc => exact absurd hproc htoken
    · exact hdecl hitem
    · exact hdecl hitem
    · cases hitem

/-- A round that goes on to another leaves no brace open outside procedures. -/
theorem Read.openBraces_outside (h : g.Read) (hs : g.origin.Ends) (hresumes : g.Resumes)
    (hinside : ¬g.GivenUpInside) (hnext : g.next.token ≠ .eof) : openBraces 0 g.outside = 0 := by
  have hstart := (h.reaches_start hs.closed).ends hs
  have hitem : openBraces 0 (if g.start.token = .keyword .procedure then []
      else words (g.start.upTo g.stop)) = 0 := by
    split
    · rfl
    next htoken =>
    cases hf : g.fault? with
    | none => exact h.balanced_declaration hstart hf htoken 0
    | some d =>
      by_contra hopen
      exact hinside ⟨by simp [hf], htoken, hopen⟩
  have hskipped : openBraces 0 (words g.skipped) = 0 := by
    cases hf : g.fault? with
    | none =>
      rw [skipped, h.kept hf, Stream.upTo_self]
      rfl
    | some d =>
      obtain ⟨-, heof | ⟨-, hopen⟩, -⟩ := h.skipped_of_fault hf (hresumes d hf)
      · exact absurd heof hnext
      · exact hopen
  rw [outside, openBraces_append, openBraces_append, h.balanced_semicolons hs.closed, hitem,
    hskipped]

end Stage

/-- Rounds that lead to another leave no brace open outside procedures. -/
theorem Leads.openBraces_outside {s s' : Stream} {gs : List Stage} (h : Leads s gs s')
    (hs : s.Ends) (hinside : ∀ g ∈ gs, ¬g.GivenUpInside) (hs' : s'.token ≠ .eof) :
    openBraces 0 (gs.flatMap Stage.outside) = 0 := by
  induction h with
  | nil => rfl
  | @cons g gs s' hread hresumes hleads ih =>
    have hstart := hread.reaches_start hs.closed
    have hstop := hread.reaches_stop (hstart.closed hs.closed)
    have hnext := ((hstart.trans hstop).trans (hread.reaches_next hresumes)).ends hs
    have htoken : g.next.token ≠ .eof := by
      intro heof
      obtain rfl := (hleads.reaches hnext.closed).eq_of_eof hnext heof
      exact hs' heof
    obtain ⟨hg, hgs⟩ := List.forall_mem_cons.1 hinside
    rw [List.flatMap_cons, openBraces_append, hread.openBraces_outside hs hresumes hg htoken]
    exact ih hnext hgs hs'

end Grammar

open Grammar

/-- The rounds that a recovering reading of a row goes through. -/
def recoveryStages (maxErrors : Nat) (ts : List Located) : List Stage :=
  stages (max 1 maxErrors) 0 (.ofTokens ts)

theorem recoverFile_eq_stages {ts : List Located} (hts : EndsOnce ts) (maxErrors : Nat) :
    recoverFile maxErrors ts =
      some ⟨⟨(recoveryStages maxErrors ts).filterMap Stage.item?⟩,
        ((recoveryStages maxErrors ts).flatMap Stage.found).take (max 1 maxErrors)⟩ := by
  obtain ⟨f, hf, hread⟩ := exists_recoverFile hts.endsLast maxErrors
  rw [hread, recoverFrom_eq_stages hf]
  rfl

/-- Behind the fault of an item, a recovering reading of the tokens of a text goes on at a
keyword that begins an item or at the end of the text. Of the tokens it skips, only the first can
be one that an item may begin with. -/
theorem recoverFile_skips {text : String} {ts : List Located} (h : tokenize text = .ok ts)
    (maxErrors : Nat) :
    (∃ ds, recoverFile maxErrors ts =
      some ⟨⟨(recoveryStages maxErrors ts).filterMap Stage.item?⟩, ds⟩) ∧
      ∀ g ∈ recoveryStages maxErrors ts, ∀ d ∈ g.fault?, d.isFatal = false →
        (g.next.token = .eof ∨ beginsItem g.next.token = true) ∧
          ∀ xs t, g.PassesOver ts xs t → xs = [] := by
  have hends := endsOnce_of_tokenize h
  refine ⟨⟨_, recoverFile_eq_stages hends maxErrors⟩, fun g hg d hd hfatal => ?_⟩
  obtain ⟨pre, post, hsplit⟩ := List.append_of_mem hg
  obtain ⟨-, hread⟩ := stages_eq_append hsplit
  obtain ⟨-, hend, hnone⟩ := hread.skipped_of_fault hd hfatal
  refine ⟨hend.imp id And.left, ?_⟩
  rintro xs t ⟨⟨ys, hxs⟩, ht, hopen, hlast⟩
  by_contra hne
  -- Where no brace of the file is open, none is that was opened by the skipping.
  have hskip : openBraces 0 xs = 0 := by
    rw [openBraces_append] at hopen
    exact Nat.le_zero.1 (hopen ▸ openBraces_le (Nat.zero_le _) xs)
  have hsplit : words g.skipped = xs ++ t :: ys := by rw [← hxs, List.append_assoc]; rfl
  refine hlast ?_
  rw [List.getLast?_append, hnone xs t ys hsplit hne ht hskip, Option.some_or]

/-- Behind the name `b`, which is no type to declare, a token is skipped in front of the next
item. -/
theorem recoverFile_skips_to_type :
    ∃ ts, tokenize "type a b c type d u8" = .ok ts ∧
      (∃ ds, recoverFile 3 ts = some ⟨⟨(recoveryStages 3 ts).filterMap Stage.item?⟩, ds⟩) ∧
        ∀ g ∈ recoveryStages 3 ts, ∀ d ∈ g.fault?, d.isFatal = false →
          (g.next.token = .eof ∨ beginsItem g.next.token = true) ∧
            ∀ xs t, g.PassesOver ts xs t → xs = [] := by
  obtain ⟨ts, h⟩ : ∃ ts, tokenize "type a b c type d u8" = .ok ts :=
    exists_tokenize_of_isOk (by cbv)
  exact ⟨ts, h, recoverFile_skips h 3⟩

/-- The first token that is skipped can begin an item : behind the name `b` the keyword of the
next item is passed over, and that item is in no report. -/
theorem recoverFile_skips_over_type :
    ∃ ts, tokenize "type a b type d u8" = .ok ts ∧
      ∃ g, recoveryStages 3 ts = [g] ∧ (∃ d ∈ g.fault?, d.isFatal = false) ∧
        g.PassesOver ts [] (.keyword .type) := by
  have htokens : tokenize "type a b type d u8" = .ok
      [⟨.keyword .type, ⟨0, 4, 1, 1⟩⟩, ⟨.name "a", ⟨5, 6, 1, 6⟩⟩, ⟨.name "b", ⟨7, 8, 1, 8⟩⟩,
        ⟨.keyword .type, ⟨9, 13, 1, 10⟩⟩, ⟨.name "d", ⟨14, 15, 1, 15⟩⟩,
        ⟨.name "u8", ⟨16, 18, 1, 17⟩⟩, ⟨.eof, ⟨18, 18, 1, 19⟩⟩] := by
    cbv
  refine ⟨_, htokens, _, by cbv, ⟨_, rfl, rfl⟩, ?_⟩
  decide

/-- An item that a recovering reading of the tokens of a text keeps begins where no brace outside
procedures is open, if no declaration in front of it was given up inside its own braces. -/
theorem recoverFile_level {text : String} {ts : List Located} (h : tokenize text = .ok ts)
    (maxErrors : Nat) :
    (∃ ds, recoverFile maxErrors ts =
      some ⟨⟨(recoveryStages maxErrors ts).filterMap Stage.item?⟩, ds⟩) ∧
      ∀ pre g post, recoveryStages maxErrors ts = pre ++ g :: post →
        (∀ p ∈ pre, ¬p.GivenUpInside) → ∀ a ∈ g.item?,
          item .recovering g.start = (g.reports, .ok a g.stop) ∧
            openBraces 0 (pre.flatMap Stage.outside ++ words (g.origin.upTo g.start)) = 0 := by
  have hends := endsOnce_of_tokenize h
  have hs := Stream.ends_ofTokens hends
  refine ⟨⟨_, recoverFile_eq_stages hends maxErrors⟩, fun pre g post hsplit hinside a ha => ?_⟩
  obtain ⟨hleads, hread⟩ := stages_eq_append hsplit
  have horigin := (hleads.reaches hs.closed).ends hs
  refine ⟨?_, ?_⟩
  · have houtcome := hread.item
    unfold Stage.outcome at houtcome
    unfold Stage.item? at ha
    cases hr : g.result with
    | ok b =>
      rw [hr] at ha houtcome
      obtain rfl := Option.some.inj ha
      exact houtcome
    | error d =>
      rw [hr] at ha
      cases ha
  · have htoken : g.origin.token ≠ .eof := by
      intro heof
      have hstart := (hread.reaches_start horigin.closed).eq_of_eof horigin heof
      exact hread.token (hstart ▸ heof)
    rw [openBraces_append, hleads.openBraces_outside hs hinside htoken,
      hread.balanced_semicolons horigin.closed]

/-- Neither the brace in the procedure nor the declaration that was given up in front of it is
in the way of the last item. -/
theorem recoverFile_level_behind_procedure :
    ∃ ts pre g a,
      tokenize "type 1 procedure P main \x7b end main end procedure type c u8" = .ok ts ∧
      recoveryStages 3 ts = pre ++ [g] ∧ (∀ p ∈ pre, ¬p.GivenUpInside) ∧ a ∈ g.item? ∧
        item .recovering g.start = (g.reports, .ok a g.stop) ∧
          openBraces 0 (pre.flatMap Stage.outside ++ words (g.origin.upTo g.start)) = 0 := by
  obtain ⟨ts, hts⟩ : ∃ ts : List Located, ts =
      [⟨.keyword .type, ⟨0, 4, 1, 1⟩⟩, ⟨.number "1", ⟨5, 6, 1, 6⟩⟩,
        ⟨.keyword .procedure, ⟨7, 16, 1, 8⟩⟩, ⟨.name "P", ⟨17, 18, 1, 18⟩⟩,
        ⟨.keyword .main, ⟨19, 23, 1, 20⟩⟩, ⟨.symbol .leftBrace, ⟨24, 25, 1, 25⟩⟩,
        ⟨.keyword .end_, ⟨26, 29, 1, 27⟩⟩, ⟨.keyword .main, ⟨30, 34, 1, 31⟩⟩,
        ⟨.keyword .end_, ⟨35, 38, 1, 36⟩⟩, ⟨.keyword .procedure, ⟨39, 48, 1, 40⟩⟩,
        ⟨.keyword .type, ⟨49, 53, 1, 50⟩⟩, ⟨.name "c", ⟨54, 55, 1, 55⟩⟩,
        ⟨.name "u8", ⟨56, 58, 1, 57⟩⟩, ⟨.eof, ⟨58, 58, 1, 59⟩⟩] := ⟨_, rfl⟩
  have htokens :
      tokenize "type 1 procedure P main \x7b end main end procedure type c u8" = .ok ts := by
    rw [hts]
    cbv
  obtain ⟨p, q, g, hstages, hinside, a, ha⟩ : ∃ p q g, recoveryStages 3 ts = [p, q] ++ [g] ∧
      (∀ p' ∈ [p, q], ¬p'.GivenUpInside) ∧ ∃ a, a ∈ g.item? := by
    rw [hts]
    exact ⟨_, _, _, by cbv, by decide, _, rfl⟩
  obtain ⟨-, hlevel⟩ := recoverFile_level htokens 3
  exact ⟨_, [p, q], g, a, htokens, hstages, hinside, ha, hlevel _ _ _ hstages hinside a ha⟩

/-- Braces inside procedures are not counted : behind a statement that is dropped for one, the
next item is kept although the brace is never closed. -/
theorem recoverFile_level_open_brace :
    ∃ ts, tokenize "procedure P main \x7b end main end procedure type c u8" = .ok ts ∧
      ∃ p g, recoveryStages 3 ts = [p, g] ∧ p.item?.isSome ∧ g.item?.isSome ∧
        openBraces 0 (words ((Stream.ofTokens ts).upTo g.start)) = 1 := by
  have htokens : tokenize "procedure P main \x7b end main end procedure type c u8" = .ok
      [⟨.keyword .procedure, ⟨0, 9, 1, 1⟩⟩, ⟨.name "P", ⟨10, 11, 1, 11⟩⟩,
        ⟨.keyword .main, ⟨12, 16, 1, 13⟩⟩, ⟨.symbol .leftBrace, ⟨17, 18, 1, 18⟩⟩,
        ⟨.keyword .end_, ⟨19, 22, 1, 20⟩⟩, ⟨.keyword .main, ⟨23, 27, 1, 24⟩⟩,
        ⟨.keyword .end_, ⟨28, 31, 1, 29⟩⟩, ⟨.keyword .procedure, ⟨32, 41, 1, 33⟩⟩,
        ⟨.keyword .type, ⟨42, 46, 1, 43⟩⟩, ⟨.name "c", ⟨47, 48, 1, 48⟩⟩,
        ⟨.name "u8", ⟨49, 51, 1, 50⟩⟩, ⟨.eof, ⟨51, 51, 1, 52⟩⟩] := by
    cbv
  exact ⟨_, htokens, _, _, by cbv, rfl, rfl, by decide⟩

end OpsLang
