import Mathlib
import OpsLang.Proofs.Agreement
import OpsLang.Proofs.Mending.Statement
import OpsLang.Proofs.Scanning

/-!
# Files of mended rows

A recovering reading of a file invents nothing : the row can be mended, with a semicolon for
every run of tokens that was skipped, so that the strict reading accepts it with the same file
(`recoverFile_mended`).

Inside an item that is kept, the pieces are those of its blocks (`mends_item`). An item that is
dropped is skipped as a whole, up to the place where the next one may begin, together with
whatever was skipped inside it before. After a fatal fault, or with as many diagnostics as were
asked for, the rest of the row is skipped.
-/

namespace OpsLang

namespace Grammar

open Reader

variable {s s' : Stream}

/-! ## Declarations -/

theorem mendsAt_namespaceDeclaration {inner : Reader Declaration}
    (hi : Mends .firm .loose inner inner) (hs : s.Ends) (h : s.token ≠ .eof) :
    MendsAt .firm .loose (namespaceDeclaration inner) (namespaceDeclaration inner) s := by
  have hround : Mends .firm .loose (childRound inner) (childRound inner) := by
    refine mends_semicolons.bind (i := .firm) fun _ s hs => .peek ?_
    split
    · next ht => exact .skip hs (by simp [ht]) (.pure _)
    · exact (hi.bind fun _ => mends_pure _) hs
    · exact (hi.bind fun _ => mends_pure _) hs
    · exact .failAt _
  have hrounds : Mends .firm .loose (many (childRound inner)) (many (childRound inner)) :=
    hround.many
  refine .here (.skip (k := .firm) hs h ?_)
  exact (local_path.mends.bind fun _ => (mends_symbol _).bind fun _ => hrounds.bind fun _ =>
    mends_pure _) hs.advance

theorem mends_declarationOf (room : Nat) {inner : Reader Declaration}
    (hi : Mends .firm .loose inner inner) :
    Mends .firm .loose (declarationOf (typeAt room) inner) (declarationOf (typeAt room) inner) := by
  refine fun s hs => .peek ?_
  split
  · next h => exact mendsAt_namespaceDeclaration hi hs (by simp [h])
  · next h => exact (localAt_typeDeclaration room hs.closed.hasEnd (by simp [h])).mendsAt
  · exact .failAt _

theorem mends_declarationAt (room : Nat) :
    Mends .firm .loose (declarationAt room) (declarationAt room) := by
  induction room with
  | zero => exact mends_failAt _
  | succ room ih => exact mends_declarationOf room ih

/-! ## Procedures and items -/

theorem mendsAt_section (kind : BlockKind) (hs : s.Ends) (h : s.token ≠ .eof) :
    MendsAt .firm .loose (section_ .recovering kind).outcome (section_ .strict kind).outcome
      s := by
  simp only [section_, Reporter.outcome_bind, Reporter.outcome_liftM, Reporter.outcome_pure]
  exact .here (.skip hs h (((mends_statements _ _ _ _).bind fun _ => (mends_endOf _ _).bind
    fun _ => mends_pure _) hs.advance))

theorem mends_optionalSection (kind : BlockKind) :
    Mends .firm .firm (optionalSection .recovering kind).outcome
      (optionalSection .strict kind).outcome := by
  simp only [optionalSection, Reporter.outcome_bind, Reporter.outcome_liftM,
    Reporter.outcome_ite, Reporter.outcome_pure]
  exact .ifPeek (by simp) (fun s hs ht =>
    (mendsAt_section kind hs (by simp [ht])).bind (i := .firm) fun _ _ _ _ => .pure _)
    (mends_pure _)

theorem mends_mainAhead (line : Nat) (b : Bool) :
    Mends .firm .firm (mainAhead line b) (mainAhead line b) := by
  refine fun s _ => .peek ?_
  split
  · exact .pure _
  · exact .failAt _
  · exact .failAt _

theorem mends_endAhead (b : Bool) : Mends .firm .firm (endAhead b) (endAhead b) := by
  refine fun s _ => .peek ?_
  split
  · exact .pure _
  · exact .pure _
  · exact .failAt _

theorem mends_procedure :
    Mends .firm .loose (procedure .recovering).outcome (procedure .strict).outcome := by
  simp only [procedure, Reporter.outcome_bind, Reporter.outcome_liftM, Reporter.outcome_pure]
  refine mends_here.bind (i := .firm) fun _ => (mends_keyword _).bind (i := .firm) fun _ =>
    (mends_name _).bind (i := .firm) fun _ =>
      (mends_optionalSection _).bind (i := .firm) fun _ s hs => ?_
  refine (mends_mainAhead _ _ hs).bind (i := .firm) fun _ s₁ hmain _ => ?_
  obtain ⟨rfl, ht⟩ := mainAhead_eq_ok hmain
  refine (mendsAt_section _ hs (by simp [ht])).bind (i := .firm) fun _ s₂ _ hreach => ?_
  exact ((mends_optionalSection _).bind fun _ => (mends_endAhead _).bind fun _ =>
    (mends_endOf _ _).bind fun _ => mends_pure _) (hreach.ends hs)

theorem mends_item : Mends .firm .loose (item .recovering).outcome (item .strict).outcome := by
  have hd : Mends .firm .loose (declaration maxNesting) (declaration maxNesting) :=
    mends_declarationOf _ (mends_declarationAt _)
  simp only [item, Reporter.outcome_bind, Reporter.outcome_liftM]
  refine fun s hs => .peek ?_
  split <;> simp only [Reporter.outcome_bind, Reporter.outcome_liftM, Reporter.outcome_pure]
  · exact (mends_procedure.bind fun _ => mends_pure _) hs
  · exact (hd.bind fun _ => mends_pure _) hs
  · exact (hd.bind fun _ => mends_pure _) hs
  · exact .failAt _

/-! ## Files -/

theorem fileRound_stop {t : Stream} (h : t.token = .eof) : fileRound.outcome t = .ok .stop t := by
  rw [fileRound_run, semicolons_of_ne (by simp [h]), Outcome.andThen_ok, if_pos h]

/-- The row from `s` to its end can be mended so that the items of a file are read from it. -/
def ItemsMended (s : Stream) (is : List Item) : Prop :=
  ∃ s' : Stream, s'.token = .eof ∧ RestMended fileRound.outcome s is s'

/-- What is left when the reading of a file is over is skipped. -/
theorem itemsMended_nil (hs : s.Ends) : ItemsMended s [] := by
  obtain ⟨us, e, rfl, he⟩ := hs.exists_last
  have hstop : RestMended fileRound.outcome ⟨e, []⟩ [] ⟨e, []⟩ :=
    .stop fun t hk => fileRound_stop (hk.token_eq.trans he)
  refine ⟨⟨e, []⟩, he, ?_⟩
  cases us with
  | nil => exact hstop
  | cons u us => exact hstop.behind_skipped (fun _ => fileRound_run) turns_fileRound

theorem ItemsMended.behind_semicolons {is : List Item} {ws : List Located}
    (hws : ∀ w ∈ ws, w.token = .symbol .semicolon) (h : ItemsMended s is) :
    ItemsMended (s.behind ws) is := by
  obtain ⟨s', he, hrest⟩ := h
  exact ⟨s', he, hrest.behind_semicolons (fun _ => fileRound_run) turns_fileRound hws⟩

/-- An item that is kept. -/
theorem ItemsMended.item {s₁ : Stream} {ds : List Diagnostic} {a : Item} {is : List Item}
    (hs : s.Ends) (hne : s.token ≠ .symbol .semicolon) (heof : s.token ≠ .eof)
    (hi : Grammar.item .recovering s = (ds, .ok a s₁)) (h : s₁.Ends → ItemsMended s₁ is) :
    ItemsMended s (a :: is) := by
  have hrun : (Grammar.item .recovering).outcome s = .ok a s₁ := congrArg Prod.snd hi
  have hpast := proceeds_item .recovering s hs.closed
  rw [hrun] at hpast
  obtain ⟨s', he, hrest⟩ := h (hpast.1.ends hs)
  obtain ⟨ps, hps, hmend⟩ := mends_item hs hrun
  refine ⟨s', he, hrest.item (fun _ => fileRound_run) turns_fileRound hps fun us t hus ht hk => ?_⟩
  obtain ⟨hj, hitem⟩ := hmend hus ht hk
  refine ⟨t, ?_, .inl rfl⟩
  have htoken := hj.token_eq
  rw [fileRound_run, semicolons_of_ne (by rwa [htoken]), Outcome.andThen_ok, htoken, if_neg heof,
    hitem, Outcome.map_ok]

/-- An item that is dropped : the tokens up to where the next one may begin are skipped. -/
theorem ItemsMended.fault {s₁ s₂ : Stream} {ds : List Diagnostic} {d : Diagnostic}
    {is : List Item} (hs : s.Ends) (heof : s.token ≠ .eof)
    (hi : Grammar.item .recovering s = (ds, .fail d s₁)) (hnext : nextItem s₁ = .ok () s₂)
    (h : s₂.Ends → ItemsMended s₂ is) : ItemsMended s is := by
  have hrun : (Grammar.item .recovering).outcome s = .fail d s₁ := congrArg Prod.snd hi
  have hreach := proceeds_item .recovering s hs.closed
  rw [hrun] at hreach
  have hpast := nextItem_past_of_reaches hs.closed heof hreach
  rw [hnext] at hpast
  obtain ⟨u, us, rfl⟩ := hpast.1.eq_behind_cons hpast.2
  obtain ⟨s', he, hrest⟩ := h hs.of_behind
  exact ⟨s', he, hrest.behind_skipped (fun _ => fileRound_run) turns_fileRound⟩

/-- The items that a recovering reading finds are those of the mended row. -/
theorem recoverFrom_mended {cap count : Nat} {f : Findings} (hs : s.Ends)
    (hf : recoverFrom cap count s = some f) : ItemsMended s f.items := by
  induction hn : s.size using Nat.strongRecOn generalizing s count f with
  | _ n ih =>
    subst hn
    obtain ⟨ws, s₁, rfl, hsemi, hws, hne⟩ := semicolons_ok hs.closed
    have hs₁ := hs.of_behind
    refine ItemsMended.behind_semicolons hws ?_
    rw [recoverFrom, hsemi] at hf
    simp only at hf
    split at hf
    · obtain rfl := Option.some.inj hf
      exact itemsMended_nil hs₁
    next hgo =>
    have heof : s₁.token ≠ .eof := fun he => hgo (.inl he)
    split at hf
    · next ds a s₂ hi =>
      split at hf
      · next hlt =>
        obtain ⟨f', hf', rfl⟩ := Option.map_eq_some_iff.1 hf
        exact .item hs₁ hne heof hi fun hs₂ => ih _ hlt hs₂ hf' rfl
      · cases hf
    · next ds d s₂ hi =>
      split at hf
      · obtain rfl := Option.some.inj hf
        exact itemsMended_nil hs₁
      split at hf
      · next s₃ hnext =>
        split at hf
        · next hlt =>
          obtain ⟨f', hf', rfl⟩ := Option.map_eq_some_iff.1 hf
          have hrest : s₃.Ends → ItemsMended s₃ f'.items := fun hs₃ => ih _ hlt hs₃ hf' rfl
          exact .fault hs₁ heof hi hnext hrest
        · cases hf
      · cases hf
    · cases hf

end Grammar

open Grammar Reader

theorem parseFile_of_many {ts : List Located} {is : List Item} {s' : Stream}
    (h : many fileRound.outcome (.ofTokens ts) = .ok is s') : parseFile ts = .accepted ⟨is⟩ := by
  rw [parseFile_eq, h]
  rfl

/-- The items that a recovering reading finds in a row are those that the strict reading finds in
the mended row. -/
theorem parseFile_of_recoverFrom {us : List Located} {e : Located} {cap count : Nat}
    {f : Findings} (hends : EndsOnce (us ++ [e]))
    (hf : recoverFrom cap count (.ofTokens (us ++ [e])) = some f) :
    ∃ ps, us = Piece.row ps ∧
      ∀ ⦃vs⦄, Piece.Mended ps vs → parseFile (vs ++ [e]) = .accepted ⟨f.items⟩ := by
  have hs := Stream.ends_ofTokens hends
  obtain ⟨s', he', ps, hps, hmend⟩ := recoverFrom_mended hs hf
  have hs' : s'.Ends := by
    rw [hps] at hs
    exact hs.of_behind
  have hrow : us ++ [e] = Piece.row ps ++ [s'.here] := by
    rw [← Stream.row_ofTokens hends, hps, Stream.row_behind, hs'.row_of_eof he']
  obtain ⟨rfl, hlast⟩ := List.append_inj' hrow rfl
  refine ⟨ps, rfl, fun vs hvs => ?_⟩
  have hrun : many fileRound.outcome (.ofTokens (vs ++ s'.row)) = .ok f.items s' := by
    rw [Stream.ofTokens_append_row]
    exact hmend hvs hs'.closed rfl
  rw [hlast, ← hs'.row_of_eof he']
  exact parseFile_of_many hrun

/-- A recovering reading of the tokens of a text comes to a file that the strict reading accepts
once the row is mended, with the same lines : some runs of tokens before the end of the text
are skipped, each replaced by one semicolon. If nothing is reported, nothing is skipped. -/
theorem recoverFile_mended {text : String} {ts : List Located} (h : tokenize text = .ok ts)
    (maxErrors : Nat) :
    ∃ r, recoverFile maxErrors ts = some r ∧ ∃ ps e, ts = Piece.row ps ++ [e] ∧
      e.token = .eof ∧ (∀ t ∈ Piece.row ps, t.token ≠ .eof) ∧
      (∀ us, Piece.Mended ps us → parseFile (us ++ [e]) = .accepted r.file) ∧
      (r.diagnostics = [] → ∀ p ∈ ps, ∃ t, p = .kept t) := by
  obtain ⟨us, e, rfl, he, hw⟩ := tokenize_spec h
  have hne : ∀ t ∈ us, t.token ≠ .eof := fun t ht => (hw t ht).ne_eof
  have hends : EndsOnce (us ++ [e]) := endsOnce_append_singleton.2 ⟨he, hne⟩
  have hs := Stream.ends_ofTokens hends
  have hc := zero_lt_cap maxErrors
  obtain ⟨f, hf, hread⟩ := exists_recoverFile hends.endsLast maxErrors
  refine ⟨_, hread, ?_⟩
  by_cases hreports : f.reports = []
  · obtain ⟨s', hrun⟩ := file_ok_of_no_reports hc hs hf hreports
    refine ⟨us.map .kept, e, by simp, he, by simpa using hne, fun vs hvs => ?_, by simp⟩
    rw [Piece.mended_map_kept.1 hvs]
    exact parseFile_of_many hrun
  · obtain ⟨ps, rfl, hparse⟩ := parseFile_of_recoverFrom hends hf
    refine ⟨ps, e, rfl, he, hne, hparse, fun hdiag => ?_⟩
    obtain hcap | hnil := List.take_eq_nil_iff.1 hdiag
    · exact absurd hcap (Nat.ne_of_gt hc)
    · exact absurd hnil hreports

/-- A fault in a statement, and an item at the end that is dropped. -/
theorem recoverFile_mended_dropped_item :
    ∃ ts, tokenize "procedure p main a = ; b end main end procedure type" = .ok ts ∧
      ∃ r, recoverFile 10 ts = some r ∧ ∃ ps e, ts = Piece.row ps ++ [e] ∧
        e.token = .eof ∧ (∀ t ∈ Piece.row ps, t.token ≠ .eof) ∧
        (∀ us, Piece.Mended ps us → parseFile (us ++ [e]) = .accepted r.file) ∧
        (r.diagnostics = [] → ∀ p ∈ ps, ∃ t, p = .kept t) := by
  have hok : (tokenize "procedure p main a = ; b end main end procedure type").isOk = true := by
    cbv
  obtain ⟨ts, h⟩ := exists_tokenize_of_isOk hok
  exact ⟨ts, h, recoverFile_mended h 10⟩

end OpsLang
