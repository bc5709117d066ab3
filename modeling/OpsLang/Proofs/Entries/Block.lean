import OpsLang.Proofs.Appending.Shift
import OpsLang.Proofs.Entries.Item
import OpsLang.Proofs.Forking.File
import OpsLang.Proofs.OpenBlocks.File
import OpsLang.Proofs.Relining.Statement

/-!
# Blocks on their own and in procedures

A block that fills a row ends in the last two words of the row (`blockAt_fills_iff`), and a
procedure whose `main` stands behind its name and that fills a row has no other section if the row
ends in the words of both (`procedureAt_fills_iff`). So both come down to statements that are read
up to the same place. What stands behind that place, and the lines on which the row stands, change
nothing but the lines of the statements (`statements_behind_relined`).
-/

namespace OpsLang

open Grammar Reader

/-! ## Ends of rows -/

section Ends

variable {s p q : Stream} {us vs : List Located} {c c' e : Located} {kind : BlockKind} {line : Nat}

theorem Stream.eq_of_row {s s' : Stream} (h : s.row = s'.row) : s = s' := by
  obtain ⟨t, ts⟩ := s
  obtain ⟨t', ts'⟩ := s'
  obtain ⟨rfl, rfl⟩ := List.cons.inj h
  rfl

/-- The end of a block is the two words that stand before what follows. -/
theorem exists_row_of_endOf (hp : p.Ends) (h : endOf kind line p = .ok () q) :
    ∃ t t' : Located, words [t, t'] = [.keyword .end_, .keyword kind.closer] ∧
      p = q.behind [t, t'] := by
  obtain ⟨hend, hnext, rfl⟩ := endOf_eq_ok.1 h
  have hadvance : p.advance.token = .keyword kind.closer :=
    (Stream.token_advance_of_next (by simp [hnext])).trans hnext
  refine ⟨p.here, p.advance.here, congrArg₂ (fun a b => [a, b]) hend hadvance, ?_⟩
  exact (hp.behind_two (by simp [hend]) (by simp [hadvance])).symm

theorem reaches_of_endOf (h : endOf kind line p = .ok () q) : p.Reaches q := by
  obtain ⟨-, -, rfl⟩ := endOf_eq_ok.1 h
  exact p.reaches_advance.trans p.advance.reaches_advance

/-- What stands before the rest of a row is the end of a block if the block ends there. -/
theorem eq_behind_of_endOf {x : Stream} (hs : s.Ends) (hrow : s = x.behind (us ++ [c, c']))
    (hp : s.Reaches p) (h : endOf kind line p = .ok () x) :
    p = x.behind [c, c'] ∧ words [c, c'] = [.keyword .end_, .keyword kind.closer] := by
  obtain ⟨t, t', hwords, rfl⟩ := exists_row_of_endOf (hp.ends hs) h
  obtain ⟨ws, hws⟩ := hp
  have heq := congrArg Stream.row (hrow.symm.trans hws)
  rw [Stream.row_behind, Stream.row_behind, Stream.row_behind, ← List.append_assoc] at heq
  obtain ⟨rfl, rfl⟩ : c = t ∧ c' = t' := by
    simpa using (List.append_inj' (List.append_cancel_right heq) rfl).2
  exact ⟨rfl, hwords⟩

/-- If nothing is left behind a token that is no semicolon, then that is the last of the row. -/
theorem Stream.Done.eq_of_reaches {x : Stream} (hs : s.Ends) (hrow : s = x.behind (us ++ [c]))
    (hx : x.token = .eof) (hc : c.token ≠ .symbol .semicolon) (hq : s.Reaches q) (h : q.Done) :
    q = x := by
  obtain ⟨z, hz, heof⟩ := h
  have hz' := hq.ends hs
  obtain ⟨ss, rfl, hss, -⟩ := semicolons_eq_ok hz'.closed hz
  replace hz' := hz'.of_behind.row_of_eof heof
  replace hs := hrow ▸ hs
  have hx' := hs.of_behind.row_of_eof hx
  obtain ⟨ws, hws⟩ := hq
  have heq := congrArg Stream.row (hrow.symm.trans hws)
  rw [row_behind, row_behind, row_behind, hx', hz'] at heq
  obtain rfl | ⟨ss, v, rfl⟩ := List.eq_nil_or_concat ss
  · have hlast : x.here = z.here := by simpa using (List.append_inj' heq rfl).2
    exact Stream.eq_of_row (by rw [behind_nil, hx', hz', hlast])
  · have hlast : us ++ [c, x.here] = (ws ++ ss) ++ [v, z.here] := by simpa using heq
    obtain ⟨rfl, -⟩ : c = v ∧ x.here = z.here := by simpa using (List.append_inj' hlast rfl).2
    exact absurd (hss c (by simp)) hc

end Ends

/-! ## Blocks and procedures -/

section Rows

variable {x : Stream} {us : List Located} {room line : Nat}

theorem blockAt_eq_ok {kind : BlockKind} {body : Block} {s q : Stream} :
    blockAt room kind line s = .ok body q ↔
      ∃ p, (statements .strict room kind line false).outcome s = .ok body p ∧
        endOf kind line p = .ok () q := by
  simp only [blockAt, bind_run, Outcome.andThen_eq_ok, pure_run, Outcome.ok.injEq]
  constructor
  · rintro ⟨_, p, hbody, _, _, hend, rfl, rfl⟩
    exact ⟨p, hbody, hend⟩
  · rintro ⟨p, hbody, hend⟩
    exact ⟨body, p, hbody, (), q, hend, rfl, rfl⟩

theorem reaches_of_statements {kind : BlockKind} {body : Block} {s p : Stream} (hs : s.Closed)
    (h : (statements .strict room kind line false).outcome s = .ok body p) : s.Reaches p := by
  have hwithin := halts_statements .strict room kind line false s hs
  rwa [h] at hwithin

/-- Statements are a block that fills a row if they are read up to the last two words of the row,
and these end the block. -/
theorem blockAt_fills_iff {c c' : Located} {kind : BlockKind} {body : Block}
    (hs : (x.behind (us ++ [c, c'])).Ends) (hx : x.token = .eof)
    (hwords : words [c, c'] = [.keyword .end_, .keyword kind.closer]) :
    (blockAt room kind line (x.behind (us ++ [c, c']))).Fills body ↔
      (statements .strict room kind line false).outcome (x.behind (us ++ [c, c'])) =
        .ok body (x.behind [c, c']) := by
  obtain ⟨hc, hc'⟩ : c.token = .keyword .end_ ∧ c'.token = .keyword kind.closer := by
    simpa [words] using hwords
  constructor
  · rintro ⟨q, hblock, hdone⟩
    obtain ⟨p, hbody, hend⟩ := blockAt_eq_ok.1 hblock
    have hp := reaches_of_statements hs.closed hbody
    have hq : q = x := hdone.eq_of_reaches hs (by rw [List.append_cons]) hx (by simp [hc'])
      (hp.trans (reaches_of_endOf hend))
    rw [hq] at hend
    rw [hbody, (eq_behind_of_endOf hs rfl hp hend).1]
  · intro hbody
    exact ⟨x, blockAt_eq_ok.2 ⟨_, hbody, endOf_behind hc hc'⟩, Stream.done_of_eof hx⟩

/-- A section is the block behind its keyword. -/
theorem sectionAt_run (kind : BlockKind) (s : Stream) :
    sectionAt room kind s = blockAt room kind s.line s.advance := rfl

/-- A section is missing, or its end stands before what follows. -/
theorem optionalSectionAt_cases {kind : BlockKind} {body : Option Block} {s q : Stream}
    (hs : s.Closed) (h : optionalSectionAt room kind s = .ok body q) :
    body = none ∧ q = s ∨ ∃ p line, s.Reaches p ∧ endOf kind line p = .ok () q := by
  rw [optionalSectionAt, bind_run, peek_run, Outcome.andThen_ok, ite_run] at h
  split at h
  · rw [bind_run, sectionAt_run, Outcome.andThen_eq_ok] at h
    obtain ⟨b, q', hb, hq⟩ := h
    obtain ⟨-, rfl⟩ := Outcome.ok.inj hq
    obtain ⟨p, hbody, hend⟩ := blockAt_eq_ok.1 hb
    exact .inr ⟨p, s.line,
      s.reaches_advance.trans (reaches_of_statements hs.advance hbody), hend⟩
  · obtain ⟨rfl, rfl⟩ := Outcome.ok.inj h
    exact .inl ⟨rfl, rfl⟩

/-- A procedure whose `main` stands behind its name. -/
theorem procedureAt_of_main {s : Stream} {t n m : Located} {name : String}
    (ht : t.token = .keyword .procedure) (hn : n.token = .name name)
    (hm : m.token = .keyword .main) : procedureAt room (s.behind [t, n, m]) =
      (blockAt room .main m.line s).andThen fun body s =>
        (optionalSectionAt room .confirmation s).andThen fun confirmation s =>
          (endAhead confirmation.isSome s).andThen fun _ s =>
            (endOf .procedure t.line s).map fun _ => ⟨name, none, body, confirmation, t.line⟩ := by
  have hkeyword : keyword .procedure (s.behind [t, n, m]) = .ok () (s.behind [n, m]) :=
    keyword_eq_ok.2 ⟨ht, Stream.advance_behind_cons⟩
  have hname : Reader.name "procedure name" (s.behind [n, m]) = .ok name (s.behind [m]) :=
    name_eq_ok.2 ⟨hn, Stream.advance_behind_cons⟩
  have hmain : (s.behind [m]).token = .keyword .main := hm
  rw [procedureAt, bind_run, here_run, Outcome.andThen_ok, bind_run, hkeyword, Outcome.andThen_ok,
    bind_run, hname, Outcome.andThen_ok,
    optionalSectionAt_of_ne (by simp [hmain, BlockKind.closer]), bind_run, mainAhead_run, hmain,
    Outcome.andThen_ok, bind_run, sectionAt_run, Stream.advance_behind_cons, Stream.behind_nil]
  rfl

/-- A procedure of which only `main` is there, with the statements that stand in it. -/
theorem procedureAt_of_body {t n m c₁ c₂ c₃ c₄ : Located} {name : String} {body : Block}
    (ht : t.token = .keyword .procedure) (hn : n.token = .name name)
    (hm : m.token = .keyword .main) (h₁ : c₁.token = .keyword .end_)
    (h₂ : c₂.token = .keyword .main) (h₃ : c₃.token = .keyword .end_)
    (h₄ : c₄.token = .keyword .procedure)
    (hbody : (statements .strict room .main m.line false).outcome
      (x.behind (us ++ [c₁, c₂, c₃, c₄])) = .ok body (x.behind [c₁, c₂, c₃, c₄])) :
    procedureAt room ((x.behind (us ++ [c₁, c₂, c₃, c₄])).behind [t, n, m]) =
      .ok ⟨name, none, body, none, t.line⟩ x := by
  have htoken : (x.behind [c₃, c₄]).token = .keyword .end_ := h₃
  have hblock : blockAt room .main m.line (x.behind (us ++ [c₁, c₂, c₃, c₄])) =
      .ok body (x.behind [c₃, c₄]) := blockAt_eq_ok.2 ⟨_, hbody, endOf_behind h₁ h₂⟩
  have hconf : optionalSectionAt room .confirmation (x.behind [c₃, c₄]) =
      .ok none (x.behind [c₃, c₄]) := by
    rw [optionalSectionAt, bind_run, peek_run, Outcome.andThen_ok, htoken, if_neg (by decide)]
    rfl
  have hahead : endAhead false (x.behind [c₃, c₄]) = .ok () (x.behind [c₃, c₄]) := by
    rw [endAhead_run, htoken]
  have hend : endOf .procedure t.line (x.behind [c₃, c₄]) = .ok () x := endOf_behind h₃ h₄
  rw [procedureAt_of_main ht hn hm, hblock, Outcome.andThen_ok, hconf, Outcome.andThen_ok,
    Option.isSome_none, hahead, Outcome.andThen_ok, hend]
  rfl

/-- A procedure that fills a row and has its `main` behind its name is one with no other section
if the row ends in the ends of both. The statements of `main` are then read up to these. -/
theorem procedureAt_fills_iff {t n m c₁ c₂ c₃ c₄ : Located} {name : String} {p : Procedure}
    (hs : (x.behind ([t, n, m] ++ (us ++ [c₁, c₂, c₃, c₄]))).Ends) (hx : x.token = .eof)
    (ht : t.token = .keyword .procedure) (hn : n.token = .name name)
    (hm : m.token = .keyword .main) (hwords : words [c₁, c₂, c₃, c₄] =
      [.keyword .end_, .keyword .main, .keyword .end_, .keyword .procedure]) :
    (procedureAt room (x.behind ([t, n, m] ++ (us ++ [c₁, c₂, c₃, c₄])))).Fills p ↔
      ∃ body, (statements .strict room .main m.line false).outcome
          (x.behind (us ++ [c₁, c₂, c₃, c₄])) = .ok body (x.behind [c₁, c₂, c₃, c₄]) ∧
        p = ⟨name, none, body, none, t.line⟩ := by
  obtain ⟨h₁, h₂, h₃, h₄⟩ : c₁.token = .keyword .end_ ∧ c₂.token = .keyword .main ∧
      c₃.token = .keyword .end_ ∧ c₄.token = .keyword .procedure := by
    simpa [words] using hwords
  rw [Stream.behind_append] at hs ⊢
  replace hs := hs.of_behind
  constructor
  · rw [procedureAt_of_main ht hn hm]
    rintro ⟨q, hproc, hdone⟩
    obtain ⟨body, q₁, hblock, hproc⟩ := Outcome.andThen_eq_ok.1 hproc
    obtain ⟨confirmation, q₂, hconf, hproc⟩ := Outcome.andThen_eq_ok.1 hproc
    obtain ⟨_, q₃, hahead, hproc⟩ := Outcome.andThen_eq_ok.1 hproc
    obtain ⟨_, hend, rfl⟩ := Outcome.map_eq_ok.1 hproc
    obtain rfl := endAhead_eq_ok hahead
    obtain ⟨p₁, hbody, hmain⟩ := blockAt_eq_ok.1 hblock
    have hp₁ := reaches_of_statements hs.closed hbody
    have hq₁ := hp₁.trans (reaches_of_endOf hmain)
    have hconf := optionalSectionAt_cases (hq₁.closed hs.closed) hconf
    have hq₃ : (x.behind (us ++ [c₁, c₂, c₃, c₄])).Reaches q₃ := by
      obtain ⟨-, rfl⟩ | ⟨p₂, line, hp₂, hend₂⟩ := hconf
      · exact hq₁
      · exact (hq₁.trans hp₂).trans (reaches_of_endOf hend₂)
    have hlast : x.behind (us ++ [c₁, c₂, c₃, c₄]) = x.behind (us ++ [c₁, c₂, c₃] ++ [c₄]) := by
      simp
    have hends : x.behind (us ++ [c₁, c₂, c₃, c₄]) = x.behind (us ++ [c₁, c₂] ++ [c₃, c₄]) := by
      simp
    have hq : q = x :=
      hdone.eq_of_reaches hs hlast hx (by simp [h₄]) (hq₃.trans (reaches_of_endOf hend))
    rw [hq] at hend
    obtain ⟨rfl, -⟩ := eq_behind_of_endOf hs hends hq₃ hend
    have hmiddle : x.behind (us ++ [c₁, c₂, c₃, c₄]) =
        (x.behind [c₃, c₄]).behind (us ++ [c₁, c₂]) := by
      rw [← Stream.behind_append]
      simp
    obtain ⟨rfl, hq₁'⟩ | ⟨p₂, line, hp₂, hend₂⟩ := hconf
    · rw [← hq₁'] at hmain
      have hp₁' := (eq_behind_of_endOf hs hmiddle hp₁ hmain).1
      rw [← Stream.behind_append] at hp₁'
      exact ⟨body, by rw [hbody, hp₁']; rfl, rfl⟩
    · obtain ⟨-, hwords⟩ := eq_behind_of_endOf hs hmiddle (hq₁.trans hp₂) hend₂
      simp [words, h₂, BlockKind.closer] at hwords
  · rintro ⟨body, hbody, rfl⟩
    exact ⟨x, procedureAt_of_body ht hn hm h₁ h₂ h₃ h₄ hbody, Stream.done_of_eof hx⟩

end Rows

/-! ## Statements before other ends -/

section Ends

variable {x y : Stream} {us us' ws ws' : List Located} {room line line' : Nat} {kind : BlockKind}
  {stop : Bool} {body : Block}

theorem relined_behind (hy : y.Stops) (h : Relined us us') :
    (y.behind us).Relined (y.behind us') := by
  unfold Stream.Relined
  rw [Stream.row_behind, Stream.row_behind]
  refine h.append (.refl y.row) fun v hv w hw => ?_
  obtain rfl : y.here = v := by simpa [Stream.row] using hv
  have hstops := hy.stops
  rw [Stream.token, hw] at hstops
  cases hstops

/-- A stream that is reached is known by what it still has to read. -/
theorem Stream.Reaches.eq_behind {p : Stream} (h : (y.behind (us ++ ws)).Reaches p)
    (hsize : p.size = (y.behind ws).size) : p = y.behind ws := by
  obtain ⟨vs, hvs⟩ := h
  have heq : us ++ (y.behind ws).row = vs ++ p.row := by
    rw [← Stream.row_behind, ← Stream.behind_append, hvs, Stream.row_behind]
  exact (Stream.eq_of_row (List.append_inj' heq (congrArg (· + 1) hsize).symm).2).symm

/-- Statements that end before what the rows go on with are read in the same way before what the
other row goes on with, on other lines. -/
theorem statements_behind_relined (hx : x.Closed) (hy : y.Stops)
    (hrows : Relined (us ++ ws) (us' ++ ws')) (hlength : ws'.length = ws.length) (hws : ws ≠ [])
    (h : (statements .strict room kind line stop).outcome (x.behind (us ++ ws)) =
      .ok body (x.behind ws)) :
    ∃ body', SameBlock body body' ∧
      (statements .strict room kind line' stop).outcome (y.behind (us' ++ ws')) =
        .ok body' (y.behind ws') := by
  obtain ⟨w, ws, rfl⟩ := List.exists_cons_of_ne_nil hws
  have hforked := (forksAt_statements (L := True) hx hy trivial room kind line stop
    (us ++ w :: ws)).forked
  rw [h] at hforked
  have hmatches : ((statements .strict room kind line stop).outcome
      (y.behind (us ++ w :: ws))).Matches SameBlock _ _ _ :=
    matches_statements room kind line line' stop (relined_behind hy hrows)
  rw [hforked.ok_within] at hmatches
  obtain ⟨body', p, hbody, hsame, hp⟩ := hmatches.exists_ok
  refine ⟨body', hsame, ?_⟩
  rw [hbody, hp.right.eq_behind]
  rw [hp.relined.size_eq, Stream.size_behind, Stream.size_behind, hlength]

end Ends

end OpsLang
