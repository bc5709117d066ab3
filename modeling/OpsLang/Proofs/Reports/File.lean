import OpsLang.Proofs.Reports.Grammar
import OpsLang.Proofs.Tiling

/-!
# The order of reports

What a recovering reading of a text reports is in the order of the text, each report is about one
of its tokens, and only the last one can be fatal (`recoverFile_reports`).

A round of the reading has its reports in order by `marks_item`, and goes on behind the place of
the last one. This gives the order along the tokens (`recoverFrom_inOrder`), and the tokens of a
text stand in the order of their spans.
-/

namespace OpsLang

/-- The tokens do not start before those in front of them. -/
def Ascending (ts : List Located) : Prop :=
  ts.Pairwise fun t u => t.span.start ≤ u.span.start

theorem tokenize_ascending {text : String} {ts : List Located} (h : tokenize text = .ok ts) :
    Ascending ts := by
  have hordered := (tokensFrom_laid h).ordered
  obtain ⟨us, e, rfl, -, -, -, hus⟩ := tokenize_last h
  -- An empty span is that of the last token, so no token starts behind where it stops.
  refine (List.pairwise_append.2 ?_ : List.Pairwise _ (us ++ [e]))
  obtain ⟨hinner, hlast, hacross⟩ := List.pairwise_append.1 hordered
  refine ⟨hinner.imp_of_mem fun ht _ hle => ?_, List.pairwise_singleton _ _, fun t ht u hu => ?_⟩
  · exact Nat.le_trans (Nat.le_of_lt (hus _ ht).2) hle
  · exact Nat.le_trans (Nat.le_of_lt (hus t ht).2) (hacross t ht u hu)

namespace Stream

variable {s s' : Stream}

theorem Reaches.here_mem (h : s.Reaches s') : s'.here ∈ s.row := by
  obtain ⟨us, rfl⟩ := h
  rw [row_behind]
  exact List.mem_append_right _ (List.mem_cons_self ..)

theorem Reaches.ascending (h : s.Reaches s') (hs : Ascending s.row) : Ascending s'.row := by
  obtain ⟨us, rfl⟩ := h
  rw [row_behind] at hs
  exact (List.pairwise_append.1 hs).2.1

theorem Reaches.start_le (h : s.Reaches s') (hs : Ascending s.row) :
    s.here.span.start ≤ s'.here.span.start := by
  obtain ⟨_ | ⟨u, us⟩, rfl⟩ := h
  · exact Nat.le_refl _
  · rw [row_behind, List.cons_append] at hs
    exact (List.pairwise_cons.1 hs).1 _ (List.mem_append_right _ (List.mem_cons_self ..))

end Stream

/-- Diagnostics that have places in order start in that order. -/
theorem Spots.pairwise {s s' : Stream} {ds : List Diagnostic} (h : Spots Stream.Blames s ds s')
    (hs : Ascending s.row) :
    (∀ d ∈ ds, s.here.span.start ≤ d.span.start) ∧
      ds.Pairwise fun d e => d.span.start ≤ e.span.start := by
  induction h with
  | nil h => simp
  | @cons s p s' d ds h hd _ ih =>
    obtain ⟨hle, hds⟩ := ih (h.ascending hs)
    have hsd : s.here.span.start ≤ d.span.start := by
      rw [hd.span]
      exact h.start_le hs
    refine ⟨List.forall_mem_cons.2 ⟨hsd, fun e he => ?_⟩,
      List.pairwise_cons.2 ⟨fun e he => ?_, hds⟩⟩
    · exact Nat.le_trans (h.start_le hs) (hle e he)
    · rw [hd.span]
      exact hle e he

namespace Grammar

open Reader

/-- The reports of a reading from `s` are about places behind one another, and only the last
one can be fatal. -/
structure InOrder (s : Stream) (ds : List Diagnostic) : Prop where
  spots : ∃ s', Spots Stream.Blames s ds s'
  grammar : ∀ d ∈ ds.dropLast, d.kind = .grammar

/-- What a round reports stands before what is reported later. -/
theorem InOrder.prepend {s s' : Stream} {ds es : List Diagnostic}
    (h : Spots Stream.Blames s ds s') (hds : ∀ d ∈ ds, d.kind = .grammar) (hes : InOrder s' es) :
    InOrder s (ds ++ es) := by
  obtain ⟨s'', hspots⟩ := hes.spots
  refine ⟨⟨s'', h.append hspots⟩, fun d hd => ?_⟩
  by_cases hnil : es = []
  · rw [hnil, List.append_nil] at hd
    exact hds d (List.mem_of_mem_dropLast hd)
  · rw [List.dropLast_append_of_ne_nil hnil] at hd
    exact (List.mem_append.1 hd).elim (hds d) (hes.grammar d)

/-- A recovering reading of a file reports in order. -/
theorem recoverFrom_inOrder {cap count : Nat} {s : Stream} {f : Findings} (hs : s.Closed)
    (hf : recoverFrom cap count s = some f) : InOrder s f.reports := by
  induction hn : s.size using Nat.strongRecOn generalizing s count f with
  | _ n ih =>
    subst hn
    obtain ⟨us, s₁, hus, hsemi, -⟩ := semicolons_ok hs
    have hreach : s.Reaches s₁ := ⟨us, hus⟩
    have hs₁ := hreach.closed hs
    have hitem := marks_item .recovering s₁ hs₁
    rw [recoverFrom, hsemi] at hf
    simp only at hf
    split at hf
    · obtain rfl := Option.some.inj hf
      exact ⟨⟨s, .nil (.refl s)⟩, by simp⟩
    split at hf
    · next ds a s₂ hi =>
      rw [hi] at hitem
      cases hitem with
      | ok hds hk =>
        split at hf
        · next hlt =>
          obtain ⟨f', hf', rfl⟩ := Option.map_eq_some_iff.1 hf
          exact .prepend (hds.of_reaches hreach) hk
            (ih _ hlt (hds.reaches.closed hs₁) hf' rfl)
        · cases hf
    · next ds d s₂ hi =>
      rw [hi] at hitem
      cases hitem with
      | @fail _ _ p _ hds hk hd hp =>
        have hwith : Spots Stream.Blames s (ds ++ [d]) s₂ :=
          (hds.append (.cons (.refl p) hd (.nil hp))).of_reaches hreach
        split at hf
        · obtain rfl := Option.some.inj hf
          refine ⟨⟨s₂, hwith⟩, fun e he => hk e ?_⟩
          rwa [List.dropLast_concat] at he
        next hfatal =>
        have hkind : ∀ e ∈ ds ++ [d], e.kind = .grammar :=
          List.forall_mem_append.2 ⟨hk, by simpa [Diagnostic.isFatal] using hfatal⟩
        split at hf
        · next s₃ hnext =>
          split at hf
          · next hlt =>
            obtain ⟨f', hf', rfl⟩ := Option.map_eq_some_iff.1 hf
            have hs₂ := hwith.reaches.closed hs
            have hskip := nextItemFrom_within 0 false s₂.here s₂.ahead hs₂
            have hrun : nextItemFrom 0 false s₂.here s₂.ahead = .ok () s₃ := hnext
            rw [hrun] at hskip
            have hto : Spots Stream.Blames s (ds ++ [d]) s₃ := by
              simpa using hwith.append (.nil hskip)
            exact .prepend hto hkind (ih _ hlt (hto.reaches.closed hs) hf' rfl)
          · cases hf
        · cases hf
    · cases hf

end Grammar

open Grammar

/-- The diagnostics of a reading of the row `ts`, with at most `cap` of them asked for. -/
structure Reported (ts : List Located) (cap : Nat) (ds : List Diagnostic) : Prop where
  length : ds.length ≤ cap
  kind : ∀ d ∈ ds, d.kind ≠ .lexical
  /-- A block that is not ended is the last thing that is reported. -/
  unterminated : ∀ (i : Nat) (hi : i < ds.length), ds[i].kind = .unterminated → i + 1 = ds.length
  span : ∀ d ∈ ds, ∃ t ∈ ts, d.span = t.span
  ordered : ds.Pairwise fun d e => d.span.start ≤ e.span.start

/-- A recovering reading of the tokens of a text reports faults in the order of the text, each at
one of the tokens, and at most as many as it was asked for, where none counts as one. None is
lexical, and a block that is not ended is reported last. -/
theorem recoverFile_reports {text : String} {ts : List Located} (h : tokenize text = .ok ts)
    (maxErrors : Nat) :
    ∃ r, recoverFile maxErrors ts = some r ∧ Reported ts (max maxErrors 1) r.diagnostics := by
  have hends := endsOnce_of_tokenize h
  have hs := Stream.ends_ofTokens hends
  have hrow := Stream.row_ofTokens hends
  obtain ⟨f, hf, hread⟩ := exists_recoverFile hends.endsLast maxErrors
  obtain ⟨⟨s', hspots⟩, hgrammar⟩ := recoverFrom_inOrder hs.closed hf
  refine ⟨_, hread, ?_⟩
  constructor
  case length => exact Nat.le_trans (List.length_take_le ..) (Nat.le_of_eq (Nat.max_comm ..))
  case kind =>
    intro d hd
    obtain ⟨p, -, hp⟩ := hspots.exists_place d (List.mem_of_mem_take hd)
    exact hp.kind
  case unterminated =>
    intro i hi hkind
    by_contra hlast
    have hlen : i < f.reports.length - 1 := by
      simp only [List.length_take] at hi hlast
      omega
    have hmem : f.reports[i] ∈ f.reports.dropLast := by
      rw [← List.getElem_dropLast (by rwa [List.length_dropLast])]
      exact List.getElem_mem _
    simp only [List.getElem_take] at hkind
    rw [hgrammar _ hmem] at hkind
    cases hkind
  case span =>
    intro d hd
    obtain ⟨p, hp, hblame⟩ := hspots.exists_place d (List.mem_of_mem_take hd)
    exact ⟨p.here, hrow ▸ hp.here_mem, hblame.span⟩
  case ordered =>
    exact (hspots.pairwise (by rw [hrow]; exact tokenize_ascending h)).2.sublist
      (List.take_sublist ..)

/-- A fault in a statement, another behind the section it stands in, and a block that is not
ended. -/
theorem recoverFile_reports_unended :
    let text := "procedure P main if ) ; end main type procedure Q main a"
    ∃ ts, tokenize text = .ok ts ∧
      ∃ r, recoverFile 3 ts = some r ∧ Reported ts (max 3 1) r.diagnostics := by
  intro text
  obtain ⟨ts, h⟩ : ∃ ts, tokenize text = .ok ts := exists_tokenize_of_isOk (by cbv)
  exact ⟨ts, h, recoverFile_reports h 3⟩

end OpsLang
