import Mathlib
import OpsLang.Proofs.Padding.Division

/-!
# Files with more semicolons

Semicolons are inert : one may be put behind any item of a file, behind any child of a namespace
and its opening brace, and behind any statement of a block and before its first one
(`SourceFile.Padded`). Every row that a file is read from is divided into these parts, and the file
is read from the row with more semicolons between them, with the same lines (`parseFile_padded`).
-/

namespace OpsLang

/-- The row `us` is the row `ts` of the file, with semicolons put before, between and behind its
items, and into their blocks and namespaces. Both go on in the same way behind the end of the
text. -/
def SourceFile.Padded (f : SourceFile) (ts us : List Located) : Prop :=
  ∃ vs vs' e ws, ts = vs ++ e :: ws ∧ us = vs' ++ e :: ws ∧ e.token = .eof ∧
    RowPadded (fun _ (i : Item) => i.Padded) .eof f.items vs vs'

open Grammar Reader

/-- A file that is read from a row in which the text ends divides the row into its parts. From a
row with more semicolons before, between and behind its items, the children of its namespaces and
the statements of its blocks, the same file is read. -/
theorem parseFile_padded {ts : List Located} {f : SourceFile} (h : parseFile ts = .accepted f) :
    ((∃ t ∈ ts, t.token = .eof) → f.Padded ts ts) ∧
      ∀ ⦃us⦄, f.Padded ts us → parseFile us = .accepted f := by
  obtain ⟨s', hrun⟩ := parseFile_eq_accepted.1 h
  constructor
  · rintro ⟨t, ht, he⟩
    have hrow : (Stream.ofTokens ts).row = ts := by
      cases ts with
      | nil => cases ht
      | cons t ts => rfl
    have hends : (Stream.ofTokens ts).HasEnd := ⟨t, by rwa [hrow], he⟩
    obtain ⟨he', us, hus, hitems⟩ := items_divides hends hrun
    refine ⟨us, us, s'.here, s'.ahead, ?_, ?_, he', hitems⟩ <;>
      rw [← hrow, hus.1, Stream.row_behind] <;> rfl
  · rintro us ⟨vs, vs', e, ws, rfl, rfl, he, hitems⟩
    have hrow : e :: ws = Stream.row ⟨e, ws⟩ := rfl
    rw [hrow, Stream.ofTokens_append_row] at hrun
    rw [hrow, parseFile_eq_accepted, Stream.ofTokens_append_row]
    have hstop : itemTurn maxNesting ⟨e, ws⟩ = .ok .stop ⟨e, ws⟩ := if_pos he
    obtain ⟨-, hmany⟩ := many_padded spacedRound_file .here partsBegin_item
      (x := ⟨e, ws⟩) (by simp [Stream.token, he]) (Stream.hasEnd_of_eof he) (fun _ _ _ h => h)
      (fun _ _ _ _ _ hp hi hrun => itemTurn_padded hp hi hrun) hitems hrun
    exact ⟨_, hmany rfl hstop⟩

/-- A row in which a semicolon stands at every place where it may. -/
theorem parseFile_padded_while :
    let ws : List Token := [.symbol .semicolon, .keyword .procedure, .name "p", .keyword .main,
      .symbol .semicolon, .keyword .while_, .name "b", .keyword .do_, .symbol .semicolon,
      .name "a", .symbol .semicolon, .keyword .end_, .keyword .while_, .symbol .semicolon,
      .keyword .end_, .keyword .main, .keyword .end_, .keyword .procedure, .symbol .semicolon, .eof]
    let us : List Located := ws.zipIdx.map fun (t, i) => ⟨t, ⟨i, i + 1, 1, i + 1⟩⟩
    let ts : List Located := us.filter (·.token ≠ .symbol .semicolon)
    let f : SourceFile := ⟨[.procedure ⟨"p", none,
      [.whileLoop (.name "b") [.expr (.name "a") 1] 1], none, 1⟩]⟩
    parseFile ts = .accepted f ∧ ((∃ t ∈ ts, t.token = .eof) → f.Padded ts ts) ∧
      f.Padded ts us ∧ parseFile us = .accepted f := by
  intro ws us ts f
  have hts : parseFile ts = .accepted f := by cbv
  let part : Nat → Nat → List Located := fun i j => (us.drop i).take (j - i)
  have hsemi : ∀ i ∈ [0, 4, 8, 10, 13, 18], Loosened [] (part i (i + 1)) :=
    fun i hi => ⟨List.nil_sublist _, by revert i; decide⟩
  let loop := part 5 8 ++ (part 9 10 ++ part 11 13)
  have hloop : Statement.Padded (.keyword .end_) (.whileLoop (.name "b") [.expr (.name "a") 1] 1)
      loop (part 5 13) := by
    rw [Statement.Padded]
    refine ⟨part 5 8, part 9 10, part 8 11, part 11 13, rfl, by decide, ⟨[.name "b"], rfl, rfl⟩,
      rfl, ?_⟩
    exact ⟨[], part 8 9, part 9 10, part 9 10, [], part 10 11, rfl, by decide, hsemi 8 (by simp),
      ⟨rfl, by decide, rfl, by simp [Expr.StopsBefore]⟩, hsemi 10 (by simp)⟩
  let main := part 3 4 ++ (loop ++ part 14 16)
  have hmain : SectionPadded .main [.whileLoop (.name "b") [.expr (.name "a") 1] 1] main
      (part 3 16) := by
    refine ⟨part 3 4, loop, part 4 14, part 14 16, rfl, by decide, rfl, rfl, ?_⟩
    exact ⟨[], part 4 5, loop, part 5 13, [], part 13 14, by rw [List.nil_append, List.append_nil],
      by decide, hsemi 4 (by simp), hloop, hsemi 13 (by simp)⟩
  let procedure := part 1 3 ++ (main ++ part 16 18)
  have hpad : f.Padded ts us := by
    refine ⟨procedure, part 0 19, ⟨.eof, ⟨19, 20, 1, 20⟩⟩, [], by decide, by decide, rfl, ?_⟩
    refine ⟨[], part 0 1, procedure, part 1 18, [], part 18 19,
      by rw [List.nil_append, List.append_nil], by decide, hsemi 0 (by simp), ?_,
      hsemi 18 (by simp)⟩
    exact ⟨part 1 3, main, part 3 16, part 16 18, rfl, by decide, rfl, rfl, [], [], main, part 3 16,
      [], [], by rw [List.nil_append, List.append_nil], by decide, ⟨rfl, rfl⟩, hmain, ⟨rfl, rfl⟩⟩
  obtain ⟨hself, hpadded⟩ := parseFile_padded hts
  exact ⟨hts, hself, hpad, hpadded hpad⟩

end OpsLang
