import OpsLang.Proofs.Reports.File

/-!
# What a refusal points at

Where a strict reading of a file fails, it fails at a place of the row (`Stream.Blames`), which
`parseFile_refused_at` finds : the tokens before the place and those from it on are all of the row.
A fault of grammar there names the token that stands there as what was found, or, for the end of
another block, `end` and the word behind it (`Stream.Finds`).

There is one exception, since the diagnostic that a type is declared as a mere name is made where
that name has been passed over. It points at the token behind the name, and says that the name was
found (`parseFile_alias_points_behind`). All others point at what they name
(`parseFile_points_at`).
-/

namespace OpsLang

namespace Grammar

open Reader

theorem marks_fileRound : fileRound.Marks Stream.Blames :=
  marks_semicolons.liftM.bind fun _ => marks_peek.liftM.bind fun _ =>
    (Reporter.marks_pure _).ite ((marks_item .strict).bind fun _ => Reporter.marks_pure _)

end Grammar

open Grammar

/-- A strict reading of a file is refused at a place of the row. -/
theorem parseFile_refused_at {ts : List Located} {d : Diagnostic} (h : EndsOnce ts)
    (hd : parseFile ts = .refused d) :
    ∃ (us : List Located) (p : Stream), ts = us ++ p.row ∧ p.Blames d := by
  have hs : (Stream.ofTokens ts).Closed := (Stream.ends_ofTokens h).closed
  have hmarks := marks_fileRound.many _ hs
  have hrun : parseFile ts =
      ((Reporter.many fileRound (.ofTokens ts)).2.map SourceFile.mk).verdict := by
    rw [parseFile_eq, ← Reporter.outcome_many]
    rfl
  rw [hrun] at hd
  generalize Reporter.many fileRound (.ofTokens ts) = x at hd hmarks
  cases hmarks with
  | ok => cases hd
  | @fail ds d' p s' hspots _ hblames hp =>
    obtain rfl := Verdict.refused.inj hd
    obtain ⟨us, hus⟩ := hspots.reaches
    exact ⟨us, p, by rw [← Stream.row_behind, ← hus, Stream.row_ofTokens h], hblames⟩
  | endless => cases hd

/-- The token behind a place is the next of the row. -/
theorem Stream.getElem_append_row (us : List Located) {p : Stream} (h : p.next ≠ .eof) :
    ∃ hnext : us.length + 1 < (us ++ p.row).length,
      (us ++ p.row)[us.length + 1].token = p.next := by
  obtain ⟨t, ahead⟩ := p
  cases ahead with
  | nil => exact absurd rfl h
  | cons t' ahead => exact ⟨by simp [row], by simp [row, next]⟩

/-- A file that is refused for its grammar is refused at one of its tokens, and the diagnostic
names that token as what was found; or it names `end` and the word behind it, which stand there.
All this but for types that are declared as mere names. -/
theorem parseFile_points_at {text : String} {ts : List Located} {d : Diagnostic}
    (h : tokenize text = .ok ts) (hd : parseFile ts = .refused d) (hkind : d.kind = .grammar)
    (hbare : d.expected ≠ ["'struct'", "'['", "primitive type"]) :
    ∃ i, ∃ hi : i < ts.length, ts[i].span = d.span ∧
      (d.found = some ts[i].token.describe ∨
        ts[i].token = .keyword .end_ ∧ ∃ hnext : i + 1 < ts.length,
          d.found = some ("'end " ++ ts[i + 1].token.lexeme ++ "'")) := by
  obtain ⟨us, p, rfl, hblames⟩ := parseFile_refused_at (endsOnce_of_tokenize h) hd
  have hlt : us.length < (us ++ p.row).length := by simp [Stream.row]
  have hhere : (us ++ p.row)[us.length] = p.here := by simp [Stream.row]
  refine ⟨us.length, hlt, by rw [hhere, hblames.span], ?_⟩
  rw [hhere]
  obtain hfound | ⟨hend, hnext, hfound⟩ | ⟨name, path, rfl⟩ := hblames.found hkind
  · exact .inl hfound
  · obtain ⟨hlt', hget⟩ := Stream.getElem_append_row us hnext
    exact .inr ⟨hend, hlt', by rw [hget, hfound, endText]⟩
  · exact absurd rfl hbare

/-- The end of a loop where that of a condition should stand. -/
theorem parseFile_points_at_closer :
    ∃ ts d, tokenize "procedure P main if a then end while" = .ok ts ∧
      parseFile ts = .refused d ∧ d.kind = .grammar ∧
      d.expected ≠ ["'struct'", "'['", "primitive type"] ∧
      ∃ i, ∃ hi : i < ts.length, ts[i].span = d.span ∧
        (d.found = some ts[i].token.describe ∨
          ts[i].token = .keyword .end_ ∧ ∃ hnext : i + 1 < ts.length,
            d.found = some ("'end " ++ ts[i + 1].token.lexeme ++ "'")) := by
  have hts : tokenize "procedure P main if a then end while" = .ok
      [⟨.keyword .procedure, ⟨0, 9, 1, 1⟩⟩, ⟨.name "P", ⟨10, 11, 1, 11⟩⟩,
        ⟨.keyword .main, ⟨12, 16, 1, 13⟩⟩, ⟨.keyword .if_, ⟨17, 19, 1, 18⟩⟩,
        ⟨.name "a", ⟨20, 21, 1, 21⟩⟩, ⟨.keyword .then_, ⟨22, 26, 1, 23⟩⟩,
        ⟨.keyword .end_, ⟨27, 30, 1, 28⟩⟩, ⟨.keyword .while_, ⟨31, 36, 1, 32⟩⟩,
        ⟨.eof, ⟨36, 36, 1, 37⟩⟩] := by cbv
  have hd : parseFile
      [⟨.keyword .procedure, ⟨0, 9, 1, 1⟩⟩, ⟨.name "P", ⟨10, 11, 1, 11⟩⟩,
        ⟨.keyword .main, ⟨12, 16, 1, 13⟩⟩, ⟨.keyword .if_, ⟨17, 19, 1, 18⟩⟩,
        ⟨.name "a", ⟨20, 21, 1, 21⟩⟩, ⟨.keyword .then_, ⟨22, 26, 1, 23⟩⟩,
        ⟨.keyword .end_, ⟨27, 30, 1, 28⟩⟩, ⟨.keyword .while_, ⟨31, 36, 1, 32⟩⟩,
        ⟨.eof, ⟨36, 36, 1, 37⟩⟩] =
      .refused (.expecting ⟨27, 30, 1, 28⟩ ["'end if'"] "'end while'") := by cbv
  exact ⟨_, _, hts, hd, rfl, by decide, parseFile_points_at hts hd rfl (by decide)⟩

/-- What is found in place of a type behind `type a` is the name `b`, and the diagnostic points
at the end of the text. -/
theorem parseFile_alias_points_behind :
    ∃ ts d, tokenize "type a b" = .ok ts ∧ parseFile ts = .refused d ∧ d.kind = .grammar ∧
      d.found = some (Token.name "b").describe ∧
      ∀ t ∈ ts, t.span = d.span → t.token = .eof := by
  have hts : tokenize "type a b" = .ok
      [⟨.keyword .type, ⟨0, 4, 1, 1⟩⟩, ⟨.name "a", ⟨5, 6, 1, 6⟩⟩, ⟨.name "b", ⟨7, 8, 1, 8⟩⟩,
        ⟨.eof, ⟨8, 8, 1, 9⟩⟩] := by cbv
  have hd : parseFile
      [⟨.keyword .type, ⟨0, 4, 1, 1⟩⟩, ⟨.name "a", ⟨5, 6, 1, 6⟩⟩, ⟨.name "b", ⟨7, 8, 1, 8⟩⟩,
        ⟨.eof, ⟨8, 8, 1, 9⟩⟩] =
      .refused (Stream.bareAlias ⟨⟨.eof, ⟨8, 8, 1, 9⟩⟩, []⟩ "a" ⟨["b"]⟩) := by cbv
  exact ⟨_, _, hts, hd, rfl, rfl, by decide⟩

end OpsLang
