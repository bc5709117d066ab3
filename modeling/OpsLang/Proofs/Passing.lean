import OpsLang.Proofs.Appending.Text

/-!
# The beginning of a text that was passed over

`Scans p cs ts rest` says that reading the text `cs ++ rest`, which begins at `p`, passes over
`cs` for the tokens `ts` and comes to `rest`. Each front is told with all that stands behind it,
so nothing that is passed over could have gone on. What is read from then on is what `rest` is
read as (`Scans.tokensFrom_append`), and a text that cannot be read is passed over up to the
front that is no token (`exists_scans_of_error`).
-/

namespace OpsLang

/-- Reading the text with `rest` behind it passes over the text, for the tokens, and comes to
`rest`. -/
inductive Scans : Place → List Char → List Located → List Char → Prop
  | done {p : Place} {rest : List Char} : Scans p [] [] rest
  | gap {p : Place} {c : Char} {word cs rest : List Char} {ts : List Located}
      (hfront : front c (word ++ (cs ++ rest)) = .gap word.length)
      (h : Scans ((p.step c).after word) cs ts rest) : Scans p (c :: (word ++ cs)) ts rest
  | token {p : Place} {c : Char} {word cs rest : List Char} {t : Token} {ts : List Located}
      (hfront : front c (word ++ (cs ++ rest)) = .token t word.length)
      (h : Scans ((p.step c).after word) cs ts rest) :
      Scans p (c :: (word ++ cs)) (⟨t, p.to ((p.step c).after word)⟩ :: ts) rest

/-- Behind what was passed over, the rest is read. -/
theorem Scans.tokensFrom_append {p : Place} {cs rest : List Char} {ts : List Located}
    (h : Scans p cs ts rest) :
    tokensFrom p (cs ++ rest) = (tokensFrom (p.after cs) rest).map (ts ++ ·) := by
  induction h with
  | @done p rest => cases h : tokensFrom p rest <;> simp [h, Except.map]
  | @gap p c word cs rest ts hfront _ ih =>
    rw [List.cons_append, List.append_assoc, tokensFrom, hfront]
    simp only [List.take_left, List.drop_left]
    rw [ih, Place.after_cons, Place.after_append]
  | @token p c word cs rest t ts hfront _ ih =>
    rw [List.cons_append, List.append_assoc, tokensFrom, hfront]
    simp only [List.take_left, List.drop_left]
    rw [ih, Place.after_cons, Place.after_append]
    cases tokensFrom (((p.step c).after word).after cs) rest <;> rfl

/-- A text that cannot be read is passed over up to a front that is no token. -/
theorem exists_scans_of_error {p : Place} {cs : List Char} {d : Diagnostic}
    (h : tokensFrom p cs = .error d) :
    ∃ before ts c rest f n, cs = before ++ c :: rest ∧ Scans p before ts (c :: rest) ∧
      front c rest = .fault f n ∧
        d = f.diagnostic ((p.after before).to ((p.after before).after (c :: rest.take n))) := by
  have hsplit : ∀ c (cs : List Char) n, c :: cs = c :: (cs.take n ++ cs.drop n) := by
    intro c cs n
    rw [List.take_append_drop]
  fun_induction tokensFrom p cs with
  | case1 => cases h
  | case2 p c cs n hgap ih =>
    obtain ⟨before, ts, c', rest, f, m, hcs, hscans, hf, rfl⟩ := ih h
    have hlen : (cs.take n).length = n := List.length_take_of_le (front_le (.inl hgap))
    refine ⟨c :: (cs.take n ++ before), ts, c', rest, f, m, ?_, .gap ?_ hscans, hf, ?_⟩
    · rw [hsplit c cs n, hcs, List.cons_append, List.append_assoc]
    · rw [← hcs, List.take_append_drop, hlen, hgap]
    · rw [Place.after_cons p c, Place.after_append (p.step c)]
  | case3 p c cs t n htoken q =>
    next ih =>
    obtain ⟨before, ts, c', rest, f, m, hcs, hscans, hf, rfl⟩ := ih (Except.map_eq_error.1 h)
    have hlen : (cs.take n).length = n := List.length_take_of_le (front_le (.inr ⟨t, htoken⟩))
    refine ⟨c :: (cs.take n ++ before), ⟨t, p.to q⟩ :: ts, c', rest, f, m, ?_, .token ?_ hscans,
      hf, ?_⟩
    · rw [hsplit c cs n, hcs, List.cons_append, List.append_assoc]
    · rw [← hcs, List.take_append_drop, hlen, htoken]
    · rw [Place.after_cons p c, Place.after_append (p.step c)]
  | case4 p c cs f n hf =>
    cases h
    exact ⟨[], [], c, cs, f, n, rfl, .done, hf, rfl⟩

end OpsLang
