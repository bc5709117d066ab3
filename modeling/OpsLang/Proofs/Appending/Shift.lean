import OpsLang.Proofs.Appending.Text

/-!
# Where the tokens behind a line feed stand

What the front of a text is taken for does not depend on where the text begins, so a text that
begins at another place is read as the same tokens, if only places that are moved in one way stay so
behind each character (`tokensFrom_move`). One way is to be further on by some bytes and lines
(`tokensFrom_shift`).
Behind a line feed a text begins in the first column, as a text of its own does, and only
bytes and lines have been passed (`Place.step_newline`). With `tokenize_append_newline` this
gives the tokens of two texts joined by a line feed, and the fault if the second of them has
one (`tokenize_append_shifted`).
-/

namespace OpsLang

/-! ## Shifts -/

/-- The point that is `bytes` and `lines` further on, in the same column. -/
def Place.shift (bytes lines : Nat) (p : Place) : Place :=
  ⟨p.offset + bytes, p.line + lines, p.column⟩

/-- The stretch that is `bytes` and `lines` further on, in the same column. -/
def Span.shift (bytes lines : Nat) (s : Span) : Span :=
  ⟨s.start + bytes, s.stop + bytes, s.line + lines, s.column⟩

/-- The token with its stretch shifted. -/
def Located.shift (bytes lines : Nat) (t : Located) : Located :=
  { t with span := t.span.shift bytes lines }

/-- The diagnostic with its stretch shifted. -/
def Diagnostic.shift (bytes lines : Nat) (d : Diagnostic) : Diagnostic :=
  { d with span := d.span.shift bytes lines }

/-! ## Reading from a moved place -/

/-- What a text is read as, with all stretches moved. -/
def moveReading (move : Span → Span) :
    Except Diagnostic (List Located) → Except Diagnostic (List Located)
  | .ok ts => .ok (ts.map fun t => { t with span := move t.span })
  | .error d => .error { d with span := move d.span }

/-- Passing over a character leads from moved places to moved places, and the stretch between two
moved places is `move` of the one between the two places. -/
structure Place.Moves (moved : Place → Place → Prop) (move : Span → Span) : Prop where
  step : ∀ {p p'}, moved p p' → ∀ c, moved (p.step c) (p'.step c)
  stretch : ∀ {p p' q q'}, moved p p' → moved q q' → p'.to q' = move (p.to q)

section Moves

variable {moved : Place → Place → Prop} {move : Span → Span}

theorem Place.Moves.after (h : Moves moved move) {p p' : Place} (hp : moved p p')
    (cs : List Char) : moved (p.after cs) (p'.after cs) := by
  induction cs generalizing p p' with
  | nil => exact hp
  | cons c cs ih => exact ih (h.step hp c)

theorem LexicalFault.diagnostic_move (f : LexicalFault) (s : Span) :
    f.diagnostic (move s) = { f.diagnostic s with span := move s } := by
  cases f <;> rfl

/-- A text that begins at a moved place is read as the same tokens, all of them moved. -/
theorem tokensFrom_move (h : Place.Moves moved move) (p : Place) (cs : List Char) :
    ∀ p', moved p p' → tokensFrom p' cs = moveReading move (tokensFrom p cs) := by
  fun_induction tokensFrom p cs with
  | case1 p =>
    intro p' hp
    rw [tokensFrom, h.stretch hp hp]
    rfl
  | case2 p c cs n hgap ih =>
    intro p' hp
    rw [tokensFrom, hgap]
    exact ih _ (h.after (h.step hp c) (cs.take n))
  | case3 p c cs t n htoken q ih =>
    intro p' hp
    have hq : moved q ((p'.step c).after (cs.take n)) := h.after (h.step hp c) (cs.take n)
    rw [tokensFrom, htoken]
    simp only [ih _ hq, h.stretch hp hq]
    cases tokensFrom q (cs.drop n) <;> rfl
  | case4 p c cs f n hfault =>
    intro p' hp
    rw [tokensFrom, hfault]
    simp only [h.stretch hp (h.after (h.step hp c) (cs.take n)), LexicalFault.diagnostic_move]
    cases f <;> rfl

end Moves

section Shifts

variable (bytes lines : Nat)

theorem Place.step_shift (p : Place) (c : Char) :
    (p.shift bytes lines).step c = (p.step c).shift bytes lines := by
  by_cases hc : c = '\n' <;> simp [step, shift, hc, Nat.add_right_comm]

theorem Place.moves_shift :
    Moves (fun p p' => p' = p.shift bytes lines) (Span.shift bytes lines) where
  step := by
    rintro p _ rfl c
    exact p.step_shift bytes lines c
  stretch := by
    rintro p _ q _ rfl rfl
    rfl

/-- What a text is read as, with all that is said about places shifted. -/
def shiftReading : Except Diagnostic (List Located) → Except Diagnostic (List Located)
  | .ok ts => .ok (ts.map (Located.shift bytes lines))
  | .error d => .error (d.shift bytes lines)

/-- A text that begins further on is read as the same tokens, all further on by as much. -/
theorem tokensFrom_shift (p : Place) (cs : List Char) :
    tokensFrom (p.shift bytes lines) cs = shiftReading bytes lines (tokensFrom p cs) := by
  rw [tokensFrom_move (Place.moves_shift bytes lines) p cs _ rfl]
  cases tokensFrom p cs <;> rfl

end Shifts

/-- Behind a line feed one is in the first column again. -/
theorem Place.step_newline (cs : List Char) : (Place.origin.after cs).step '\n' =
    Place.origin.shift ((String.ofList cs).utf8ByteSize + 1) (cs.count '\n' + 1) := by
  rw [origin_after, step, if_pos rfl, shift, origin, Nat.zero_add, Nat.add_assoc]
  rfl

/-- What is read behind a line feed is shifted by what stands before it. -/
theorem tokenize_append_shiftReading {a : String} {us : List Located} {e : Located}
    (h : tokenize a = .ok (us ++ [e])) (b : String) :
    tokenize (a ++ "\n" ++ b) =
      (shiftReading (a.utf8ByteSize + 1) (a.toList.count '\n' + 1) (tokenize b)).map
        (us ++ ·) := by
  rw [tokenize_append_newline h, Place.step_newline, String.ofList_toList, tokensFrom_shift,
    ← tokenize]

/-- A text that can be read, with a line feed and any other text behind it, is read as the
tokens of the first without its end, and those of the second, shifted by the bytes and the
lines before it. If the second cannot be read, its fault is that of the whole, shifted in the
same way. -/
theorem tokenize_append_shifted {a : String} {ts : List Located} (h : tokenize a = .ok ts) :
    ∃ us e, ts = us ++ [e] ∧ e.token = .eof ∧ ∀ b, tokenize (a ++ "\n" ++ b) =
      match tokenize b with
      | .ok vs =>
        .ok (us ++ vs.map (Located.shift (a.utf8ByteSize + 1) (a.toList.count '\n' + 1)))
      | .error d => .error (d.shift (a.utf8ByteSize + 1) (a.toList.count '\n' + 1)) := by
  obtain ⟨us, e, rfl, he, -⟩ := tokenize_spec h
  refine ⟨us, e, rfl, he, fun b => ?_⟩
  rw [tokenize_append_shiftReading h]
  cases tokenize b <;> rfl

/-- The first text ends in a unit that a slash could lengthen, and in a comment without a line
feed. -/
theorem tokenize_append_shifted_unit : ∃ ts, tokenize "5 deg # \u00e9" = .ok ts ∧
    ∃ us e, ts = us ++ [e] ∧ e.token = .eof ∧ ∀ b, tokenize ("5 deg # \u00e9" ++ "\n" ++ b) =
      match tokenize b with
      | .ok vs =>
        .ok (us ++ vs.map (Located.shift ("5 deg # \u00e9".utf8ByteSize + 1)
          ("5 deg # \u00e9".toList.count '\n' + 1)))
      | .error d =>
        .error (d.shift ("5 deg # \u00e9".utf8ByteSize + 1)
          ("5 deg # \u00e9".toList.count '\n' + 1)) := by
  have hok : (tokenize "5 deg # \u00e9").isOk = true := by cbv
  obtain ⟨ts, hts⟩ := exists_tokenize_of_isOk hok
  exact ⟨ts, hts, tokenize_append_shifted hts⟩

end OpsLang
