import OpsLang.Proofs.Appending.Shift

/-!
# What stands behind a quoted string

The quoted form of a string is read as that string whatever it is followed by : each character is
read back from the one or two characters it is written as (`stringRest_quoteChar`), and the quote
that closes the string is the first that has no backslash before it. So any text may stand behind,
and it is read as it is by itself (`tokenize_quote_append`).

The quoted form is on one line. A text behind it is further on by its bytes, and in the first line
also by its characters; the lines after the first begin where they did (`Place.along`).
-/

namespace OpsLang

/-! ## Further on in the first line -/

/-- The point that is `bytes` further on, and in the first line also `chars` columns. -/
def Place.along (bytes chars : Nat) (p : Place) : Place :=
  ⟨p.offset + bytes, p.line, if p.line = 1 then p.column + chars else p.column⟩

/-- The stretch that is `bytes` further on, and in the first line also `chars` columns. -/
def Span.along (bytes chars : Nat) (s : Span) : Span :=
  ⟨s.start + bytes, s.stop + bytes, s.line, if s.line = 1 then s.column + chars else s.column⟩

/-- The token with its stretch further on. -/
def Located.along (bytes chars : Nat) (t : Located) : Located :=
  { t with span := t.span.along bytes chars }

/-- The diagnostic with its stretch further on. -/
def Diagnostic.along (bytes chars : Nat) (d : Diagnostic) : Diagnostic :=
  { d with span := d.span.along bytes chars }

/-- A line feed leads behind the first line, where the columns are as they were. -/
theorem Place.step_along {bytes chars : Nat} {p : Place} (hp : 1 ≤ p.line) (c : Char) :
    (p.along bytes chars).step c = (p.step c).along bytes chars := by
  by_cases hc : c = '\n'
  · have hline : p.line ≠ 0 := by omega
    simp [step, along, hc, hline, Nat.add_right_comm]
  · by_cases hline : p.line = 1 <;> simp [step, along, hc, hline, Nat.add_right_comm]

theorem Place.moves_along (bytes chars : Nat) :
    Moves (fun p p' => 1 ≤ p.line ∧ p' = p.along bytes chars) (Span.along bytes chars) where
  step := by
    rintro p _ ⟨hp, rfl⟩ c
    exact ⟨hp.trans (p.line_le_after [c]), step_along hp c⟩
  stretch := by
    rintro p _ q _ ⟨-, rfl⟩ ⟨-, rfl⟩
    rfl

/-! ## Behind a string -/

/-- Behind a quoted string one is in the first line still. -/
theorem Place.origin_after_quote (v : String) : Place.origin.after (quote v).toList =
    Place.origin.along (quote v).utf8ByteSize (quote v).length := by
  have hflat := newline_notMem_quote v
  have hline : ∀ c ∈ (quote v).toList.reverse, (c != '\n') = true := by
    intro c hc
    simpa using fun h : c = '\n' => hflat (h ▸ List.mem_reverse.1 hc)
  rw [origin_after, List.count_eq_zero_of_not_mem hflat, List.takeWhile_eq_self_iff.2 hline,
    List.length_reverse, String.ofList_toList, String.length_toList]
  simp [along, origin]

/-- The quoted form of a string, with any text behind it, is read as the string and then as that
text is by itself. The tokens of the text are further on by the bytes of the quoted form, and those
in its first line by as many columns as the form has characters. A fault of the text is the fault
of the whole, in the place that is further on in the same way. -/
theorem tokenize_quote_append (v r : String) :
    tokenize (quote v ++ r) =
      match tokenize r with
      | .ok ts =>
        .ok (⟨.string v, ⟨0, (quote v).utf8ByteSize, 1, 1⟩⟩ ::
          ts.map (Located.along (quote v).utf8ByteSize (quote v).length))
      | .error d => .error (d.along (quote v).utf8ByteSize (quote v).length) := by
  have hclear : (Token.string v).Clear r.toList := fun _ _ => rfl
  have hfront := tokensFrom_token (t := .string v) trivial hclear .origin
  have hbehind := tokensFrom_move (Place.moves_along (quote v).utf8ByteSize (quote v).length)
    .origin r.toList _ ⟨Nat.le_refl 1, rfl⟩
  have hstretch : Place.origin.to (Place.origin.along (quote v).utf8ByteSize (quote v).length) =
      ⟨0, (quote v).utf8ByteSize, 1, 1⟩ := by
    simp [Place.to, Place.along, Place.origin]
  rw [Token.text, Place.origin_after_quote, hstretch, hbehind] at hfront
  rw [tokenize, String.toList_append, hfront, ← tokenize]
  cases tokenize r <;> rfl

end OpsLang
