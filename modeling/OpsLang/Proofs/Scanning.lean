import OpsLang.Layout.Statement
import OpsLang.Proofs.Reading
import OpsLang.Proofs.Spelling.Expr
import OpsLang.Proofs.Words

/-!
# Reading tokens off a text

A text that is put together from the texts of tokens is read as these tokens, if no token is
touched by a character that goes on from it. `Writes s ts` says so of a text on one line, and
is put together along the text (`Writes.append`). `Prints ls ts` says so of lines, none of
which begins with a unit : a unit belongs to the number before it only on the same line.

In the other direction `tokenize_spec` says what every row read from a text is like : it ends
in its only end of text, and each token before can be written.
-/

namespace OpsLang

/-! ## Places -/

theorem Place.line_after {cs : List Char} (h : '\n' ∉ cs) (p : Place) :
    (p.after cs).line = p.line := by
  induction cs generalizing p with
  | nil => rfl
  | cons c cs ih =>
    obtain ⟨hc, hcs⟩ := not_or.1 (List.mem_cons.not.1 h)
    rw [Place.after_cons, ih hcs, Place.step, if_neg (Ne.symm hc)]

/-! ## Rows that are read from texts -/

theorem Except.map_eq_ok {ε α β : Type} {f : α → β} {x : Except ε α} {b : β} :
    x.map f = .ok b ↔ ∃ a, x = .ok a ∧ f a = b := by
  cases x <;> simp [Except.map]

theorem Except.map_eq_error {ε α β : Type} {f : α → β} {x : Except ε α} {e : ε} :
    x.map f = .error e ↔ x = .error e := by
  cases x <;> simp [Except.map]

/-- A row read from a text is tokens that can be written, and the end of the text. -/
theorem tokensFrom_spec {p : Place} {cs : List Char} {ts : List Located}
    (h : tokensFrom p cs = .ok ts) :
    ∃ (us : List Located) (e : Located), ts = us ++ [e] ∧ e.token = .eof ∧
      ∀ u ∈ us, u.token.Written := by
  fun_induction tokensFrom p cs generalizing ts with
  | case1 =>
    cases h
    exact ⟨[], _, rfl, rfl, by simp⟩
  | case2 p c cs n hgap ih => exact ih h
  | case3 p c cs t n htoken q =>
    next ih =>
    obtain ⟨ts', hts', rfl⟩ := Except.map_eq_ok.1 h
    obtain ⟨us, e, rfl, he, hus⟩ := ih hts'
    exact ⟨_ :: us, e, rfl, he, List.forall_mem_cons.2 ⟨written_of_front htoken, hus⟩⟩
  | case4 => cases h

theorem tokenize_spec {text : String} {ts : List Located} (h : tokenize text = .ok ts) :
    ∃ (us : List Located) (e : Located), ts = us ++ [e] ∧ e.token = .eof ∧
      ∀ u ∈ us, u.token.Written :=
  tokensFrom_spec h

theorem Token.Written.ne_eof {t : Token} (h : t.Written) : t ≠ .eof := by
  rintro rfl
  exact h

theorem endsOnce_of_tokenize {text : String} {ts : List Located} (h : tokenize text = .ok ts) :
    EndsOnce ts := by
  obtain ⟨us, e, rfl, he, hus⟩ := tokenize_spec h
  exact endsOnce_append_singleton.2 ⟨he, fun u hu => (hus u hu).ne_eof⟩

theorem exists_tokenize_of_isOk {text : String} (h : (tokenize text).isOk = true) :
    ∃ ts, tokenize text = .ok ts := by
  cases hts : tokenize text with
  | ok ts => exact ⟨ts, rfl⟩
  | error d =>
    rw [hts] at h
    cases h

/-! ## Clear characters -/

/-- No token goes on with the character. -/
def closes (c : Char) : Bool :=
  [' ', '\n', '(', ')', ']', ',', ';', ':'].contains c

theorem Token.clear_of_closes {t : Token} {c : Char} (h : closes c = true) : t.clear c = true := by
  have hc : c = ' ' ∨ c = '\n' ∨ c = '(' ∨ c = ')' ∨ c = ']' ∨ c = ',' ∨ c = ';' ∨ c = ':' := by
    simpa [closes] using h
  rcases hc with rfl | rfl | rfl | rfl | rfl | rfl | rfl | rfl <;> cases t <;> first
    | rfl
    | next y => cases y <;> rfl

/-- The text behind tokens does not go on from the last of them. -/
def ClearBehind (ts : List Token) (rest : List Char) : Prop :=
  ∀ t ∈ ts.getLast?, t.Clear rest

theorem clearBehind_nil (rest : List Char) : ClearBehind [] rest := by
  rintro t ⟨⟩

theorem clearBehind_of_closes {ts : List Token} {c : Char} {rest : List Char}
    (h : closes c = true) : ClearBehind ts (c :: rest) := by
  rintro t - d ⟨⟩
  exact Token.clear_of_closes h

theorem clearBehind_end (ts : List Token) : ClearBehind ts [] := by
  rintro t - d ⟨⟩

/-! ## Texts on one line -/

theorem tokensFrom_blank {c : Char} (h : isBlank c = true) (hc : c ≠ '#') (hc' : c ≠ '/')
    (p : Place) (rest : List Char) :
    tokensFrom p (c :: rest) = tokensFrom (p.step c) rest := by
  rw [tokensFrom]
  simp [front, hc, hc', h]

theorem tokensFrom_token {t : Token} (ht : t.Written) {rest : List Char} (h : t.Clear rest)
    (p : Place) :
    tokensFrom p (t.text.toList ++ rest) =
      (tokensFrom (p.after t.text.toList) rest).map
        (⟨t, p.to (p.after t.text.toList)⟩ :: ·) := by
  obtain ⟨c, cs, htext, hfront⟩ := front_text ht h
  rw [htext, List.cons_append, tokensFrom, hfront]
  simp

/-- The text stands on one line and is read as the tokens, unless what stands behind goes on
from the last of them. -/
structure Writes (s : String) (ts : List Token) : Prop where
  flat : '\n' ∉ s.toList
  scan : ∀ (p : Place) (rest : List Char), ClearBehind ts rest →
    ∃ us, words us = ts ∧ (∀ u ∈ us, u.line = p.line) ∧
      tokensFrom p (s.toList ++ rest) = (tokensFrom (p.after s.toList) rest).map (us ++ ·)

namespace Writes

variable {s s' : String} {ts ts' : List Token}

theorem empty : Writes "" [] where
  flat := by simp
  scan p rest _ := ⟨[], rfl, by simp, by
    cases h : tokensFrom p rest <;> simp [h, Except.map]⟩

theorem space : Writes " " [] where
  flat := by decide
  scan p rest _ := ⟨[], rfl, by simp, by
    have hblank : tokensFrom p (' ' :: rest) = tokensFrom (p.step ' ') rest :=
      tokensFrom_blank rfl (by decide) (by decide) p rest
    have hlist : " ".toList = [' '] := rfl
    rw [hlist, List.singleton_append, hblank]
    cases h : tokensFrom (p.step ' ') rest <;> simp [h, Except.map]⟩

theorem token {t : Token} (ht : t.Written) (h : '\n' ∉ t.text.toList) : Writes t.text [t] where
  flat := h
  scan p rest hrest := by
    refine ⟨[⟨t, p.to (p.after t.text.toList)⟩], rfl, ?_, ?_⟩
    · intro u hu
      obtain rfl := List.mem_singleton.1 hu
      rfl
    · exact tokensFrom_token ht (hrest t rfl) p

theorem eq_nil_of_empty (h : Writes "" ts) : ts = [] := by
  obtain ⟨us, rfl, -, hscan⟩ := h.scan .origin [] (clearBehind_end _)
  have hlen := congrArg (fun x => x.map List.length) hscan
  simp only [String.toList_empty, List.append_nil, Place.after_nil, tokensFrom, Except.map,
    List.length_append, List.length_cons, List.length_nil, Except.ok.injEq] at hlen
  rw [List.eq_nil_of_length_eq_zero (show us.length = 0 by omega)]
  rfl

theorem append (h : Writes s ts) (h' : Writes s' ts') (hclear : ClearBehind ts s'.toList) :
    Writes (s ++ s') (ts ++ ts') where
  flat := by simpa using ⟨h.flat, h'.flat⟩
  scan p rest hrest := by
    have hrest' : ClearBehind ts' rest := by
      intro t ht
      exact hrest t (by simp [List.getLast?_append, Option.mem_def.1 ht])
    have hmid : ClearBehind ts (s'.toList ++ rest) := by
      intro t ht c hc
      cases hs' : s'.toList with
      | nil =>
        have hts' : ts' = [] := by
          rw [String.toList_eq_nil_iff.1 hs'] at h'
          exact h'.eq_nil_of_empty
        rw [hs', List.nil_append] at hc
        exact hrest t (by simpa [hts'] using ht) c hc
      | cons d ds =>
        rw [hs'] at hc
        exact hclear t ht c (by simpa [hs'] using hc)
    obtain ⟨us, hus, hline, hscan⟩ := h.scan p (s'.toList ++ rest) hmid
    obtain ⟨vs, hvs, hline', hscan'⟩ := h'.scan (p.after s.toList) rest hrest'
    refine ⟨us ++ vs, by rw [words_append, hus, hvs], ?_, ?_⟩
    · intro u hu
      rcases List.mem_append.1 hu with hu | hu
      · exact hline u hu
      · rw [hline' u hu, Place.line_after h.flat]
    · rw [String.toList_append, List.append_assoc, hscan, hscan', Place.after_append]
      cases tokensFrom ((p.after s.toList).after s'.toList) rest <;> simp [Except.map]

/-- The text behind begins with a character that closes every token. -/
theorem append_closed (h : Writes s ts) (h' : Writes s' ts') {c : Char}
    (hs' : s'.toList.head? = some c) (hc : closes c = true) : Writes (s ++ s') (ts ++ ts') := by
  obtain ⟨cs, hcs⟩ := List.head?_eq_some_iff.1 hs'
  exact h.append h' (by rw [hcs]; exact clearBehind_of_closes hc)

theorem keyword (k : Keyword) : Writes k.text [.keyword k] :=
  token (t := .keyword k) trivial (by cases k <;> decide)

theorem symbol (y : Symbol) : Writes y.text [.symbol y] :=
  token (t := .symbol y) trivial (by cases y <;> decide)

/-- The text behind follows a symbol that every character closes. -/
theorem append_open (y : Symbol) (h : Writes s ts) (hy : ∀ c, (Token.symbol y).clear c = true) :
    Writes (y.text ++ s) (.symbol y :: ts) := by
  refine (symbol y).append h fun u hu c _ => ?_
  cases hu
  exact hy c

theorem name {n : String} (h : IsName n) : Writes n [.name n] :=
  token (t := .name n) h fun hmem => by cases h.chars _ hmem

theorem string (s : String) : Writes (quote s) [.string s] :=
  token (t := .string s) trivial (newline_notMem_quote s)

theorem truth (b : Bool) : Writes (truthText b) [.truth b] :=
  token (t := .truth b) trivial (by cases b <;> decide)

theorem unit {u : String} (h : u ∈ unitSpellings) : Writes u [.unit u] := by
  refine token (t := .unit u) h fun hmem => ?_
  obtain rfl | ⟨⟨-, -, hchars⟩, -⟩ := unitSpellings_shape u h
  · exact absurd hmem (by decide)
  · obtain hword | hslash := hchars _ hmem
    · cases hword
    · cases hslash

theorem number {x : String} (h : IsNumber x.toList) : Writes x [.number x] :=
  token (t := .number x) h (newline_notMem_of_isNumber h)

/-- Blank space may stand before a text. -/
theorem indent (n : Nat) (h : Writes s ts) :
    Writes (String.ofList (List.replicate n ' ') ++ s) ts := by
  induction n with
  | zero => simpa using h
  | succ n ih =>
    have hspace : String.ofList (List.replicate (n + 1) ' ') ++ s =
        " " ++ (String.ofList (List.replicate n ' ') ++ s) := by
      rw [List.replicate_succ, ← String.append_assoc, ← List.singleton_append, String.ofList_append]
    rw [hspace]
    exact space.append ih (clearBehind_nil _)

end Writes

/-! ## Lines -/

/-- The lines are read as the tokens. None of them begins with a unit. -/
inductive Prints : List String → List Token → Prop
  | nil : Prints [] []
  | cons {l : String} {ls : List String} {ts us : List Token} (h : Writes l ts)
      (hunit : ∀ x, ts.head? ≠ some (.unit x)) (hs : Prints ls us) : Prints (l :: ls) (ts ++ us)

namespace Prints

variable {ls ls' : List String} {ts ts' : List Token}

theorem append (h : Prints ls ts) (h' : Prints ls' ts') : Prints (ls ++ ls') (ts ++ ts') := by
  induction h with
  | nil => exact h'
  | cons h hunit _ ih =>
    rw [List.cons_append, List.append_assoc]
    exact .cons h hunit ih

theorem line {l : String} (level : Nat) (h : Writes l ts)
    (hunit : ∀ x, ts.head? ≠ some (.unit x)) : Prints [indented level l] ts := by
  have hline : Prints [indented level l] (ts ++ []) := .cons (h.indent _) hunit .nil
  simpa using hline

/-- A semicolon at the end of the last line is read behind all other tokens. -/
theorem closeLast (h : Prints ls ts) (hne : ls ≠ []) :
    Prints (OpsLang.closeLast ls) (ts ++ [Token.symbol .semicolon]) := by
  induction h with
  | nil => exact absurd rfl hne
  | @cons l ls ts us h hunit hs ih =>
    cases ls with
    | nil =>
      cases hs
      have hclosed : Writes (l ++ ";") (ts ++ [Token.symbol .semicolon]) :=
        h.append_closed (.symbol .semicolon) rfl rfl
      have hfirst : ∀ x, (ts ++ [Token.symbol .semicolon]).head? ≠ some (.unit x) := by
        intro x
        cases ts with
        | nil => simp
        | cons t ts => exact hunit x
      have hline := Prints.cons hclosed hfirst .nil
      rw [List.append_nil] at hline ⊢
      exact hline
    | cons l' ls =>
      rw [List.append_assoc]
      exact .cons h hunit (ih (by simp))

theorem head_ne_unit (h : Prints ls ts) (x : String) : ts.head? ≠ some (.unit x) := by
  induction h with
  | nil => simp
  | @cons l ls ts us h hunit hs ih =>
    cases ts with
    | nil => exact ih
    | cons t ts => exact hunit x

theorem scan (h : Prints ls ts) (p : Place) (rest : List Char) :
    ∃ us, words us = ts ∧ Fused us ∧
      tokensFrom p ((linesText ls).toList ++ rest) =
        (tokensFrom (p.after (linesText ls).toList) rest).map (us ++ ·) := by
  induction h generalizing p with
  | nil =>
    refine ⟨[], rfl, .nil, ?_⟩
    cases hr : tokensFrom p rest <;> simp [linesText, hr, Except.map]
  | @cons l ls ts us h hunit hs ih =>
    have htext : (linesText (l :: ls)).toList = l.toList ++ '\n' :: (linesText ls).toList := by
      simp [linesText, String.join_cons]
    obtain ⟨vs, hvs, hline, hscan⟩ := h.scan p ('\n' :: ((linesText ls).toList ++ rest))
      (clearBehind_of_closes rfl)
    obtain ⟨ws, hws, hfused, hscan'⟩ := ih ((p.after l.toList).step '\n')
    refine ⟨vs ++ ws, by rw [words_append, hvs, hws], (Fused.of_line hline).append hfused ?_, ?_⟩
    · intro w hw x hx
      refine hs.head_ne_unit x ?_
      rw [← hws, words, List.head?_map, Option.mem_def.1 hw, Option.map_some, hx]
    · rw [htext, List.append_assoc, List.cons_append, hscan,
        tokensFrom_blank rfl (by decide) (by decide), hscan', Place.after_append, Place.after_cons]
      cases tokensFrom (((p.after l.toList).step '\n').after (linesText ls).toList) rest <;>
        simp [Except.map]

/-- The text of lines is read as their tokens and the end of the text. -/
theorem tokenize_eq (h : Prints ls ts) :
    ∃ (us : List Located) (e : Located), tokenize (linesText ls) = .ok (us ++ [e]) ∧
      words us = ts ∧ Fused us ∧ e.token = .eof := by
  obtain ⟨us, hus, hfused, hscan⟩ := h.scan .origin []
  rw [List.append_nil, tokensFrom] at hscan
  exact ⟨us, _, hscan, hus, hfused, rfl⟩

end Prints

end OpsLang
