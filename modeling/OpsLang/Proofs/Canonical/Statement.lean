import OpsLang.Proofs.Canonical.Expr

/-!
# The tokens of a statement's text

`Statement.tokens` are the tokens that `Statement.lines` are read as (`Statement.prints`),
for statements that a reader could have built (`Statement.Legible`). Between the statements
of a block there stands a semicolon exactly where the next one begins with a sign or a
parenthesis, which `Expr.head_text` shows of its tokens and of its text alike. So behind each
statement stands a token that no statement goes on with (`Token.Follows`, `head_separated`).
-/

namespace OpsLang

/-! ## Canonical tokens -/

/-- The tokens for what is asked of an activity. -/
def ActivityMode.tokens : ActivityMode → List Token
  | initiate => [.keyword .initiate]
  | confirm => [.keyword .confirm]
  | initiateAndConfirm => [.keyword .initiate, .keyword .and, .keyword .confirm]

/-- The tokens of arguments with their parentheses, or nothing for none. -/
def Argument.optionalTokens (as : List Argument) : List Token :=
  if as.isEmpty then []
  else .symbol .leftParen :: (Argument.allTokens as ++ [.symbol .rightParen])

/-- The tokens that close a block. -/
def BlockKind.endTokens (k : BlockKind) : List Token :=
  [.keyword .end_, .keyword k.closer]

/-- The semicolon before statements that need one. -/
def separator (rest : List Statement) : List Token :=
  if needsSeparator rest then [.symbol .semicolon] else []

mutual

/-- The tokens of a statement. -/
def Statement.tokens : Statement → List Token
  | .activity mode p as _ => mode.tokens ++ (p.tokens ++ Argument.optionalTokens as)
  | .check c _ => .keyword .confirm :: c.tokens
  | .wait c _ => .keyword .wait :: .keyword .until_ :: c.tokens
  | .assign n v _ => .name n :: .symbol .assign :: v.tokens
  | .conditional branches none _ =>
    Branch.tokens .if_ branches ++ BlockKind.conditional.endTokens
  | .conditional branches (some body) _ =>
    Branch.tokens .if_ branches
      ++ .keyword .else_ :: (Block.tokens body ++ BlockKind.conditional.endTokens)
  | .whileLoop c body _ =>
    .keyword .while_ :: (c.tokens
      ++ .keyword .do_ :: (Block.tokens body ++ BlockKind.whileLoop.endTokens))
  | .forLoop n e body _ =>
    .keyword .for_ :: .name n :: .keyword .in_ :: (e.tokens
      ++ .keyword .do_ :: (Block.tokens body ++ BlockKind.forLoop.endTokens))
  | .expr v _ => v.tokens

/-- The tokens of the statements of a block. -/
def Block.tokens : List Statement → List Token
  | [] => []
  | st :: rest => st.tokens ++ (separator rest ++ Block.tokens rest)

/-- The tokens of branches, the first of which begins with `word`. -/
def Branch.tokens (word : Keyword) : List Branch → List Token
  | [] => []
  | .mk c body :: rest =>
    .keyword word :: (c.tokens
      ++ .keyword .then_ :: (Block.tokens body ++ Branch.tokens .elsif rest))

end

/-! ## Legible statements -/

mutual

/-- The statement is one that is read where expressions and blocks have `room` levels. -/
def Statement.Legible : Nat → Statement → Prop
  | room, .activity _ p as _ => p.Legible ∧ Argument.AllLegible room as
  | room, .check c _ => c.Legible room ∧ c.readsAsActivity = false
  | room, .wait c _ => c.Legible room
  | room, .assign n v _ => IsName n ∧ v.Legible room
  | room, .conditional branches none _ => branches ≠ [] ∧ Branch.AllLegible room branches
  | room, .conditional branches (some body) _ =>
    branches ≠ [] ∧ Branch.AllLegible room branches ∧ Block.Legible room body
  | room, .whileLoop c body _ => c.Legible room ∧ Block.Legible room body
  | room, .forLoop n e body _ => IsName n ∧ e.Legible room ∧ Block.Legible room body
  | room, .expr v _ => v.Legible room

/-- The statements make a block that is read inside `room` levels. -/
def Block.Legible : Nat → List Statement → Prop
  | 0, _ => False
  | _ + 1, [] => True
  | room + 1, st :: rest => st.Legible room ∧ Block.Legible (room + 1) rest

/-- The branches are read where expressions and blocks have `room` levels. -/
def Branch.AllLegible : Nat → List Branch → Prop
  | _, [] => True
  | room, .mk c body :: rest =>
    c.Legible room ∧ Block.Legible room body ∧ Branch.AllLegible room rest

end

theorem Block.not_legible_zero {body : List Statement} : ¬Block.Legible 0 body := by
  cases body <;> simp [Block.Legible]

/-- There is a branch in every conditional. -/
theorem Statement.Legible.exists_branch {room : Nat} {branches : List Branch}
    {otherwise : Option Block} {line : Nat}
    (h : (Statement.conditional branches otherwise line).Legible room) :
    ∃ c body rest, branches = .mk c body :: rest := by
  cases otherwise <;> obtain _ | ⟨⟨c, body⟩, rest⟩ := branches <;> first
    | exact absurd rfl h.1
    | exact ⟨c, body, rest, rfl⟩

/-! ## First tokens and first characters -/

/-- The token is a sign or an opening parenthesis. -/
def Token.isSign : Token → Bool
  | .symbol .minus | .symbol .plus | .symbol .leftParen => true
  | _ => false

/-- The character is a sign or an opening parenthesis. -/
def signChar (c : Char) : Bool :=
  c == '-' || c == '+' || c == '('

theorem signChar_of_isWordChar {c : Char} (h : isWordChar c = true) : signChar c = false := by
  rw [← Bool.not_eq_true]
  intro hc
  simp only [signChar, Bool.or_eq_true, beq_iff_eq] at hc
  rcases hc with (rfl | rfl) | rfl <;> cases h

theorem IsName.head_text {n : String} (h : IsName n) :
    ∃ c, n.toList.head? = some c ∧ signChar c = false := by
  obtain ⟨c, cs, hn⟩ := List.exists_cons_of_ne_nil h.ne_nil
  exact ⟨c, by simp [hn], signChar_of_isWordChar (h.chars c (by simp [hn]))⟩

theorem head_text_number {x : String} (h : IsNumber x.toList) :
    ∃ c, x.toList.head? = some c ∧ signChar c = false := by
  obtain ⟨c, cs, hx, hdigit⟩ := h.exists_cons
  exact ⟨c, by simp [hx], signChar_of_isWordChar (isWordChar_of_isDigit hdigit)⟩

theorem Path.head_text {p : Path} (hp : 1 ≤ p.segments.length) (hw : ∀ t ∈ p.tokens, t.Written) :
    ∃ n c, p.tokens.head? = some (.name n) ∧ p.text.toList.head? = some c ∧
      signChar c = false := by
  obtain ⟨_ | ⟨n, ns⟩⟩ := p
  · cases hp
  · obtain ⟨c, hn, hc⟩ := IsName.head_text (n := n) (hw (.name n) List.mem_cons_self)
    exact ⟨n, c, rfl, by simp [Path.text, intercalate_dot, hn], hc⟩

/-- The text of a tree begins with a sign or a parenthesis exactly if its first token is
one. -/
theorem Expr.head_text : ∀ {room : Nat} {e : Expr}, e.Fits room → (∀ t ∈ e.tokens, t.Written) →
    ∃ t c, e.tokens.head? = some t ∧ e.text.toList.head? = some c ∧ signChar c = t.isSign
  | 0, _, hfit, _ => absurd hfit Expr.not_fits_zero
  | _ + 1, .name n, _, hw => by
    obtain ⟨c, hn, hc⟩ := IsName.head_text (n := n) (hw (.name n) List.mem_cons_self)
    exact ⟨.name n, c, rfl, hn, hc⟩
  | _ + 1, .number v, _, hw => by
    obtain ⟨c, hx, hc⟩ := head_text_number (x := v.lexeme)
      (hw (.number v.lexeme) List.mem_cons_self)
    exact ⟨.number v.lexeme, c, rfl, hx, hc⟩
  | _ + 1, .measure v u, _, hw => by
    obtain ⟨c, hx, hc⟩ := head_text_number (x := v.lexeme)
      (hw (.number v.lexeme) List.mem_cons_self)
    exact ⟨.number v.lexeme, c, rfl, by simp [Expr.text, hx], hc⟩
  | _ + 1, .string s, _, _ => ⟨.string s, '"', rfl, by simp [Expr.text, quote], rfl⟩
  | _ + 1, .truth true, _, _ => ⟨.truth true, 't', rfl, rfl, rfl⟩
  | _ + 1, .truth false, _, _ => ⟨.truth false, 'f', rfl, rfl, rfl⟩
  | _ + 1, .property p, hfit, hw => by
    obtain ⟨n, c, htok, htext, hc⟩ := Path.head_text (p := p)
      (Nat.le_of_succ_le (Expr.fits_property.1 hfit).1) hw
    exact ⟨.name n, c, htok, htext, hc⟩
  | _ + 1, .call p as, hfit, hw => by
    simp only [Expr.tokens, List.forall_mem_append] at hw
    obtain ⟨n, c, htok, htext, hc⟩ := Path.head_text (Expr.fits_call.1 hfit).1 hw.1
    exact ⟨.name n, c, by simp [Expr.tokens, htok], by simp [Expr.text, htext], hc⟩
  | _ + 1, .binary op l r, hfit, hw => by
    obtain ⟨⟨hlfloor, -⟩, hl, -⟩ := Expr.fits_binary.1 hfit
    simp only [Expr.tokens, List.forall_mem_append] at hw
    obtain ⟨t, c, htok, htext, hc⟩ := Expr.head_text hl hw.1
    refine ⟨t, c, by simp [Expr.tokens, htok], ?_, hc⟩
    simp [Expr.text, inParens, hlfloor, htext]
  | _ + 1, .unary .not e, _, _ =>
    ⟨.keyword .not, 'n', rfl, by simp [Expr.text, UnaryOp.text], rfl⟩
  | _ + 1, .unary .neg e, _, _ =>
    ⟨.symbol .minus, '-', rfl, by simp [Expr.text, UnaryOp.text], rfl⟩
  | _ + 1, .unary .plus e, _, _ =>
    ⟨.symbol .plus, '+', rfl, by simp [Expr.text, UnaryOp.text], rfl⟩
  | _ + 1, .parens e, _, _ =>
    ⟨.symbol .leftParen, '(', rfl, by simp [Expr.text, inParens], rfl⟩

/-! ## Tokens behind statements -/

/-- The token does not close an array type. -/
def Token.NotBracket (t : Token) : Prop :=
  t ≠ .symbol .rightBracket

/-- No statement goes on with the token. -/
structure Token.Follows (t : Token) : Prop where
  endsOperand : t.endsOperand = true
  noOperator : BinaryOp.ofToken? t = none
  ne_assign : t ≠ .symbol .assign
  notBracket : t.NotBracket

namespace Token.Follows

theorem semicolon : Follows (.symbol .semicolon) :=
  ⟨rfl, rfl, by simp, by simp [NotBracket]⟩

theorem keyword {k : Keyword} (h : BinaryOp.ofToken? (.keyword k) = none) :
    Follows (.keyword k) :=
  ⟨rfl, h, by simp, by simp [NotBracket]⟩

theorem ne_leftParen {t : Token} (h : t.Follows) : t ≠ .symbol .leftParen := by
  rintro rfl
  cases h.endsOperand

theorem ne_dot {t : Token} (h : t.Follows) : t ≠ .symbol .dot := by
  rintro rfl
  cases h.endsOperand

theorem of_beginsExpr {t : Token} (h : t.beginsExpr = true) (hs : t.isSign = false) :
    t.Follows := by
  cases t with
  | keyword k => cases k <;> first
    | exact keyword rfl
    | cases h
  | symbol y => cases y <;> first
    | cases h
      done
    | cases hs
  | eof => cases h
  | unit u => cases h
  | name n => exact ⟨rfl, rfl, by simp, by simp [NotBracket]⟩
  | number x => exact ⟨rfl, rfl, by simp, by simp [NotBracket]⟩
  | string x => exact ⟨rfl, rfl, by simp, by simp [NotBracket]⟩
  | truth b => exact ⟨rfl, rfl, by simp, by simp [NotBracket]⟩

end Token.Follows

theorem beginsWithSign_eq {s : String} {c : Char} (h : s.toList.head? = some c) :
    beginsWithSign s = signChar c := by
  obtain ⟨cs, hcs⟩ := List.head?_eq_some_iff.1 h
  simp only [beginsWithSign, hcs]
  rfl

/-- A statement that needs no semicolon before it begins with a token that goes on from no
statement. -/
theorem Statement.head_follows {room : Nat} {st : Statement} (h : st.Legible room)
    (hsep : ∀ rest, needsSeparator (st :: rest) = false) :
    ∃ t ts, st.tokens = t :: ts ∧ t.Follows := by
  cases st with
  | activity mode p as n =>
    cases mode <;> exact ⟨_, _, rfl, .keyword rfl⟩
  | check c n => exact ⟨_, _, rfl, .keyword rfl⟩
  | wait c n => exact ⟨_, _, rfl, .keyword rfl⟩
  | assign n v line => exact ⟨_, _, rfl, rfl, rfl, by simp, by simp [Token.NotBracket]⟩
  | conditional branches otherwise n =>
    obtain ⟨c, body, rest, rfl⟩ := h.exists_branch
    cases otherwise <;> exact ⟨_, _, rfl, .keyword rfl⟩
  | whileLoop c body n => exact ⟨_, _, rfl, .keyword rfl⟩
  | forLoop counter e body n => exact ⟨_, _, rfl, .keyword rfl⟩
  | expr v n =>
    have hv : v.Legible room := h
    obtain ⟨t, ts, heq, ht⟩ := hv.begins
    obtain ⟨t', c, htok, htext, hsign⟩ := Expr.head_text hv.fits hv.written
    rw [heq] at htok
    cases htok
    refine ⟨t, ts, heq, .of_beginsExpr ht ?_⟩
    rw [← hsign, ← beginsWithSign_eq htext]
    exact hsep []

/-- The canonical tokens of a block put a token behind each statement that goes on from
none. -/
theorem head_separated {room : Nat} : ∀ {rest : List Statement}, Block.Legible room rest →
    ∀ t ∈ (separator rest ++ Block.tokens rest).head?, t.Follows
  | [], _ => by simp [separator, needsSeparator, Block.tokens]
  | st :: rest, h => by
    intro t ht
    unfold separator at ht
    split at ht
    · cases ht
      exact .semicolon
    · next hsep =>
      cases room with
      | zero => exact absurd h Block.not_legible_zero
      | succ room =>
        have hsep' : ∀ rest', needsSeparator (st :: rest') = false := by
          intro rest'
          cases st <;> first
            | rfl
            | simpa [needsSeparator] using hsep
        obtain ⟨t', ts, heq, hfollows⟩ := Statement.head_follows h.1 hsep'
        rw [List.nil_append, Block.tokens, heq] at ht
        cases ht
        exact hfollows

/-- A tree that begins with a name and is no name, property or call begins with one of these
and an operator. -/
theorem Expr.Spells.leftmost : ∀ {room : Nat} {e : Expr} {n : String} {ts : List Token},
    e.Spells (.name n :: ts) → e.Fits room → e.readsAsActivity = true ∨
      ∃ (l : Expr) (op : BinaryOp) (us vs : List Token), l.readsAsActivity = true ∧
        l.Fits room ∧ l.Spells us ∧ .name n :: ts = us ++ op.token :: vs
  | 0, _, _, _, _, hfit => absurd hfit Expr.not_fits_zero
  | _ + 1, .name _, _, _, _, _ => .inl rfl
  | _ + 1, .property _, _, _, _, _ => .inl rfl
  | _ + 1, .call _ _, _, _, _, _ => .inl rfl
  | _ + 1, .binary op l r, n, _, h, hfit => by
    obtain ⟨us, vs, hl, -, heq⟩ := h
    have hfitl := (Expr.fits_binary.1 hfit).2.1
    obtain ⟨t, us, rfl, -⟩ := hl.begins hfitl
    obtain ⟨rfl, rfl⟩ := List.cons.inj heq
    obtain hact | ⟨l', op', us', vs', hact, hfit', hsp, heq'⟩ := Expr.Spells.leftmost hl hfitl
    · exact .inr ⟨l, op, _, vs, hact, hfitl, hl, rfl⟩
    · refine .inr ⟨l', op', us', vs' ++ op.token :: vs, hact, hfit', hsp, ?_⟩
      show .name n :: us ++ op.token :: vs = _
      rw [heq', List.append_assoc]
      rfl
  | _ + 1, .number _, _, _, h, _ => by cases h
  | _ + 1, .measure _ _, _, _, h, _ => by cases h
  | _ + 1, .string _, _, _, h, _ => by cases h
  | _ + 1, .truth _, _, _, h, _ => by cases h
  | _ + 1, .unary op _, _, _, h, _ => by
    obtain ⟨us, -, heq⟩ := h
    cases op <;> cases heq
  | _ + 1, .parens _, _, _, h, _ => by
    obtain ⟨us, -, heq⟩ := h
    cases heq

/-! ## Reading the lines -/

theorem ActivityMode.writes (mode : ActivityMode) : Writes mode.text mode.tokens := by
  cases mode with
  | initiate => exact .keyword .initiate
  | confirm => exact .keyword .confirm
  | initiateAndConfirm =>
    exact ((Writes.keyword .initiate).spaced (.keyword .and)).spaced (.keyword .confirm)

theorem Expr.Legible.writes {room : Nat} {e : Expr} (h : e.Legible room) :
    Writes e.text e.tokens :=
  Expr.writes (Expr.fits_iff.1 h.fits).1.1 h.written

theorem Expr.Legible.head_ne_unit {room : Nat} {e : Expr} (h : e.Legible room) (x : String) :
    e.tokens.head? ≠ some (.unit x) := by
  obtain ⟨t, ts, heq, ht⟩ := h.begins
  rw [heq]
  intro hx
  cases hx
  cases ht

theorem Argument.AllLegible.writes {room : Nat} {as : List Argument}
    (h : Argument.AllLegible room as) {s : String} {ts : List Token} (hs : Writes s ts) :
    Writes (s ++ Argument.optionalText as) (ts ++ Argument.optionalTokens as) := by
  cases as with
  | nil => simpa [Argument.optionalText, Argument.optionalTokens] using hs
  | cons a as =>
    have hgroup : Argument.AllEvery Expr.GroupsAt (a :: as) :=
      ((Argument.allEvery_and _).1 (Argument.allEvery_iff.2 fun b hb => (h.fits b hb).1)).1
    have hlist := (Argument.writes_list hgroup h.written).inParens
    have hcall := hs.append_closed (c := '(') hlist (by simp) rfl
    exact hcall

section Lines

variable {l : String} {ts : List Token}

/-- A text behind a word. -/
theorem Writes.after (k : Keyword) (h : Writes l ts) :
    Writes (k.text ++ " " ++ l) (.keyword k :: ts) :=
  (Writes.keyword k).spaced h

/-- A text before a word. -/
theorem Writes.before (k : Keyword) (h : Writes l ts) :
    Writes (l ++ (" " ++ k.text)) (ts ++ [Token.keyword k]) := by
  rw [← String.append_assoc]
  exact h.spaced (.keyword k)

/-- Two texts with a word or a sign between them. -/
theorem Writes.around {l' : String} {t : Token} {ts' : List Token} (h : Writes l ts)
    (ht : Writes t.text [t]) (h' : Writes l' ts') :
    Writes (l ++ (" " ++ t.text ++ " ") ++ l') (ts ++ t :: ts') := by
  have hall := (h.spaced ht).spaced h'
  simp only [String.append_assoc, List.append_assoc] at hall ⊢
  exact hall

/-- A line that begins with a word. -/
theorem Writes.wordLine {k : Keyword} (level : Nat) (h : Writes l (.keyword k :: ts)) :
    Prints [indented level l] (.keyword k :: ts) :=
  .line level h (by simp)

/-- The line that closes a block. -/
theorem prints_end (level : Nat) (k : BlockKind) :
    Prints [indented level ("end " ++ k.text)] k.endTokens :=
  ((Writes.keyword k.closer).after .end_).wordLine level

end Lines

theorem Statement.lines_ne_nil (level : Nat) (st : Statement) : st.lines level ≠ [] := by
  cases st with
  | conditional branches otherwise n => cases otherwise <;> simp [Statement.lines]
  | _ => simp [Statement.lines]

theorem printsSeparated {ls : List String} {ts : List Token} (h : Prints ls ts) (hne : ls ≠ [])
    (rest : List Statement) :
    Prints (if needsSeparator rest then closeLast ls else ls) (ts ++ separator rest) := by
  unfold separator
  split
  · exact h.closeLast hne
  · simpa using h

mutual

/-- The lines of a statement are read as its tokens. -/
theorem Statement.prints : ∀ {room : Nat} (level : Nat) (st : Statement), st.Legible room →
    Prints (st.lines level) st.tokens
  | _, level, .activity mode p as _, ⟨hp, has⟩ => by
    have hline := has.writes (mode.writes.spaced (Path.writes hp.written))
    rw [List.append_assoc] at hline
    exact .line level hline fun x => by cases mode <;> rintro ⟨⟩
  | _, level, .check c _, ⟨hc, hact⟩ => by
    have hline := (hc.writes.after .confirm).wordLine level
    simp only [Statement.lines, inParens, hact]
    exact hline
  | _, level, .wait c _, h =>
    ((Expr.Legible.writes h).after .until_ |>.after .wait).wordLine level
  | _, level, .assign n v _, ⟨hn, hv⟩ => by
    have hline := (Writes.name hn).around (t := .symbol .assign) (.symbol .assign) hv.writes
    exact .line level hline fun x => by rintro ⟨⟩
  | _, level, .conditional branches none _, ⟨hne, hbranches⟩ =>
    (Branch.prints level .if_ branches hbranches).append (prints_end level .conditional)
  | _, level, .conditional branches (some body) _, ⟨hne, hbranches, hbody⟩ => by
    have helse := (Writes.keyword .else_).wordLine level
    have hrest := (Block.prints (level + 1) body hbody).append (prints_end level .conditional)
    have hall := (Branch.prints level .if_ branches hbranches).append (helse.append hrest)
    simp only [Statement.lines, Statement.tokens, List.append_assoc]
    exact hall
  | _, level, .whileLoop c body _, ⟨hc, hbody⟩ => by
    have hline := ((hc.writes.after .while_).before .do_).wordLine level
    have hrest := (Block.prints (level + 1) body hbody).append (prints_end level .whileLoop)
    have hall := hline.append hrest
    simp only [Statement.lines, Statement.tokens, List.append_eq, List.append_assoc,
      List.cons_append, List.nil_append] at hall ⊢
    exact hall
  | _, level, .forLoop n e body _, ⟨hn, he, hbody⟩ => by
    have hin := ((Writes.name hn).after .for_).around (t := .keyword .in_) (.keyword .in_) he.writes
    have hline := (hin.before .do_).wordLine level
    have hrest := (Block.prints (level + 1) body hbody).append (prints_end level .forLoop)
    have hall := hline.append hrest
    simp only [Statement.lines, Statement.tokens, List.append_eq, List.append_assoc,
      List.cons_append, List.nil_append] at hall ⊢
    exact hall
  | _, level, .expr v _, h =>
    .line level (Expr.Legible.writes h) (Expr.Legible.head_ne_unit h)

theorem Block.prints : ∀ {room : Nat} (level : Nat) (body : List Statement),
    Block.Legible room body → Prints (Block.lines level body) (Block.tokens body)
  | 0, _, _, h => absurd h Block.not_legible_zero
  | _ + 1, _, [], _ => .nil
  | _ + 1, level, st :: rest, ⟨hst, hrest⟩ => by
    have hfirst := printsSeparated (Statement.prints level st hst) (st.lines_ne_nil level) rest
    rw [Block.lines, Block.tokens, ← List.append_assoc]
    exact hfirst.append (Block.prints level rest hrest)

theorem Branch.prints : ∀ {room : Nat} (level : Nat) (word : Keyword) (branches : List Branch),
    Branch.AllLegible room branches →
      Prints (Branch.lines level word.text branches) (Branch.tokens word branches)
  | _, _, _, [], _ => .nil
  | _, level, word, .mk c body :: rest, ⟨hc, hbody, hrest⟩ => by
    have hline := ((hc.writes.after word).before .then_).wordLine level
    have hblock := (Block.prints (level + 1) body hbody).append
      (Branch.prints level .elsif rest hrest)
    have hall := hline.append hblock
    simp only [Branch.lines, Branch.tokens, List.append_eq, List.append_assoc, List.cons_append,
      List.nil_append] at hall ⊢
    exact hall

end

end OpsLang
