import OpsLang.Proofs.Canonical.File

/-!
# Significant tokens

Two spellings of one file differ in semicolons, in commas before what closes a list, in empty
argument lists of activities and in the spelling of array sizes. `significant` removes these
from a row of tokens, or makes them alike, looking at the tokens alone : `withoutEmptyCalls`
goes through the row with its place in the reference to an activity (`Reference`), and
`compact` looks one token ahead.

`Shows ok us ts` says that the tokens `us` contribute `ts` to any row in which they stand
outside a reference and before a token that is `ok`. It is put together along a row
(`Shows.append`), so that a spelling shows the canonical tokens (`Expr.Spells.shows`).
-/

namespace OpsLang

/-! ## Definitions -/

/-- A place in the reference to an activity. The reference is `sure` if it follows `initiate` :
behind `confirm` an operator makes it the beginning of a condition. -/
inductive Reference where
  | outside
  /-- Behind the words for what is asked. -/
  | word (sure : Bool)
  /-- Behind a segment of the name. -/
  | segment (sure : Bool)
  /-- Behind a dot of the name. -/
  | dot (sure : Bool)
  deriving DecidableEq, Repr

/-- The place behind a token. -/
def Reference.next : Reference → Token → Reference
  | _, .keyword .initiate => word true
  | word true, .keyword .and | word true, .keyword .confirm => word true
  | _, .keyword .confirm => word false
  | word sure, .name _ | dot sure, .name _ | dot sure, .unit _ => segment sure
  | segment sure, .symbol .dot => dot sure
  | _, _ => outside

/-- The row begins with a binary operator. -/
def beginsWithOperator (ts : List Token) : Bool :=
  (ts.head?.bind BinaryOp.ofToken?).isSome

/-- The row without the empty argument lists of activities. -/
def withoutEmptyCalls : Reference → List Token → List Token
  | _, [] => []
  | .segment sure, .symbol .leftParen :: .symbol .rightParen :: ts =>
    if sure || !beginsWithOperator ts then withoutEmptyCalls .outside ts
    else .symbol .leftParen :: .symbol .rightParen :: withoutEmptyCalls .outside ts
  | r, t :: ts => t :: withoutEmptyCalls (r.next t) ts

/-- The decimal spelling of the same array size. -/
def decimalSize (lexeme : String) : String :=
  match (Numeral.ofLexeme lexeme).toUInt64? with
  | some n => toString n.toNat
  | none => lexeme

/-- What is left of a token before `next`. -/
def Token.kept (next : Option Token) : Token → List Token
  | .symbol .semicolon => []
  | .symbol .comma =>
    if next = some (.symbol .rightParen) ∨ next = some (.symbol .rightBrace) then []
    else [.symbol .comma]
  | .number x =>
    if next = some (.symbol .rightBracket) then [.number (decimalSize x)] else [.number x]
  | t => [t]

/-- The row without semicolons and without commas that close a list, with array sizes as
decimals. -/
def compact : List Token → List Token
  | [] => []
  | t :: ts => t.kept ts.head? ++ compact ts

/-- The row without its optional tokens, and with array sizes as decimals. -/
def significant (ts : List Token) : List Token :=
  compact (withoutEmptyCalls .outside ts)

/-- `initiate a.b(); confirm f() == g(x,)`. -/
example :
    significant [.keyword .initiate, .name "a", .symbol .dot, .name "b", .symbol .leftParen,
      .symbol .rightParen, .symbol .semicolon, .keyword .confirm, .name "f", .symbol .leftParen,
      .symbol .rightParen, .symbol .equal, .name "g", .symbol .leftParen, .name "x",
      .symbol .comma, .symbol .rightParen] =
    [.keyword .initiate, .name "a", .symbol .dot, .name "b", .keyword .confirm, .name "f",
      .symbol .leftParen, .symbol .rightParen, .symbol .equal, .name "g", .symbol .leftParen,
      .name "x", .symbol .rightParen] := by
  decide

/-! ## One token -/

/-- The token begins the reference to an activity. -/
def Token.isVerb (t : Token) : Bool :=
  t = .keyword .initiate || t = .keyword .confirm

/-- The token is significant wherever it stands. -/
def Token.isPlain : Token → Bool
  | .keyword .initiate | .keyword .confirm | .symbol .semicolon | .symbol .comma
  | .number _ => false
  | _ => true

theorem Token.kept_of_isPlain {t : Token} (h : t.isPlain = true) (next : Option Token) :
    t.kept next = [t] := by
  unfold kept
  split <;> first
    | rfl
    | cases h

theorem Token.not_isVerb_of_isPlain {t : Token} (h : t.isPlain = true) : t.isVerb = false := by
  simp only [isVerb, Bool.or_eq_false_iff, decide_eq_false_iff_not]
  constructor <;> rintro rfl <;> cases h

section Rows

variable {t : Token} {ts us vs : List Token} {sure : Bool}

theorem withoutEmptyCalls_outside (t : Token) (ts : List Token) :
    withoutEmptyCalls .outside (t :: ts) =
      t :: withoutEmptyCalls (Reference.next .outside t) ts := by
  rw [withoutEmptyCalls]
  rintro _ _ ⟨⟩

theorem withoutEmptyCalls_word (t : Token) (ts : List Token) :
    withoutEmptyCalls (.word sure) (t :: ts) =
      t :: withoutEmptyCalls (Reference.next (.word sure) t) ts := by
  rw [withoutEmptyCalls]
  rintro _ _ ⟨⟩

theorem withoutEmptyCalls_dot (t : Token) (ts : List Token) :
    withoutEmptyCalls (.dot sure) (t :: ts) =
      t :: withoutEmptyCalls (Reference.next (.dot sure) t) ts := by
  rw [withoutEmptyCalls]
  rintro _ _ ⟨⟩

theorem withoutEmptyCalls_segment (h : t ≠ .symbol .leftParen) (ts : List Token) :
    withoutEmptyCalls (.segment sure) (t :: ts) =
      t :: withoutEmptyCalls (Reference.next (.segment sure) t) ts := by
  rw [withoutEmptyCalls]
  rintro _ _ _ rfl
  exact absurd rfl h

theorem head_withoutEmptyCalls (ts : List Token) :
    (withoutEmptyCalls .outside ts).head? = ts.head? := by
  cases ts with
  | nil => rfl
  | cons t ts => rw [withoutEmptyCalls_outside, List.head?_cons, List.head?_cons]

theorem next_outside (h : t.isVerb = false) : Reference.next .outside t = .outside := by
  simp only [Token.isVerb, Bool.or_eq_false_iff, decide_eq_false_iff_not] at h
  unfold Reference.next
  split <;> first
    | rfl
    | simp_all

theorem significant_cons (h : t.isVerb = false) (ts : List Token) :
    significant (t :: ts) = t.kept ts.head? ++ significant ts := by
  rw [significant, withoutEmptyCalls_outside, next_outside h, compact, head_withoutEmptyCalls]
  rfl

theorem significant_cons_of_isPlain (h : t.isPlain = true) (ts : List Token) :
    significant (t :: ts) = t :: significant ts := by
  rw [significant_cons (Token.not_isVerb_of_isPlain h), Token.kept_of_isPlain h]
  rfl

theorem significant_semicolon (ts : List Token) :
    significant (.symbol .semicolon :: ts) = significant ts := by
  rw [significant_cons rfl]
  rfl

end Rows

/-! ## Rows of tokens -/

/-- Before a token that is `ok`, the tokens `us` come to `ts`. -/
def Shows (ok : Token → Prop) (us ts : List Token) : Prop :=
  ∀ t rest, ok t → significant (us ++ t :: rest) = ts ++ significant (t :: rest)

namespace Shows

variable {ok ok' : Token → Prop} {t : Token} {us us' ts ts' : List Token}

theorem nil : Shows ok [] [] :=
  fun _ _ _ => rfl

theorem mono (h : Shows ok us ts) (hok : ∀ t, ok' t → ok t) : Shows ok' us ts :=
  fun t rest ht => h t rest (hok t ht)

theorem cons (ht : t.isPlain = true) (h : Shows ok us ts) : Shows ok (t :: us) (t :: ts) := by
  intro u rest hu
  rw [List.cons_append, significant_cons_of_isPlain ht, h u rest hu]
  rfl

theorem semicolon (h : Shows ok us ts) : Shows ok (.symbol .semicolon :: us) ts := by
  intro u rest hu
  rw [List.cons_append, significant_semicolon, h u rest hu]

theorem of_isPlain : ∀ {us : List Token}, (∀ u ∈ us, u.isPlain = true) → Shows ok us us
  | [], _ => nil
  | _ :: _, h => (of_isPlain (List.forall_mem_cons.1 h).2).cons (List.forall_mem_cons.1 h).1

theorem number {x : String} : Shows Token.NotBracket [.number x] [.number x] := by
  intro u rest hu
  have hnext : u ≠ .symbol .rightBracket := hu
  rw [List.singleton_append, significant_cons rfl]
  simp [Token.kept, hnext]

/-- A comma is not significant before what closes a list. -/
theorem lastComma : Shows (fun t => t = .symbol .rightParen ∨ t = .symbol .rightBrace)
    [.symbol .comma] [] := by
  intro u rest hu
  rw [List.singleton_append, significant_cons rfl]
  simp [Token.kept, hu]

/-- A comma is significant before anything else. -/
theorem comma (h : Shows ok (t :: us) ts) (ht : t ≠ .symbol .rightParen ∧ t ≠ .symbol .rightBrace) :
    Shows ok (.symbol .comma :: t :: us) (.symbol .comma :: ts) := by
  intro u rest hu
  rw [List.cons_append, significant_cons rfl, h u rest hu]
  simp [Token.kept, ht]

theorem append (h : Shows ok us ts) (h' : Shows ok' us' ts') (hhead : ∀ t ∈ us'.head?, ok t)
    (hnil : us' = [] → ∀ t, ok' t → ok t) : Shows ok' (us ++ us') (ts ++ ts') := by
  intro u rest hu
  rw [List.append_assoc]
  cases us' with
  | nil =>
    have hts' := h' u rest hu
    rw [List.nil_append] at hts' ⊢
    rw [h u rest (hnil rfl u hu), List.append_assoc, ← hts']
  | cons u' us' =>
    rw [List.cons_append, h u' _ (hhead u' rfl), ← List.cons_append, h' u rest hu,
      List.append_assoc]

/-- The tokens behind begin with a token that is `ok`. -/
theorem append_cons (h : Shows ok us ts) (h' : Shows ok' (t :: us') ts') (ht : ok t) :
    Shows ok' (us ++ t :: us') (ts ++ ts') := by
  refine h.append h' ?_ fun hnil => by cases hnil
  rintro u ⟨⟩
  exact ht

end Shows

/-! ## Expressions -/

theorem BinaryOp.isPlain_token (op : BinaryOp) : op.token.isPlain = true := by
  cases op <;> rfl

theorem UnaryOp.isPlain_token (op : UnaryOp) : op.token.isPlain = true := by
  cases op <;> rfl

theorem BinaryOp.notBracket_token (op : BinaryOp) : op.token.NotBracket := by
  cases op <;> rintro ⟨⟩

theorem Token.notBracket_of_beginsExpr {t : Token} (h : t.beginsExpr = true) : t.NotBracket := by
  rintro rfl
  cases h

theorem isPlain_memberTokens : ∀ {ns : List String}, ∀ t ∈ memberTokens ns, t.isPlain = true
  | [] => by simp [memberTokens]
  | n :: ns => by
    have hmember : (Token.member n).isPlain = true := by
      unfold Token.member
      split <;> rfl
    simp only [memberTokens, List.forall_mem_cons]
    exact ⟨rfl, hmember, isPlain_memberTokens⟩

theorem Path.isPlain_tokens (p : Path) : ∀ t ∈ p.tokens, t.isPlain = true := by
  obtain ⟨_ | ⟨n, ns⟩⟩ := p
  · simp [Path.tokens]
  · exact List.forall_mem_cons.2 ⟨rfl, isPlain_memberTokens⟩

theorem Path.Spells.shows {p : Path} {ok : Token → Prop} {us : List Token} (h : p.Spells us)
    (hw : ∀ t ∈ us, t.Written) : Shows ok us p.tokens := by
  obtain rfl := h.eq_tokens hw
  exact .of_isPlain p.isPlain_tokens

mutual

/-- A spelling of an expression shows its canonical tokens. -/
theorem Expr.Spells.shows : ∀ {room : Nat} {e : Expr} {us : List Token}, e.Spells us →
    e.Fits room → (∀ t ∈ us, t.Written) → Shows Token.NotBracket us e.tokens
  | 0, _, _, _, hfit, _ => absurd hfit Expr.not_fits_zero
  | _ + 1, .name n, _, h, _, _ => by
    obtain rfl := h
    exact .of_isPlain (by simp [Token.isPlain])
  | _ + 1, .number v, _, h, _, _ => by
    obtain rfl := h
    exact .number
  | _ + 1, .measure v u, _, h, _, _ => by
    obtain rfl := h
    exact Shows.number.append_cons (.of_isPlain (by simp [Token.isPlain]))
      (by simp [Token.NotBracket])
  | _ + 1, .string s, _, h, _, _ => by
    obtain rfl := h
    exact .of_isPlain (by simp [Token.isPlain])
  | _ + 1, .truth b, _, h, _, _ => by
    obtain rfl := h
    exact .of_isPlain (by simp [Token.isPlain])
  | _ + 1, .property p, _, h, _, hw => Path.Spells.shows (p := p) h hw
  | _ + 1, .call p as, _, h, hfit, hw => by
    obtain ⟨us, vs, hp, has, rfl⟩ := h
    simp only [List.forall_mem_append, List.forall_mem_cons] at hw
    obtain ⟨hus, -, hvs, -⟩ := hw
    have hname : Shows (fun _ => True) us p.tokens := hp.shows hus
    have hlist : Shows Token.NotBracket (vs ++ [Token.symbol .rightParen])
        (Argument.allTokens as ++ [Token.symbol .rightParen]) :=
      Argument.AllSpell.shows_closed has (Expr.fits_call.1 hfit).2 hvs
    exact hname.append_cons (hlist.cons rfl) trivial
  | _ + 1, .binary op l r, _, h, hfit, hw => by
    obtain ⟨us, vs, hl, hr, rfl⟩ := h
    simp only [List.forall_mem_append, List.forall_mem_cons] at hw
    obtain ⟨-, hfitl, hfitr⟩ := Expr.fits_binary.1 hfit
    exact (hl.shows hfitl hw.1).append_cons ((hr.shows hfitr hw.2.2).cons op.isPlain_token)
      op.notBracket_token
  | _ + 1, .unary op e, _, h, hfit, hw => by
    obtain ⟨us, he, rfl⟩ := h
    exact (he.shows (Expr.fits_unary.1 hfit).2 (List.forall_mem_cons.1 hw).2).cons op.isPlain_token
  | _ + 1, .parens e, _, h, hfit, hw => by
    obtain ⟨us, he, rfl⟩ := h
    simp only [List.forall_mem_append, List.forall_mem_cons] at hw
    have hclose : Shows Token.NotBracket [.symbol .rightParen] [.symbol .rightParen] :=
      .of_isPlain (by simp [Token.isPlain])
    exact ((he.shows (Expr.fits_parens.1 hfit) hw.2.1).append_cons hclose
      (by simp [Token.NotBracket])).cons rfl

theorem Argument.Spells.shows : ∀ {room : Nat} {a : Argument} {us : List Token}, a.Spells us →
    a.Fits room → (∀ t ∈ us, t.Written) → Shows Token.NotBracket us a.tokens
  | _, .positional v, _, h, hfit, hw =>
    Expr.Spells.shows (e := v) h (Argument.fits_positional.1 hfit) hw
  | _, .named n v, _, h, hfit, hw => by
    obtain ⟨us, hv, rfl⟩ := h
    simp only [List.forall_mem_cons] at hw
    exact ((hv.shows (Argument.fits_named.1 hfit) hw.2.2).cons rfl).cons rfl

/-- A spelling of arguments, with the parenthesis behind it. -/
theorem Argument.AllSpell.shows_closed : ∀ {room : Nat} {as : List Argument} {us : List Token}
    {ok : Token → Prop}, Argument.AllSpell as us → (∀ a ∈ as, a.Fits room) →
      (∀ t ∈ us, t.Written) → Shows ok (us ++ [Token.symbol .rightParen])
        (Argument.allTokens as ++ [Token.symbol .rightParen])
  | _, [], _, _, h, _, _ => by
    obtain rfl := h
    exact .of_isPlain (by simp [Token.isPlain])
  | _, a :: as, _, ok, h, hfits, hw => by
    obtain ⟨us, vs, ha, rfl, hrest⟩ := h
    obtain ⟨hus, hvs⟩ := List.forall_mem_append.1 hw
    obtain ⟨hfit, hfits⟩ := List.forall_mem_cons.1 hfits
    have hfirst := ha.shows hfit hus
    have hclose : ∀ ok, Shows ok [.symbol .rightParen] [.symbol .rightParen] :=
      fun _ => .of_isPlain (by simp [Token.isPlain])
    rw [Argument.allTokens, List.append_assoc, List.append_assoc]
    obtain ⟨rfl, rfl⟩ | ⟨ws, hws, rfl⟩ := hrest
    · exact hfirst.append_cons (hclose _) (by simp [Token.NotBracket])
    · have hws' := List.forall_mem_cons.1 hvs
      refine hfirst.append_cons ?_ (by simp [Token.NotBracket])
      cases as with
      | nil =>
        obtain rfl := hws
        exact Shows.lastComma.append_cons (hclose _) (.inl rfl)
      | cons b as =>
        have hlist : Shows ok (ws ++ [Token.symbol .rightParen])
            (Argument.allTokens (b :: as) ++ [Token.symbol .rightParen]) :=
          Argument.AllSpell.shows_closed hws hfits hws'.2
        obtain ⟨t, ws', heq, ht⟩ := hws.begins hfits
        rw [heq] at hlist ⊢
        refine hlist.comma ⟨?_, ?_⟩ <;> rintro rfl <;> cases ht

end

/-! ## Activities -/

section Activities

variable {sure : Bool} {us rest : List Token}

/-- `initiate` takes an activity whatever follows it. -/
def ActivityMode.isSure : ActivityMode → Bool
  | confirm => false
  | initiate | initiateAndConfirm => true

/-- Outside and behind the segments of a name the same is left, if neither an argument list
nor a dot follows. -/
theorem withoutEmptyCalls_segment_eq {t : Token} (hparen : t ≠ .symbol .leftParen)
    (hdot : t ≠ .symbol .dot) (ts : List Token) :
    withoutEmptyCalls (.segment sure) (t :: ts) = withoutEmptyCalls .outside (t :: ts) := by
  have hnext : Reference.next (.segment sure) t = Reference.next .outside t := by
    cases t with
    | keyword k => cases k <;> rfl
    | symbol y => cases y <;> first
      | rfl
      | exact absurd rfl hdot
    | _ => rfl
  rw [withoutEmptyCalls_segment hparen, hnext, withoutEmptyCalls_outside]

theorem withoutEmptyCalls_open {t : Token} (ht : t ≠ .symbol .rightParen) (ts : List Token) :
    withoutEmptyCalls (.segment sure) (.symbol .leftParen :: t :: ts) =
      .symbol .leftParen :: withoutEmptyCalls .outside (t :: ts) := by
  rw [withoutEmptyCalls]
  · rfl
  · rintro _ _ _ - heq
    exact ht (List.cons.inj heq).1

theorem withoutEmptyCalls_mode (mode : ActivityMode) (rest : List Token) :
    withoutEmptyCalls .outside (mode.tokens ++ rest) =
      mode.tokens ++ withoutEmptyCalls (.word mode.isSure) rest := by
  cases mode <;>
    simp only [ActivityMode.tokens, List.cons_append, List.nil_append,
      withoutEmptyCalls_outside] <;> rfl

theorem withoutEmptyCalls_members : ∀ (ns : List String) (rest : List Token),
    withoutEmptyCalls (.segment sure) (memberTokens ns ++ rest) =
      memberTokens ns ++ withoutEmptyCalls (.segment sure) rest
  | [], _ => rfl
  | n :: ns, rest => by
    have hmember : Reference.next (.dot sure) (.member n) = .segment sure := by
      unfold Token.member
      split <;> rfl
    rw [memberTokens, List.cons_append, List.cons_append, withoutEmptyCalls_segment (by simp),
      Reference.next, withoutEmptyCalls_dot, hmember, withoutEmptyCalls_members ns]
    rfl

theorem withoutEmptyCalls_path {p : Path} (hp : p.segments ≠ []) (rest : List Token) :
    withoutEmptyCalls (.word sure) (p.tokens ++ rest) =
      p.tokens ++ withoutEmptyCalls (.segment sure) rest := by
  obtain ⟨_ | ⟨n, ns⟩⟩ := p
  · exact absurd rfl hp
  · show withoutEmptyCalls (.word sure) (.name n :: (memberTokens ns ++ rest)) = _
    rw [withoutEmptyCalls_word]
    exact congrArg (Token.name n :: ·) (withoutEmptyCalls_members ns rest)

theorem compact_append_of_kept (h : ∀ u ∈ us, ∀ next, u.kept next = [u]) (rest : List Token) :
    compact (us ++ rest) = us ++ compact rest := by
  induction us with
  | nil => rfl
  | cons u us ih =>
    obtain ⟨hu, hus⟩ := List.forall_mem_cons.1 h
    rw [List.cons_append, compact, hu, ih hus]
    rfl

/-- What comes of the reference to an activity, up to its arguments. -/
theorem significant_reference (mode : ActivityMode) {p : Path} (hp : p.segments ≠ [])
    (rest : List Token) :
    significant (mode.tokens ++ (p.tokens ++ rest)) =
      mode.tokens ++ (p.tokens ++ compact (withoutEmptyCalls (.segment mode.isSure) rest)) := by
  have hmode : ∀ u ∈ mode.tokens, ∀ next, u.kept next = [u] := by
    cases mode <;> simp [ActivityMode.tokens, Token.kept]
  have hpath : ∀ u ∈ p.tokens, ∀ next, u.kept next = [u] :=
    fun u hu => Token.kept_of_isPlain (p.isPlain_tokens u hu)
  rw [significant, withoutEmptyCalls_mode, withoutEmptyCalls_path hp,
    compact_append_of_kept hmode, compact_append_of_kept hpath]

/-- No argument list follows the name of the activity. -/
theorem shows_reference (mode : ActivityMode) {p : Path} (hp : p.segments ≠ []) :
    Shows (fun t => t ≠ .symbol .leftParen ∧ t ≠ .symbol .dot) (mode.tokens ++ p.tokens)
      (mode.tokens ++ p.tokens) := by
  rintro u rest ⟨hparen, hdot⟩
  rw [List.append_assoc, significant_reference mode hp, withoutEmptyCalls_segment_eq hparen hdot,
    List.append_assoc]
  rfl

/-- An empty argument list follows the name of the activity. -/
theorem shows_emptyCall (mode : ActivityMode) {p : Path} (hp : p.segments ≠ []) :
    Shows (fun t => mode = .confirm → BinaryOp.ofToken? t = none)
      (mode.tokens ++ (p.tokens ++ [Token.symbol .leftParen, .symbol .rightParen]))
      (mode.tokens ++ p.tokens) := by
  intro u rest hu
  have hsure : (mode.isSure || !beginsWithOperator (u :: rest)) = true := by
    cases mode with
    | confirm => simp [beginsWithOperator, hu rfl]
    | initiate => rfl
    | initiateAndConfirm => rfl
  have hdrop : withoutEmptyCalls (.segment mode.isSure)
      (.symbol .leftParen :: .symbol .rightParen :: u :: rest) =
        withoutEmptyCalls .outside (u :: rest) := by
    rw [withoutEmptyCalls, if_pos hsure]
  simp only [List.append_assoc, List.cons_append, List.nil_append]
  rw [significant_reference mode hp, hdrop]
  rfl

/-- Arguments follow the name of the activity. -/
theorem shows_call {room : Nat} {ok : Token → Prop} (mode : ActivityMode) {p : Path}
    (hp : p.segments ≠ []) {a : Argument} {as : List Argument} (h : Argument.AllSpell (a :: as) us)
    (hfits : ∀ b ∈ a :: as, b.Fits room) (hw : ∀ t ∈ us, t.Written) :
    Shows ok (mode.tokens ++ (p.tokens ++ .symbol .leftParen :: (us ++ [Token.symbol .rightParen])))
      (mode.tokens ++ (p.tokens ++ Argument.optionalTokens (a :: as))) := by
  intro u rest hu
  have hclosed : Shows ok (us ++ [Token.symbol .rightParen])
      (Argument.allTokens (a :: as) ++ [Token.symbol .rightParen]) := h.shows_closed hfits hw
  have hlist := hclosed u rest hu
  obtain ⟨t, us', rfl, ht⟩ := h.begins hfits
  have hclose : t ≠ .symbol .rightParen := by
    rintro rfl
    cases ht
  simp only [List.append_assoc, List.cons_append, List.nil_append] at hlist ⊢
  rw [significant_reference mode hp, withoutEmptyCalls_open hclose, compact,
    Token.kept_of_isPlain rfl]
  have hopt : Argument.optionalTokens (a :: as) =
      .symbol .leftParen :: (Argument.allTokens (a :: as) ++ [Token.symbol .rightParen]) := rfl
  rw [significant] at hlist
  rw [hlist, hopt]
  simp only [List.append_assoc, List.cons_append, List.nil_append]

end Activities

/-! ## Conditions behind `confirm` -/

section Conditions

variable {us rest : List Token}

theorem withoutEmptyCalls_outside_append (h : ∀ u ∈ us, u.isPlain = true) (rest : List Token) :
    withoutEmptyCalls .outside (us ++ rest) = us ++ withoutEmptyCalls .outside rest := by
  induction us with
  | nil => rfl
  | cons u us ih =>
    obtain ⟨hu, hus⟩ := List.forall_mem_cons.1 h
    rw [List.cons_append, withoutEmptyCalls_outside, next_outside (Token.not_isVerb_of_isPlain hu),
      ih hus]
    rfl

theorem BinaryOp.token_ne (op : BinaryOp) :
    op.token ≠ .symbol .leftParen ∧ op.token ≠ .symbol .dot := by
  cases op <;> simp [token]

/-- No arguments are dropped from a name, a property or a call before an operator. -/
theorem withoutEmptyCalls_operand {room : Nat} {e : Expr} (he : e.readsAsActivity = true)
    (hfit : e.Fits room) (h : e.Spells us) (hw : ∀ t ∈ us, t.Written) (op : BinaryOp)
    (rest : List Token) :
    withoutEmptyCalls (.word false) (us ++ op.token :: rest) =
      withoutEmptyCalls .outside (us ++ op.token :: rest) := by
  obtain ⟨hparen, hdot⟩ := op.token_ne
  have hpath : ∀ {p : Path} {vs : List Token}, p.segments ≠ [] → p.Spells vs →
      (∀ t ∈ vs, t.Written) → withoutEmptyCalls (.word false) (vs ++ op.token :: rest) =
        withoutEmptyCalls .outside (vs ++ op.token :: rest) := by
    intro p vs hp hsp hw
    obtain rfl := hsp.eq_tokens hw
    rw [withoutEmptyCalls_path hp, withoutEmptyCalls_outside_append p.isPlain_tokens,
      withoutEmptyCalls_segment_eq hparen hdot]
  cases room with
  | zero => exact absurd hfit Expr.not_fits_zero
  | succ room =>
    cases e with
    | name n => exact hpath (p := .single n) (by simp [Path.single]) ⟨[], rfl, h⟩ hw
    | property p =>
      have hlen := (Expr.fits_property.1 hfit).1
      exact hpath (p := p) (fun hnil => by simp [hnil] at hlen) h hw
    | call p as =>
      obtain ⟨vs, ws, hsp, has, rfl⟩ := h
      obtain ⟨hp, hfits⟩ := Expr.fits_call.1 hfit
      simp only [List.forall_mem_append] at hw
      obtain rfl := hsp.eq_tokens hw.1
      rw [List.append_assoc, withoutEmptyCalls_path (List.length_pos_iff.1 hp),
        withoutEmptyCalls_outside_append p.isPlain_tokens]
      cases as with
      | nil =>
        obtain rfl := has
        have hop : beginsWithOperator (op.token :: rest) = true := by simp [beginsWithOperator]
        show _ ++ withoutEmptyCalls (.segment false)
          (.symbol .leftParen :: .symbol .rightParen :: op.token :: rest) = _
        rw [withoutEmptyCalls, if_neg (by simp [hop])]
        rfl
      | cons a as =>
        obtain ⟨t, ws', rfl, ht⟩ := has.begins hfits
        have hclose : t ≠ .symbol .rightParen := by
          rintro rfl
          cases ht
        simp only [List.append_assoc, List.cons_append]
        rw [withoutEmptyCalls_open hclose, withoutEmptyCalls_outside (.symbol .leftParen)]
        rfl
    | _ => cases he

theorem next_word {t : Token} (hname : ∀ n, t ≠ .name n) :
    Reference.next (.word false) t = Reference.next .outside t := by
  cases t with
  | keyword k => cases k <;> rfl
  | symbol y => cases y <;> rfl
  | name n => exact absurd rfl (hname n)
  | _ => rfl

/-- A condition that does not read as an activity keeps its argument lists behind
`confirm`. -/
theorem shows_condition {room : Nat} {c : Expr} (h : c.Spells us) (hfit : c.Fits room)
    (hact : c.readsAsActivity = false) (hw : ∀ t ∈ us, t.Written) :
    Shows Token.NotBracket (.keyword .confirm :: us) (.keyword .confirm :: c.tokens) := by
  intro u rest hu
  have hsame : withoutEmptyCalls (.word false) (us ++ u :: rest) =
      withoutEmptyCalls .outside (us ++ u :: rest) := by
    obtain ⟨t, us', rfl, -⟩ := h.begins hfit
    by_cases hname : ∃ n, t = .name n
    · obtain ⟨n, rfl⟩ := hname
      obtain hact' | ⟨l, op, vs, ws, hl, hlfit, hlsp, heq⟩ := Expr.Spells.leftmost h hfit
      · rw [hact] at hact'
        cases hact'
      · rw [heq] at hw ⊢
        rw [List.append_assoc]
        exact withoutEmptyCalls_operand hl hlfit hlsp (List.forall_mem_append.1 hw).1 op _
    · rw [List.cons_append, withoutEmptyCalls_word, withoutEmptyCalls_outside,
        next_word fun n hn => hname ⟨n, hn⟩]
  have hshown := h.shows hfit hw u rest hu
  show compact (withoutEmptyCalls .outside (.keyword .confirm :: (us ++ u :: rest))) = _
  rw [withoutEmptyCalls_outside]
  show Token.keyword .confirm :: compact (withoutEmptyCalls (.word false) (us ++ u :: rest)) = _
  rw [hsame]
  exact congrArg (Token.keyword .confirm :: ·) hshown

end Conditions

end OpsLang
