import OpsLang.Proofs.Highlighting.Mentions
import OpsLang.Proofs.Spelling.Statement

/-!
# Names of expressions and what stands around them

The category of a segment of a dotted name depends on what stands around the whole name, and on
whether the segment is the first and the last one (`nameCategory_eq`). So the names of a row are
shown part by part, each between the tokens before it, nearest first, and those behind it
(`showings`).

Where an expression begins, the tokens before it give a name no role of its own (`Plain`), and
what an expression leaves behind is again such a place (`Expr.Spells.plain`). Only behind
`confirm` a name could be an activity. There the tree tells that an operator follows, which is
handed down to the leftmost operand (`Expr.Spells.shown`).
-/

namespace OpsLang

open Highlight

/-! ## Parts of a row -/

/-- The names of a part of a row, between the tokens before it and those behind it. -/
def showings (before : List Token) : List Token → List Token → List Shown
  | [], _ => []
  | t :: us, after =>
    if isSegment t then
      ⟨t.text, tokenCategory before t (us ++ after), operatorBehind (us ++ after)⟩ ::
        showings (t :: before) us after
    else showings (t :: before) us after

section Showings

variable {before us vs after : List Token} {t : Token}

@[simp]
theorem showings_nil : showings before [] after = [] := rfl

theorem showings_cons (h : isSegment t = true) : showings before (t :: us) after =
    ⟨t.text, tokenCategory before t (us ++ after), operatorBehind (us ++ after)⟩ ::
      showings (t :: before) us after := by
  rw [showings, if_pos h]

theorem showings_cons_of_not (h : isSegment t = false) :
    showings before (t :: us) after = showings (t :: before) us after := by
  rw [showings, if_neg (by simp [h])]

theorem showings_append :
    showings before (us ++ vs) after =
      showings before us (vs ++ after) ++ showings (us.reverse ++ before) vs after := by
  induction us generalizing before with
  | nil => rfl
  | cons t us ih =>
    rw [List.cons_append, List.reverse_cons, List.append_assoc]
    by_cases h : isSegment t = true
    · rw [showings_cons h, showings_cons h, ih, List.append_assoc]
      rfl
    · rw [Bool.not_eq_true] at h
      rw [showings_cons_of_not h, showings_cons_of_not h, ih]
      rfl

/-- A part without names shows none. -/
theorem showings_eq_nil (h : ∀ t ∈ us, isSegment t = false) : showings before us after = [] := by
  induction us generalizing before with
  | nil => rfl
  | cons t us ih =>
    obtain ⟨ht, hus⟩ := List.forall_mem_cons.1 h
    rw [showings_cons_of_not ht, ih hus]

/-- A part without names at the end shows nothing more. -/
theorem showings_append_of_not (h : ∀ t ∈ vs, isSegment t = false) :
    showings before (us ++ vs) after = showings before us (vs ++ after) := by
  rw [showings_append, showings_eq_nil h, List.append_nil]

end Showings

/-! ## Segments of dotted names -/

/-- The category of a segment of a dotted name between `start` and `stop`. -/
def segmentCategory (start stop : List Token) (first last : Bool) : Category :=
  match declared? start with
  | some c => c
  | none =>
    if last && startsWith (.symbol .colon) stop then .field
    else if inTypePosition start then .type
    else if last && (isActivity start stop || startsWith (.symbol .leftParen) stop) then .function
    else if isActivity start stop then .namespaceName
    else if first then .variableName
    else .property

theorem beyondPath_of_not_inPath {ts : List Token} (h : inPath ts = false) :
    beyondPath ts = ts := by
  unfold beyondPath
  split
  · next t rest =>
    rw [if_neg]
    simpa [inPath] using h
  · rfl

theorem inPath_of_head {ts : List Token} (h : ts.head? ≠ some (.symbol .dot)) :
    inPath ts = false := by
  unfold inPath
  split
  · exact absurd rfl h
  · rfl

theorem beyondPath_of_head {ts : List Token} (h : ts.head? ≠ some (.symbol .dot)) :
    beyondPath ts = ts :=
  beyondPath_of_not_inPath (inPath_of_head h)

theorem beyondPath_segment {t : Token} (ht : isSegment t = true) (ts : List Token) :
    beyondPath (.symbol .dot :: t :: ts) = beyondPath ts := by
  rw [beyondPath, if_pos ht]

/-- What is said of a segment depends on what stands around its whole name. -/
theorem nameCategory_eq (before after : List Token) :
    nameCategory before after =
      segmentCategory (beyondPath before) (beyondPath after) (!inPath before) (!inPath after) := by
  have hcolon : startsWith (.symbol .colon) after =
      (!inPath after && startsWith (.symbol .colon) (beyondPath after)) := by
    cases hpath : inPath after with
    | false => rw [beyondPath_of_not_inPath hpath]; rfl
    | true =>
      have hhead : after.head? = some (.symbol .dot) := by
        by_contra h
        rw [inPath_of_head h] at hpath
        cases hpath
      simp [startsWith, hhead]
  unfold nameCategory segmentCategory
  generalize startsWith (.symbol .colon) after = colon at hcolon ⊢
  subst hcolon
  rfl

/-- Where nothing is declared, no segment is the name of a procedure or a unit. -/
theorem segmentCategory_ne {start : List Token} (h : declared? start = none) (stop : List Token)
    (first last : Bool) : segmentCategory start stop first last ≠ .procedureName ∧
      segmentCategory start stop first last ≠ .unit := by
  unfold segmentCategory
  rw [h]
  simp only
  split_ifs <;> simp

section Segments

variable {n : String} {ns : List String} {t : Token} {ts before after : List Token}

theorem isSegment_of_isMember (h : t.IsMember n) : isSegment t = true := by
  rcases h with rfl | ⟨rfl, -⟩ <;> rfl

theorem text_of_isMember (h : t.IsMember n) : t.text = n := by
  rcases h with rfl | ⟨rfl, -⟩ <;> rfl

theorem tokenCategory_member (h : t.IsMember n) (us after : List Token) :
    tokenCategory (.symbol .dot :: us) t after = nameCategory (.symbol .dot :: us) after := by
  rcases h with rfl | ⟨rfl, -⟩ <;> rfl

theorem MembersSpell.beyondPath_append : ∀ {ns : List String} {ts : List Token},
    MembersSpell ns ts → after.head? ≠ some (.symbol .dot) → beyondPath (ts ++ after) = after
  | [], _, h, ha => by
    obtain rfl := h
    exact beyondPath_of_head ha
  | n :: ns, _, h, ha => by
    obtain ⟨t, us, ht, hns, rfl⟩ := h
    rw [List.cons_append, List.cons_append, beyondPath_segment (isSegment_of_isMember ht)]
    exact hns.beyondPath_append ha

theorem MembersSpell.inPath_append (h : MembersSpell ns ts)
    (ha : after.head? ≠ some (.symbol .dot)) : inPath (ts ++ after) = !ns.isEmpty := by
  cases ns with
  | nil =>
    obtain rfl := h
    exact inPath_of_head ha
  | cons n ns =>
    obtain ⟨t, us, ht, -, rfl⟩ := h
    exact isSegment_of_isMember ht

theorem operatorBehind_members (h : MembersSpell ns ts)
    (ha : after.head? ≠ some (.symbol .dot)) :
    operatorBehind (ts ++ after) = operatorBehind after := by
  rw [operatorBehind, operatorBehind, h.beyondPath_append ha, beyondPath_of_head ha]

/-- The segments of a dotted name between `start` and `stop`, given whether the first of them
begins it. -/
def shownSegments (start stop : List Token) (first : Bool) : List String → List Shown
  | [] => []
  | n :: ns =>
    ⟨n, segmentCategory start stop first ns.isEmpty, operatorBehind stop⟩ ::
      shownSegments start stop false ns

/-- The segments behind the first one see the same tokens around their name. -/
theorem MembersSpell.showings_eq : ∀ {ns : List String} {ts : List Token} {t : Token}
    {us start : List Token}, MembersSpell ns ts → isSegment t = true → beyondPath us = start →
      after.head? ≠ some (.symbol .dot) →
        showings (t :: us) ts after = shownSegments start after false ns
  | [], _, _, _, _, h, _, _, _ => by
    obtain rfl := h
    rfl
  | n :: ns, _, t, us, start, h, ht, hstart, ha => by
    obtain ⟨u, vs, hu, hns, rfl⟩ := h
    have hbefore : beyondPath (.symbol .dot :: t :: us) = start := by
      rw [beyondPath_segment ht, hstart]
    have hin : inPath (.symbol .dot :: t :: us) = true := ht
    rw [showings_cons_of_not rfl, showings_cons (isSegment_of_isMember hu), text_of_isMember hu,
      tokenCategory_member hu, nameCategory_eq, hbefore, hin, hns.beyondPath_append ha,
      hns.inPath_append ha, operatorBehind_members hns ha,
      hns.showings_eq (isSegment_of_isMember hu) hbefore ha, shownSegments, Bool.not_true,
      Bool.not_not]

/-- The segments of a dotted name see the tokens before it and those behind it. -/
theorem Path.Spells.showings_eq {p : Path} (h : p.Spells ts)
    (hb : before.head? ≠ some (.symbol .dot)) (ha : after.head? ≠ some (.symbol .dot)) :
    showings before ts after = shownSegments before after true p.segments := by
  obtain ⟨_ | ⟨n, ns⟩⟩ := p
  · obtain rfl := h
    rfl
  · obtain ⟨us, hns, rfl⟩ := h
    have hcategory : tokenCategory before (.name n) (us ++ after) =
        segmentCategory before after true ns.isEmpty := by
      show nameCategory before (us ++ after) = _
      rw [nameCategory_eq, beyondPath_of_head hb, inPath_of_head hb, hns.beyondPath_append ha,
        hns.inPath_append ha, Bool.not_false, Bool.not_not]
    rw [showings_cons rfl, hcategory, operatorBehind_members hns ha,
      hns.showings_eq rfl (beyondPath_of_head hb) ha]
    rfl

/-- Segments are shown one by one. -/
theorem showsAll_segments {use : PathUse} {start stop : List Token}
    (h : ∀ n first last, Mention.ShownAs ⟨n, use.role first last⟩
      ⟨n, segmentCategory start stop first last, operatorBehind stop⟩) :
    ∀ (first : Bool) (ns : List String),
      ShowsAll (use.segments first ns) (shownSegments start stop first ns)
  | _, [] => .nil
  | _, n :: ns => .cons (h n _ _) (showsAll_segments h false ns)

theorem Path.Spells.shown {p : Path} (h : p.Spells ts) (use : PathUse)
    (hb : before.head? ≠ some (.symbol .dot)) (ha : after.head? ≠ some (.symbol .dot))
    (hshown : ∀ n first last, Mention.ShownAs ⟨n, use.role first last⟩
      ⟨n, segmentCategory before after first last, operatorBehind after⟩) :
    ShowsAll (p.mentions use) (showings before ts after) := by
  rw [h.showings_eq hb ha]
  exact showsAll_segments hshown true p.segments

end Segments

/-! ## Places where an expression may begin -/

/-- The token tells what a name directly behind it is. -/
def Token.opensName : Token → Bool
  | .keyword k =>
    k = .namespace_ || k = .type || k = .procedure || k = .initiate || k = .confirm
  | .symbol y => y = .colon || y = .leftBracket || y = .dot
  | _ => false

/-- Nothing before a name declares it or makes it a type, and it is no activity if an operator
stands behind it. -/
structure Free (before : List Token) : Prop where
  ne_dot : before.head? ≠ some (.symbol .dot)
  declared : declared? before = none
  type : inTypePosition before = false
  operator : ∀ stop (op : BinaryOp), (afterArguments stop).head? = some op.token →
    isActivity before stop = false

/-- The tokens before a name give it no role of its own. -/
structure Plain (before : List Token) : Prop extends Free before where
  activity : ∀ stop, isActivity before stop = false

theorem Free.ne_type {before : List Token} (h : Free before) :
    before.head? ≠ some (.keyword .type) := by
  intro hhead
  obtain ⟨us, rfl⟩ := List.head?_eq_some_iff.1 hhead
  cases h.declared

/-- A name is a type behind a colon, a bracket, or a name that is declared as one. -/
theorem inTypePosition_cons {t : Token} {before : List Token}
    (ht : t ≠ .symbol .colon ∧ t ≠ .symbol .leftBracket)
    (hb : before.head? ≠ some (.keyword .type)) : inTypePosition (t :: before) = false := by
  unfold inTypePosition
  split
  · next heq => exact absurd (List.cons.inj heq).1 ht.1
  · next heq => exact absurd (List.cons.inj heq).1 ht.2
  · next heq =>
    cases heq
    exact absurd rfl hb
  · rfl

theorem plain_cons {t : Token} {before : List Token} (ht : t.opensName = false)
    (hb : before.head? ≠ some (.keyword .type)) : Plain (t :: before) := by
  have hactivity : ∀ stop, isActivity (t :: before) stop = false := by
    intro stop
    unfold isActivity
    split
    · next heq =>
      cases heq
      cases ht
    · next heq =>
      cases heq
      cases ht
    · rfl
  refine ⟨⟨?_, ?_, ?_, fun stop _ _ => hactivity stop⟩, hactivity⟩
  · rintro ⟨⟩
    cases ht
  · unfold declared?
    split <;> first
      | rfl
      | next heq =>
        cases heq
        cases ht
  · refine inTypePosition_cons ⟨?_, ?_⟩ hb <;>
      · rintro rfl
        cases ht

theorem plain_append {us before : List Token} (hus : ∀ t ∈ us, t.opensName = false)
    (hb : Plain before) : Plain (us.reverse ++ before) := by
  induction us generalizing before with
  | nil => exact hb
  | cons t us ih =>
    obtain ⟨ht, hrest⟩ := List.forall_mem_cons.1 hus
    rw [List.reverse_cons, List.append_assoc]
    exact ih hrest (plain_cons ht hb.ne_type)

/-- Behind `confirm` a name may be an activity, but not before an operator. -/
theorem free_confirm {before : List Token} (hb : before.head? ≠ some (.keyword .type)) :
    Free (.keyword .confirm :: before) where
  ne_dot := by simp
  declared := rfl
  type := inTypePosition_cons (by simp) hb
  operator stop op h := by simp [isActivity, h]

theorem BinaryOp.opensName_token (op : BinaryOp) : op.token.opensName = false := by
  cases op <;> rfl

theorem UnaryOp.opensName_token (op : UnaryOp) : op.token.opensName = false := by
  cases op <;> rfl

theorem BinaryOp.isSegment_token (op : BinaryOp) : isSegment op.token = false := by
  cases op <;> rfl

theorem UnaryOp.isSegment_token (op : UnaryOp) : isSegment op.token = false := by
  cases op <;> rfl

theorem BinaryOp.token_ne_type (op : BinaryOp) : op.token ≠ .keyword .type := by
  cases op <;> simp [token]

theorem UnaryOp.token_ne_type (op : UnaryOp) : op.token ≠ .keyword .type := by
  cases op <;> simp [token]

theorem MembersSpell.plain : ∀ {ns : List String} {ts before : List Token}, MembersSpell ns ts →
    Plain before → Plain (ts.reverse ++ before)
  | [], _, _, h, hb => by
    obtain rfl := h
    exact hb
  | n :: ns, _, before, h, hb => by
    obtain ⟨t, us, ht, hns, rfl⟩ := h
    have hsegment : t.opensName = false := by rcases ht with rfl | ⟨rfl, -⟩ <;> rfl
    have hnext : Plain (t :: .symbol .dot :: before) := plain_cons hsegment (by simp)
    simpa using hns.plain hnext

theorem Path.Spells.plain {p : Path} {ts before : List Token} (h : p.Spells ts)
    (hp : p.segments ≠ []) (hb : before.head? ≠ some (.keyword .type)) :
    Plain (ts.reverse ++ before) := by
  obtain ⟨_ | ⟨n, ns⟩⟩ := p
  · exact absurd rfl hp
  · obtain ⟨us, hns, rfl⟩ := h
    simpa using hns.plain (plain_cons (t := .name n) rfl hb)

mutual

/-- Behind an expression another one may begin. -/
theorem Expr.Spells.plain : ∀ {e : Expr} {ts before : List Token}, e.Spells ts →
    e.Every Expr.ProperAt → before.head? ≠ some (.keyword .type) → Plain (ts.reverse ++ before)
  | .name _, _, _, h, _, hb | .number _, _, _, h, _, hb | .string _, _, _, h, _, hb
  | .truth _, _, _, h, _, hb => by
    obtain rfl := h
    exact plain_cons rfl hb
  | .measure _ _, _, _, h, _, _ => by
    obtain rfl := h
    exact plain_cons rfl (by simp)
  | .property p, _, _, h, hp, hb => by
    have hlen : 2 ≤ p.segments.length := hp
    exact Path.Spells.plain (p := p) h (List.length_pos_iff.1 (by omega)) hb
  | .call p as, _, before, h, hp, hb => by
    obtain ⟨us, vs, hpath, has, rfl⟩ := h
    have hname := hpath.plain (List.length_pos_iff.1 hp.1) hb
    have hargs := has.plain hp.2 (plain_cons (t := .symbol .leftParen) rfl hname.ne_type)
    simpa using plain_cons (t := .symbol .rightParen) rfl hargs.ne_type
  | .binary op l r, _, before, h, hp, _ => by
    obtain ⟨us, vs, -, hr, rfl⟩ := h
    have hhead : (op.token :: (us.reverse ++ before)).head? ≠ some (.keyword .type) := by
      simpa using op.token_ne_type
    simpa using hr.plain hp.2.2 hhead
  | .unary op e, _, before, h, hp, _ => by
    obtain ⟨us, he, rfl⟩ := h
    have hhead : (op.token :: before).head? ≠ some (.keyword .type) := by
      simpa using op.token_ne_type
    simpa using Expr.Spells.plain (e := e) he hp.2 hhead
  | .parens e, _, before, h, hp, _ => by
    obtain ⟨us, he, rfl⟩ := h
    have hparen : (Token.symbol .leftParen :: before).head? ≠ some (.keyword .type) := by simp
    have hinner := Expr.Spells.plain (e := e) he hp.2 hparen
    simpa using plain_cons (t := .symbol .rightParen) rfl hinner.ne_type

theorem Argument.AllSpell.plain : ∀ {as : List Argument} {ts before : List Token},
    Argument.AllSpell as ts → Argument.AllEvery Expr.ProperAt as → Plain before →
      Plain (ts.reverse ++ before)
  | [], _, _, h, _, hb => by
    obtain rfl := h
    exact hb
  | a :: as, _, before, h, hp, hb => by
    obtain ⟨us, vs, ha, rfl, hrest⟩ := h
    have hfirst : Plain (us.reverse ++ before) := by
      cases a with
      | positional v => exact Expr.Spells.plain (e := v) ha hp.1 hb.ne_type
      | named n v =>
        obtain ⟨ws, hv, rfl⟩ := ha
        have hassign : (Token.symbol .assign :: .name n :: before).head? ≠
            some (.keyword .type) := by simp
        simpa using Expr.Spells.plain (e := v) hv hp.1 hassign
    obtain ⟨rfl, rfl⟩ | ⟨ws, hws, rfl⟩ := hrest
    · simpa using hfirst
    · have hcomma : Plain (.symbol .comma :: (us.reverse ++ before)) :=
        plain_cons rfl hfirst.ne_type
      simpa using hws.plain hp.2 hcomma

end

/-! ## Balanced parentheses -/

theorem afterParens_cons {t : Token} (h : t ≠ .eof ∧ t ≠ .symbol .leftParen ∧
    t ≠ .symbol .rightParen) (n : Nat) (rest : List Token) :
    afterParens n (t :: rest) = afterParens n rest := by
  obtain ⟨he, hl, hr⟩ := h
  rw [afterParens] <;> simp_all

theorem MembersSpell.afterParens_append : ∀ {ns : List String} {ts : List Token},
    MembersSpell ns ts → ∀ (n : Nat) (rest : List Token),
      afterParens n (ts ++ rest) = afterParens n rest
  | [], _, h, _, _ => by
    obtain rfl := h
    rfl
  | _ :: _, _, h, n, rest => by
    obtain ⟨t, us, ht, hns, rfl⟩ := h
    have hmember : t ≠ .eof ∧ t ≠ .symbol .leftParen ∧ t ≠ .symbol .rightParen := by
      rcases ht with rfl | ⟨rfl, -⟩ <;> simp
    rw [List.cons_append, List.cons_append, afterParens_cons (by simp), afterParens_cons hmember,
      hns.afterParens_append]

theorem Path.Spells.afterParens_append {p : Path} {ts : List Token} (h : p.Spells ts) (n : Nat)
    (rest : List Token) : afterParens n (ts ++ rest) = afterParens n rest := by
  obtain ⟨_ | ⟨m, ns⟩⟩ := p
  · obtain rfl := h
    rfl
  · obtain ⟨us, hns, rfl⟩ := h
    rw [List.cons_append, afterParens_cons (by simp), hns.afterParens_append]

mutual

/-- The parentheses of an expression are balanced, so the search for one that closes passes over
it. -/
theorem Expr.Spells.afterParens_append : ∀ {e : Expr} {ts : List Token}, e.Spells ts →
    ∀ (n : Nat) (rest : List Token),
      afterParens n (ts ++ rest) = afterParens n rest
  | .name _, _, h, n, rest | .number _, _, h, n, rest | .string _, _, h, n, rest
  | .truth _, _, h, n, rest => by
    obtain rfl := h
    exact afterParens_cons (by simp) n rest
  | .measure _ _, _, h, n, rest => by
    obtain rfl := h
    rw [List.cons_append, List.cons_append, afterParens_cons (by simp), afterParens_cons (by simp)]
    rfl
  | .property p, _, h, n, rest => Path.Spells.afterParens_append (p := p) h n rest
  | .call p as, _, h, n, rest => by
    obtain ⟨us, vs, hp, has, rfl⟩ := h
    rw [List.append_assoc, hp.afterParens_append, List.cons_append, List.append_assoc,
      afterParens, has.afterParens_append]
    rfl
  | .binary op l r, _, h, n, rest => by
    obtain ⟨us, vs, hl, hr, rfl⟩ := h
    have hop : op.token ≠ .eof ∧ op.token ≠ .symbol .leftParen ∧
        op.token ≠ .symbol .rightParen := by
      cases op <;> simp [BinaryOp.token]
    rw [List.append_assoc, hl.afterParens_append, List.cons_append, afterParens_cons hop,
      hr.afterParens_append]
  | .unary op e, _, h, n, rest => by
    obtain ⟨us, he, rfl⟩ := h
    have hop : op.token ≠ .eof ∧ op.token ≠ .symbol .leftParen ∧
        op.token ≠ .symbol .rightParen := by
      cases op <;> simp [UnaryOp.token]
    rw [List.cons_append, afterParens_cons hop, Expr.Spells.afterParens_append (e := e) he]
  | .parens e, _, h, n, rest => by
    obtain ⟨us, he, rfl⟩ := h
    rw [List.cons_append, List.append_assoc, afterParens,
      Expr.Spells.afterParens_append (e := e) he]
    rfl

theorem Argument.AllSpell.afterParens_append : ∀ {as : List Argument} {ts : List Token},
    Argument.AllSpell as ts → ∀ (n : Nat) (rest : List Token),
      afterParens n (ts ++ rest) = afterParens n rest
  | [], _, h, _, _ => by
    obtain rfl := h
    rfl
  | a :: as, _, h, n, rest => by
    obtain ⟨us, vs, ha, rfl, hrest⟩ := h
    have hfirst : afterParens n (us ++ (vs ++ rest)) =
        afterParens n (vs ++ rest) := by
      cases a with
      | positional v => exact Expr.Spells.afterParens_append (e := v) ha n _
      | named m v =>
        obtain ⟨ws, hv, rfl⟩ := ha
        rw [List.cons_append, List.cons_append, afterParens_cons (by simp),
          afterParens_cons (by simp), Expr.Spells.afterParens_append (e := v) hv]
    rw [List.append_assoc, hfirst]
    obtain ⟨rfl, rfl⟩ | ⟨ws, hws, rfl⟩ := hrest
    · rfl
    · rw [List.cons_append, afterParens_cons (by simp), hws.afterParens_append]

end

theorem afterArguments_cons {t : Token} (h : t ≠ .symbol .leftParen) (ts : List Token) :
    afterArguments (t :: ts) = t :: ts := by
  unfold afterArguments
  split
  · next heq => exact absurd (List.cons.inj heq).1 h
  · rfl

/-- Behind the arguments of a call stands what follows it. -/
theorem Argument.AllSpell.afterArguments_eq {as : List Argument} {ts : List Token}
    (h : Argument.AllSpell as ts) (rest : List Token) :
    afterArguments (.symbol .leftParen :: (ts ++ .symbol .rightParen :: rest)) =
      rest := by
  rw [afterArguments, h.afterParens_append]
  rfl

/-! ## Names in expressions -/

/-- The token joins nothing to a name before it. -/
structure Token.Apart (t : Token) : Prop where
  ne_dot : t ≠ .symbol .dot
  ne_colon : t ≠ .symbol .colon

theorem Token.apart_keyword (k : Keyword) : (Token.keyword k).Apart :=
  ⟨by simp, by simp⟩

theorem BinaryOp.apart_token (op : BinaryOp) : op.token.Apart := by
  cases op <;> exact ⟨by simp [token], by simp [token]⟩

section Names

variable {before after : List Token} {next : Token}

/-- A name in an expression. -/
theorem shownAs_value (hb : Free before) (hactivity : isActivity before (next :: after) = false)
    (hnext : next.Apart) (hparen : next ≠ .symbol .leftParen) (n : String) (first last : Bool) :
    Mention.ShownAs ⟨n, PathUse.value.role first last⟩
      ⟨n, segmentCategory before (next :: after) first last,
        operatorBehind (next :: after)⟩ := by
  refine .of_eq rfl ?_
  simp only [segmentCategory, hb.declared, hb.type, hactivity, startsWith, List.head?_cons,
    PathUse.role]
  have hcolon := hnext.ne_colon
  cases first <;> simp [hcolon, hparen, Role.category]

/-- The name of a function that is called. -/
theorem shownAs_call (hb : Free before)
    (hactivity : isActivity before (.symbol .leftParen :: after) = false) (n : String)
    (first last : Bool) :
    Mention.ShownAs ⟨n, PathUse.call.role first last⟩
      ⟨n, segmentCategory before (.symbol .leftParen :: after) first last,
        operatorBehind (.symbol .leftParen :: after)⟩ := by
  refine .of_eq rfl ?_
  simp only [segmentCategory, hb.declared, hb.type, hactivity, startsWith, List.head?_cons,
    PathUse.role]
  cases first <;> cases last <;> simp [Role.category]

/-- A name is no activity where none can be, or before an operator. -/
theorem Free.isActivity_eq {stop : List Token} (hb : Free before)
    (hstop : afterArguments stop = next :: after)
    (h : (∀ stop, isActivity before stop = false) ∨ ∃ op : BinaryOp, next = op.token) :
    isActivity before stop = false := by
  obtain hno | ⟨op, rfl⟩ := h
  · exact hno stop
  · exact hb.operator stop op (by rw [hstop]; rfl)

theorem head_cons_ne_dot {t : Token} {ts : List Token} (h : t ≠ .symbol .dot) :
    (t :: ts).head? ≠ some (.symbol .dot) := by
  simpa using h

/-- A name on its own, which is a target, a counter or the name of an argument, before a word or
a sign and what belongs to it. -/
theorem showsAll_name {us : List Token} {ms : List Mention} (hb : Plain before)
    (hnext : next.Apart) (hparen : next ≠ .symbol .leftParen) (hsegment : isSegment next = false)
    (n : String) (h : ShowsAll ms (showings (next :: .name n :: before) us after)) :
    ShowsAll (⟨n, .variableName⟩ :: ms) (showings before (.name n :: next :: us) after) := by
  have hpath : Path.Spells ⟨[n]⟩ [.name n] := ⟨[], rfl, rfl⟩
  have hname := hpath.shown .value hb.ne_dot (head_cons_ne_dot hnext.ne_dot)
    (shownAs_value hb.toFree (hb.activity (next :: (us ++ after))) hnext hparen)
  have hrow : Token.name n :: next :: us = [Token.name n] ++ next :: us := rfl
  rw [hrow, showings_append, showings_cons_of_not hsegment]
  exact hname.append h

end Names

mutual

/-- The names of an expression are shown as they are used : as variables and properties, and the
last segments of calls as functions. Directly behind `confirm` this is so if the expression is
more than the name of an activity. -/
theorem Expr.Spells.shown : ∀ {e : Expr} {ts before after : List Token} {next : Token},
    e.Spells ts → e.Every Expr.ProperAt → Free before →
    (e.readsAsActivity = true →
      (∀ stop, isActivity before stop = false) ∨ ∃ op : BinaryOp, next = op.token) →
    e.StopsBefore next → next.Apart →
      ShowsAll e.mentions (showings before ts (next :: after))
  | .name n, _, before, after, next, h, _, hb, hact, hstop, hnext => by
    have hpath : Path.Spells ⟨[n]⟩ [.name n] := ⟨[], rfl, rfl⟩
    obtain rfl := h
    have hactivity := hb.isActivity_eq (afterArguments_cons hstop after) (hact rfl)
    exact hpath.shown .value hb.ne_dot (head_cons_ne_dot hnext.ne_dot)
      (shownAs_value hb hactivity hnext hstop)
  | .property p, _, before, after, next, h, _, hb, hact, hstop, hnext => by
    have hpath : p.Spells _ := h
    have hactivity := hb.isActivity_eq (afterArguments_cons hstop after) (hact rfl)
    exact hpath.shown .value hb.ne_dot (head_cons_ne_dot hnext.ne_dot)
      (shownAs_value hb hactivity hnext hstop)
  | .call p as, _, before, after, next, h, hp, hb, hact, _, hnext => by
    obtain ⟨us, vs, hpath, has, rfl⟩ := h
    have hname := hpath.plain (List.length_pos_iff.1 hp.1) hb.ne_type
    have hactivity := hb.isActivity_eq (has.afterArguments_eq (next :: after)) (hact rfl)
    have hargs : ShowsAll (Argument.allMentions as) (showings
        (.symbol .leftParen :: (us.reverse ++ before)) vs (.symbol .rightParen :: next :: after)) :=
      has.shown hp.2 (plain_cons rfl hname.ne_type)
    rw [showings_append, showings_cons_of_not rfl, showings_append_of_not (by simp [isSegment])]
    refine ShowsAll.append ?_ hargs
    · have hfunction := hpath.shown .call hb.ne_dot (head_cons_ne_dot (by simp))
        (shownAs_call hb hactivity)
      simpa using hfunction
  | .binary op l r, _, before, after, next, h, hp, hb, _, hstop, hnext => by
    obtain ⟨us, vs, hl, hr, rfl⟩ := h
    have hbehind := hl.plain hp.2.1 hb.ne_type
    have hplain : Plain (op.token :: (us.reverse ++ before)) :=
      plain_cons op.opensName_token hbehind.ne_type
    rw [showings_append, showings_cons_of_not op.isSegment_token]
    refine ShowsAll.append ?_ ?_
    · have hleft : ShowsAll l.mentions
          (showings before us (op.token :: (vs ++ next :: after))) :=
        hl.shown hp.2.1 hb (fun _ => .inr ⟨op, rfl⟩)
          (Expr.stopsBefore_of_ne (by cases op <;> simp [BinaryOp.token]) l) op.apart_token
      simpa using hleft
    · exact hr.shown hp.2.2 hplain.toFree (fun _ => .inl hplain.activity) hstop hnext
  | .unary op e, _, before, after, next, h, hp, hb, _, hstop, hnext => by
    obtain ⟨us, he, rfl⟩ := h
    have hplain : Plain (op.token :: before) := plain_cons op.opensName_token hb.ne_type
    rw [showings_cons_of_not op.isSegment_token]
    exact Expr.Spells.shown (e := e) he hp.2 hplain.toFree (fun _ => .inl hplain.activity) hstop
      hnext
  | .parens e, _, before, after, next, h, hp, hb, _, _, _ => by
    obtain ⟨us, he, rfl⟩ := h
    have hplain : Plain (.symbol .leftParen :: before) := plain_cons rfl hb.ne_type
    have hinner : ShowsAll e.mentions (showings (.symbol .leftParen :: before) us
        (.symbol .rightParen :: next :: after)) :=
      Expr.Spells.shown (e := e) he hp.2 hplain.toFree (fun _ => .inl hplain.activity)
        (Expr.stopsBefore_of_ne (by simp) e) ⟨by simp, by simp⟩
    rw [showings_cons_of_not rfl, showings_append_of_not (by simp [isSegment])]
    exact hinner
  | .number _, _, before, after, next, h, _, _, _, _, _
  | .string _, _, before, after, next, h, _, _, _, _, _
  | .truth _, _, before, after, next, h, _, _, _, _, _ => by
    obtain rfl := h
    rw [showings_cons_of_not rfl]
    exact .nil
  | .measure v u, _, before, after, next, h, _, _, _, _, hnext => by
    obtain rfl := h
    have hcategory : tokenCategory (.number v.lexeme :: before) (.unit u.spelling)
        (next :: after) = .unit := by
      have hcolon := hnext.ne_colon
      simp [tokenCategory, startsWith, hcolon]
    rw [showings_cons_of_not rfl, showings_cons rfl, List.nil_append, hcategory]
    exact .cons (.of_eq rfl rfl) .nil

/-- The names of arguments are shown as variables, and those of their values as they are used. -/
theorem Argument.AllSpell.shown : ∀ {as : List Argument} {ts before after : List Token},
    Argument.AllSpell as ts → Argument.AllEvery Expr.ProperAt as → Plain before →
      ShowsAll (Argument.allMentions as) (showings before ts (.symbol .rightParen :: after))
  | [], _, _, _, h, _, _ => by
    obtain rfl := h
    exact .nil
  | a :: as, _, before, after, h, hp, hb => by
    obtain ⟨us, vs, ha, rfl, hrest⟩ := h
    have hfirst : ∀ (next : Token) (after : List Token), next ≠ .symbol .leftParen →
        next.Apart → ShowsAll a.mentions (showings before us (next :: after)) := by
      intro next after hparen hnext
      cases a with
      | positional v =>
        exact Expr.Spells.shown (e := v) ha hp.1 hb.toFree (fun _ => .inl hb.activity)
          (Expr.stopsBefore_of_ne hparen v) hnext
      | named n v =>
        obtain ⟨ws, hv, rfl⟩ := ha
        have hplain : Plain (.symbol .assign :: .name n :: before) := plain_cons rfl (by simp)
        exact showsAll_name hb ⟨by simp, by simp⟩ (by simp) rfl n
          (Expr.Spells.shown (e := v) hv hp.1 hplain.toFree (fun _ => .inl hplain.activity)
            (Expr.stopsBefore_of_ne hparen v) hnext)
    rw [showings_append]
    obtain ⟨rfl, rfl⟩ | ⟨ws, hws, rfl⟩ := hrest
    · refine ShowsAll.append (hfirst (.symbol .rightParen) after (by simp) ⟨by simp, by simp⟩) ?_
      exact .nil
    · refine ShowsAll.append
        (hfirst (.symbol .comma) (ws ++ .symbol .rightParen :: after) (by simp)
          ⟨by simp, by simp⟩) ?_
      have hbehind : Plain (us.reverse ++ before) := by
        have hone : Argument.AllSpell [a] us := ⟨us, [], ha, by simp, .inl ⟨rfl, rfl⟩⟩
        exact hone.plain ⟨hp.1, trivial⟩ hb
      rw [showings_cons_of_not rfl]
      exact hws.shown hp.2 (plain_cons rfl hbehind.ne_type)

end

end OpsLang
