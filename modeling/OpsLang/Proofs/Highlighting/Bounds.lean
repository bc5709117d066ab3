import OpsLang.Proofs.Highlighting.Expr
import OpsLang.Proofs.Highlighting.Indexed

/-!
# The highlighter by indices stays in range

An index divides a row into the tokens before it, nearest first (`leftOf`), and those behind it
(`rightOf`). These are what `highlight` is given, so a walk by indices can be told as a walk along
one of the two. The walks to the ends of a dotted name go opposite ways and are one walk in this
view (`EndsPath`). The count of open parentheses is one more than what `afterParens` counts, which
leaves out the outermost : so it is not zero where a parenthesis closes (`closing_eq_ok`).

A walk that gives a result has neither left the row nor taken more from a number than it is. So
the lemmas are equations with `.ok`, and the result is what the lists give (`tokenCategory_eq_ok`,
`highlight_eq_ok`). The row may be any row : it need not end with the end of the text, and may
begin or stop inside a dotted name or an argument list.
-/

namespace OpsLang.Highlight.Indexed

/-! ## The two sides of an index -/

/-- The tokens before an index, the nearest first. -/
def leftOf (ts : List Token) (i : Nat) : List Token :=
  (ts.take i).reverse

/-- The tokens behind an index. -/
def rightOf (ts : List Token) (i : Nat) : List Token :=
  ts.drop (i + 1)

section Sides

variable {ts : List Token} {i : Nat}

theorem leftOf_succ (h : i < ts.length) : leftOf ts (i + 1) = ts[i] :: leftOf ts i := by
  rw [leftOf, List.take_succ_eq_append_getElem h, List.reverse_append]
  rfl

theorem rightOf_of_lt (h : i + 1 < ts.length) : rightOf ts i = ts[i + 1] :: rightOf ts (i + 1) :=
  List.drop_eq_getElem_cons h

theorem previous?_eq (h : i ≤ ts.length) : previous? ts i = (leftOf ts i).head? := by
  cases i with
  | zero => rfl
  | succ i =>
    rw [leftOf_succ h, previous?, List.getElem?_eq_getElem h]
    rfl

theorem next?_eq : next? ts i = (rightOf ts i).head? :=
  List.head?_drop.symm

/-- Each token of a row has its category among the tokens before it and those behind it. -/
theorem getElem_categories (before ts : List Token) (i : Nat) (h : i < ts.length)
    (h' : i < (categories before ts).length) : (categories before ts)[i] =
      Highlight.tokenCategory (leftOf ts i ++ before) ts[i] (rightOf ts i) := by
  induction ts generalizing before i with
  | nil => cases h
  | cons t ts ih =>
    cases i with
    | zero => rfl
    | succ i =>
      simp only [categories, List.getElem_cons_succ]
      rw [ih (t :: before) i (Nat.lt_of_succ_lt_succ h)]
      simp [leftOf, rightOf]

end Sides

/-! ## Dotted names -/

theorem inPath_cons_cons (t u : Token) (us : List Token) :
    inPath (t :: u :: us) = (decide (t = .symbol .dot) && isSegment u) := by
  by_cases h : t = .symbol .dot
  · rw [h]
    rfl
  · rw [inPath_of_head (by simpa using h), decide_eq_false h, Bool.false_and]

theorem inPath_of_length_le_one {us : List Token} (h : us.length ≤ 1) : inPath us = false := by
  unfold inPath
  split
  · simp at h
  · rfl

theorem beyondPath_of_inPath {t u : Token} {us : List Token} (h : inPath (t :: u :: us) = true) :
    beyondPath (t :: u :: us) = beyondPath us := by
  simp only [inPath_cons_cons, Bool.and_eq_true, decide_eq_true_eq] at h
  obtain ⟨rfl, hu⟩ := h
  exact beyondPath_segment hu us

/-- The dotted name that the token at `i` belongs to ends at `k`, on the side that is given for
each index. -/
structure EndsPath (side : Nat → List Token) (i k : Nat) : Prop where
  beyond : side k = beyondPath (side i)
  eq_iff : i = k ↔ inPath (side i) = false

namespace EndsPath

variable {side : Nat → List Token} {i j k : Nat} {t u : Token}

theorem stop (h : inPath (side i) = false) : EndsPath side i i where
  beyond := (beyondPath_of_not_inPath h).symm
  eq_iff := by simp [h]

/-- The walk goes on from the next segment, and never comes back to where it began. -/
theorem step (hside : side i = t :: u :: side j) (hpath : inPath (side i) = true)
    (h : EndsPath side j k) (hne : i ≠ k) : EndsPath side i k where
  beyond := by
    rw [hside] at hpath ⊢
    rw [h.beyond, beyondPath_of_inPath hpath]
  eq_iff := by simp [hne, hpath]

end EndsPath

section Paths

variable {ts : List Token} {i : Nat}

theorem segmentBefore_eq_ok (h : i + 2 ≤ ts.length) :
    segmentBefore ts (i + 2) = .ok (inPath (leftOf ts (i + 2))) := by
  have hi : i < ts.length := by omega
  have hi' : i + 1 < ts.length := by omega
  rw [leftOf_succ hi', leftOf_succ hi, inPath_cons_cons]
  by_cases hdot : ts[i + 1] = .symbol .dot <;>
    simp [segmentBefore, minus_add (i + 1) 1, hi, hi', hdot]

theorem segmentBehind_eq_ok (h : i + 2 < ts.length) :
    segmentBehind ts i = .ok (inPath (rightOf ts i)) := by
  have hi : i + 1 < ts.length := by omega
  rw [rightOf_of_lt hi, rightOf_of_lt h, inPath_cons_cons]
  by_cases hdot : ts[i + 1] = .symbol .dot <;> simp [segmentBehind, h, hi, hdot]

theorem pathStart_eq_ok (i : Nat) (h : i ≤ ts.length) :
    ∃ start, pathStart ts i = .ok start ∧ start ≤ i ∧ EndsPath (leftOf ts) i start := by
  rw [pathStart]
  split
  case isTrue htwo =>
    obtain ⟨k, rfl⟩ := Nat.exists_eq_add_of_le' htwo
    rw [segmentBefore_eq_ok h, ok_bind, minus_add, ok_bind]
    cases hpath : inPath (leftOf ts (k + 2)) with
    | false => exact ⟨k + 2, rfl, Nat.le_refl _, .stop hpath⟩
    | true =>
      obtain ⟨start, hstart, hle, hends⟩ := pathStart_eq_ok k (by omega)
      have hleft : leftOf ts (k + 2) = ts[k + 1] :: ts[k] :: leftOf ts k := by
        rw [leftOf_succ, leftOf_succ]
      exact ⟨start, hstart, by omega, .step hleft hpath hends (by omega)⟩
  case isFalse hone =>
    have hlen : (leftOf ts i).length ≤ 1 := by
      rw [leftOf, List.length_reverse, List.length_take]
      omega
    exact ⟨i, rfl, Nat.le_refl i, .stop (inPath_of_length_le_one hlen)⟩
termination_by i

theorem pathLast_eq_ok (i : Nat) (h : i < ts.length) :
    ∃ last, pathLast ts i = .ok last ∧ i ≤ last ∧ last < ts.length ∧
      EndsPath (rightOf ts) i last := by
  rw [pathLast]
  split
  case isTrue htwo =>
    rw [segmentBehind_eq_ok htwo, ok_bind]
    cases hpath : inPath (rightOf ts i) with
    | false => exact ⟨i, rfl, Nat.le_refl i, h, .stop hpath⟩
    | true =>
      obtain ⟨last, hlast, hle, hlt, hends⟩ := pathLast_eq_ok (i + 2) htwo
      have hright : rightOf ts i = ts[i + 1] :: ts[i + 2] :: rightOf ts (i + 2) := by
        rw [rightOf_of_lt (by omega), rightOf_of_lt htwo]
      exact ⟨last, hlast, by omega, hlt, .step hright hpath hends (by omega)⟩
  case isFalse hone =>
    have hlen : (rightOf ts i).length ≤ 1 := by
      rw [rightOf, List.length_drop]
      omega
    exact ⟨i, rfl, Nat.le_refl i, h, .stop (inPath_of_length_le_one hlen)⟩
termination_by ts.length - i

/-- The segments that a dotted name begins and ends with are those beyond which the lists find no
more of it. -/
theorem pathBounds_eq_ok (h : i < ts.length) : ∃ start last,
    pathBounds ts i = .ok (start, last) ∧ start ≤ i ∧ i ≤ last ∧ last < ts.length ∧
      EndsPath (leftOf ts) i start ∧ EndsPath (rightOf ts) i last := by
  obtain ⟨start, hstart, hle, hbefore⟩ := pathStart_eq_ok i (Nat.le_of_lt h)
  obtain ⟨last, hlast, hge, hlt, hbehind⟩ := pathLast_eq_ok i h
  refine ⟨start, last, ?_, hle, hge, hlt, hbefore, hbehind⟩
  rw [pathBounds, hstart, ok_bind, hlast]
  rfl

end Paths

/-! ## Arguments -/

/-- Inside the outermost parenthesis at least one is open, so one can be closed. -/
theorem closing_eq_ok (inner j : Nat) (ts : List Token) : ∃ k ≤ ts.length,
    closing (inner + 1) j ts = .ok (j + k) ∧ afterParens inner ts = ts.drop k := by
  fun_induction afterParens inner ts generalizing j with
  | case1 inner => exact ⟨0, Nat.le_refl 0, rfl, rfl⟩
  | case2 inner ts => exact ⟨0, Nat.zero_le _, rfl, rfl⟩
  | case3 inner ts ih =>
    obtain ⟨k, hk, hclosing, hafter⟩ := ih (j + 1)
    refine ⟨k + 1, Nat.succ_le_succ hk, ?_, hafter⟩
    rw [closing, hclosing, Nat.add_right_comm, Nat.add_assoc]
  | case4 ts => exact ⟨1, by simp, rfl, rfl⟩
  | case5 ts inner ih =>
    obtain ⟨k, hk, hclosing, hafter⟩ := ih (j + 1)
    refine ⟨k + 1, Nat.succ_le_succ hk, ?_, hafter⟩
    rw [closing, minus_add, ok_bind, if_neg (Nat.succ_ne_zero inner), hclosing,
      Nat.add_right_comm, Nat.add_assoc]
  | case6 inner t ts heof hopen hclose ih =>
    obtain ⟨k, hk, hclosing, hafter⟩ := ih (j + 1)
    refine ⟨k + 1, Nat.succ_le_succ hk, ?_, hafter⟩
    rw [closing, hclosing, Nat.add_right_comm, Nat.add_assoc] <;> assumption

/-- Counting from no open parenthesis, one that closes would be taken from zero. -/
example : closing 0 5 [.symbol .rightParen] = .error (.below 0 1) := rfl

theorem skipArguments_eq_ok (ts : List Token) (i : Nat) : ∃ j, skipArguments ts i = .ok j ∧
    i ≤ j ∧ j ≤ max i ts.length ∧ ts.drop j = afterArguments (ts.drop i) := by
  unfold skipArguments
  split
  case isTrue h =>
    -- The parenthesis that is read first is the outermost one : from then on the count is not zero.
    obtain ⟨hi, hopen⟩ := List.getElem?_eq_some_iff.1 h
    obtain ⟨k, hk, hclosing, hafter⟩ := closing_eq_ok 0 (i + 1) (ts.drop (i + 1))
    rw [List.length_drop] at hk
    rw [List.drop_eq_getElem_cons hi, hopen]
    refine ⟨i + 1 + k, hclosing, by omega, by omega, ?_⟩
    rw [afterArguments, hafter, List.drop_drop]
  case isFalse h =>
    refine ⟨i, rfl, Nat.le_refl i, Nat.le_max_left .., ?_⟩
    rw [← List.head?_drop] at h
    unfold afterArguments
    split
    · next heq => simp [heq] at h
    · rfl

/-! ## Categories -/

section Categories

variable {ts : List Token} {i start : Nat}

theorem declared?_eq_ok (h : start ≤ ts.length) :
    declared? ts start = .ok (Highlight.declared? (leftOf ts start)) := by
  cases start with
  | zero => rfl
  | succ k =>
    have hbefore : previous? ts k = (leftOf ts k).head? := previous?_eq (Nat.le_of_succ_le h)
    rw [declared?, previous?_eq h, leftOf_succ h, List.head?_cons]
    generalize ts[k] = t
    split
    · next heq =>
      cases heq
      rfl
    · next heq =>
      cases heq
      rfl
    · next heq =>
      cases heq
      rw [minus_add, ok_bind, hbefore, Highlight.declared?, startsWith, apply_ite Except.ok]
      rfl
    · next hspace htype hprocedure =>
      unfold Highlight.declared?
      split <;> simp_all

theorem typeBefore_eq_ok {k : Nat} (h : k < ts.length) :
    typeBefore ts (k + 1) = .ok (startsWith (.keyword .type) (leftOf ts k)) := by
  cases k with
  | zero => rfl
  | succ k =>
    have hk : k < ts.length := Nat.lt_of_succ_lt h
    rw [typeBefore, if_pos (by omega), minus_add k 2, ok_bind, tokenAt_of_lt hk, ok_bind,
      leftOf_succ hk]
    rfl

theorem inTypePosition_eq_ok (h : start ≤ ts.length) :
    inTypePosition ts start = .ok (Highlight.inTypePosition (leftOf ts start)) := by
  cases start with
  | zero => rfl
  | succ k =>
    rw [inTypePosition, previous?_eq h, typeBefore_eq_ok h, leftOf_succ h, List.head?_cons]
    generalize ts[k] = t
    split
    · next heq =>
      cases heq
      rfl
    · next heq =>
      cases heq
      rfl
    · next hcolon hbracket =>
      unfold Highlight.inTypePosition
      split
      · next heq => exact absurd (congrArg some (List.cons.inj heq).1) hcolon
      · next heq => exact absurd (congrArg some (List.cons.inj heq).1) hbracket
      · next heq =>
        rw [(List.cons.inj heq).2]
        rfl
      · next hnone =>
        have hhead : (leftOf ts k).head? ≠ some (.keyword .type) := by
          intro hhead
          obtain ⟨us, hus⟩ := List.head?_eq_some_iff.1 hhead
          exact hnone t us (by rw [hus])
        rw [startsWith, beq_eq_false_iff_ne.2 hhead]

theorem isActivity_eq_ok (h : start ≤ ts.length) (last : Nat) :
    isActivity ts start last =
      .ok (Highlight.isActivity (leftOf ts start) (rightOf ts last)) := by
  obtain ⟨j, hskip, -, -, hdrop⟩ := skipArguments_eq_ok ts (last + 1)
  rw [isActivity, previous?_eq h, hskip]
  cases leftOf ts start with
  | nil => rfl
  | cons t us =>
    rw [List.head?_cons]
    split
    · next heq =>
      cases heq
      rfl
    · next heq =>
      cases heq
      rw [ok_bind, Highlight.isActivity, rightOf, ← hdrop, List.head?_drop]
      rfl
    · unfold Highlight.isActivity
      split <;> simp_all

theorem nameCategory_eq_ok (h : i < ts.length) :
    nameCategory ts i = .ok (Highlight.nameCategory (leftOf ts i) (rightOf ts i)) := by
  obtain ⟨start, last, hbounds, hle, -, -, hstart, hlast⟩ := pathBounds_eq_ok h
  have hlen : start ≤ ts.length := by omega
  rw [nameCategory, hbounds, ok_bind, Highlight.nameCategory, ← hstart.beyond, ← hlast.beyond]
  simp only [declared?_eq_ok hlen, inTypePosition_eq_ok hlen, isActivity_eq_ok hlen, ok_bind,
    next?_eq, hstart.eq_iff, hlast.eq_iff, ← startsWith.eq_def]
  cases Highlight.declared? (leftOf ts start) with
  | some c => rfl
  | none => simp only [pure_eq_ok, apply_ite Except.ok, Bool.decide_eq_false, Bool.not_eq_true']

theorem tokenCategory_eq_ok (h : i < ts.length) :
    tokenCategory ts i = .ok (Highlight.tokenCategory (leftOf ts i) ts[i] (rightOf ts i)) := by
  rw [tokenCategory, tokenAt_of_lt h, ok_bind]
  simp only [previous?_eq (Nat.le_of_lt h), next?_eq, nameCategory_eq_ok h, ← startsWith.eq_def]
  generalize ts[i] = t
  split
  case h_1 =>
    rw [Highlight.tokenCategory, apply_ite Except.ok]
    rfl
  case h_2 k hand =>
    rw [Highlight.tokenCategory, pure_eq_ok]
    exact hand
  case h_4 =>
    rw [Highlight.tokenCategory, apply_ite Except.ok]
    rfl
  all_goals rfl

end Categories

/-! ## Rows -/

/-- The highlights that are found by indices are those that are found along the lists. -/
theorem highlight_eq_ok (tokens : List Located) :
    highlight tokens = .ok (OpsLang.highlight tokens) := by
  let ts := tokens.map Located.token
  let shown (r : Located × Nat) : Highlight :=
    ⟨r.1.span, Highlight.tokenCategory (leftOf ts r.2) r.1.token (rightOf ts r.2)⟩
  have hshown : ∀ r ∈ tokens.zipIdx.filter fun r => r.1.token != .eof,
      (do return (⟨r.1.span, ← tokenCategory ts r.2⟩ : Highlight)) = Except.ok (shown r) := by
    intro r hr
    have hmem := List.mem_zipIdx_iff_getElem?.1 (List.mem_filter.1 hr).1
    obtain ⟨hi, htoken⟩ := List.getElem?_eq_some_iff.1 hmem
    rw [tokenCategory_eq_ok (by simpa [ts] using hi)]
    simp [shown, ts, htoken]
  have hzip : tokens.zip (categories [] ts) =
      tokens.zipIdx.map fun r => (r.1, (shown r).category) := by
    refine List.ext_getElem (by simp [length_categories, ts]) fun i h h' => ?_
    have hi : i < ts.length := by simpa [ts] using h'
    simp [getElem_categories _ _ _ hi, ts, shown]
  calc highlight tokens
    _ = .ok ((tokens.zipIdx.filter fun r => r.1.token != .eof).map shown) := mapM_eq_ok hshown
    _ = .ok (OpsLang.highlight tokens) := by
      rw [OpsLang.highlight, hzip, List.filter_map, List.map_map]
      rfl

/-- In any row and at each of its indices, the walks for the category of the token and for that of
a name stay in range, and find what is found along the lists. The ends of the dotted name stand
around the index inside the row. Arguments are skipped from any index to one that is not before it,
nor beyond the end of the row if the index itself is not. -/
theorem walks_inRange (ts : List Token) :
    (∀ i : Fin ts.length,
      tokenCategory ts i = .ok (Highlight.tokenCategory (leftOf ts i) ts[i] (rightOf ts i)) ∧
      nameCategory ts i = .ok (Highlight.nameCategory (leftOf ts i) (rightOf ts i)) ∧
      ∃ start last, pathBounds ts i = .ok (start, last) ∧
        start ≤ i ∧ i ≤ last ∧ last < ts.length) ∧
    ∀ i, ∃ j, skipArguments ts i = .ok j ∧ i ≤ j ∧ j ≤ max i ts.length := by
  constructor
  · intro i
    obtain ⟨start, last, hbounds, hle, hge, hlt, -, -⟩ := pathBounds_eq_ok i.isLt
    exact ⟨tokenCategory_eq_ok i.isLt, nameCategory_eq_ok i.isLt, start, last, hbounds, hle, hge,
      hlt⟩
  · intro i
    obtain ⟨j, hskip, hle, hmax, -⟩ := skipArguments_eq_ok ts i
    exact ⟨j, hskip, hle, hmax⟩

/-- Beyond the row there is no token to find a category for. -/
example : tokenCategory [.symbol .dot, .name "b", .symbol .dot] 3 = .error (.outside 3 3) := by
  cbv

end OpsLang.Highlight.Indexed
