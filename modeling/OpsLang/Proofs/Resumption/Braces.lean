import OpsLang.Proofs.Taking
import OpsLang.Proofs.Termination

/-!
# Braces around declarations

What is read as a declaration opens as many braces as it closes (`balances_declaration`), so a
declaration that is read where no brace is open leaves none open. `openBraces` counts along a row
as the skipping between items does : a brace that closes nothing is passed over.
-/

namespace OpsLang

variable {m n : Nat} {ts us : List Token}

/-- The number of braces that are open behind the tokens, if `depth` are open in front of
them. -/
def openBraces (depth : Nat) (ts : List Token) : Nat :=
  ts.foldl Grammar.braceDepth depth

@[simp]
theorem openBraces_nil : openBraces n [] = n := rfl

@[simp]
theorem openBraces_cons (t : Token) :
    openBraces n (t :: ts) = openBraces (Grammar.braceDepth n t) ts := rfl

@[simp]
theorem openBraces_append : openBraces n (ts ++ us) = openBraces (openBraces n ts) us :=
  List.foldl_append

theorem braceDepth_le (h : m ≤ n) (t : Token) :
    Grammar.braceDepth m t ≤ Grammar.braceDepth n t := by
  unfold Grammar.braceDepth
  split
  · omega
  · split <;> omega

/-- Behind a row more braces are open if more are in front of it. -/
theorem openBraces_le (h : m ≤ n) (ts : List Token) : openBraces m ts ≤ openBraces n ts := by
  induction ts generalizing m n with
  | nil => exact h
  | cons t ts ih => exact ih (braceDepth_le h t)

/-- The tokens open as many braces as they close, and close none that stand before them. -/
def Balanced (ts : List Token) : Prop :=
  ∀ n, openBraces n ts = n

namespace Balanced

theorem nil : Balanced [] :=
  fun _ => rfl

theorem append (h : Balanced ts) (h' : Balanced us) : Balanced (ts ++ us) := by
  intro n
  rw [openBraces_append, h, h']

theorem single {t : Token} (h : t ≠ .symbol .leftBrace) (h' : t ≠ .symbol .rightBrace) :
    Balanced [t] := by
  intro n
  rw [openBraces_cons, openBraces_nil, Grammar.braceDepth, if_neg h, if_neg h']

theorem cons {t : Token} (h : t ≠ .symbol .leftBrace) (h' : t ≠ .symbol .rightBrace)
    (hts : Balanced ts) : Balanced (t :: ts) :=
  (single h h').append hts

/-- What stands between braces is balanced if what is behind the first one closes just that. -/
theorem braces (h : ∀ n, openBraces (n + 1) ts = n) : Balanced (.symbol .leftBrace :: ts) := by
  intro n
  rw [openBraces_cons, Grammar.braceDepth, if_pos rfl, h]

theorem semicolons (h : ∀ t ∈ ts, t = .symbol .semicolon) : Balanced ts := by
  induction ts with
  | nil => exact nil
  | cons t ts ih =>
    obtain ⟨rfl, hts⟩ := List.forall_mem_cons.1 h
    exact (ih hts).cons (by simp) (by simp)

end Balanced

/-! ## Readers -/

namespace Reader

variable {α β : Type}

/-- The tokens that the reader takes for a value are balanced. -/
def Balances (r : Reader α) : Prop :=
  r.Takes fun _ ts => Balanced ts

theorem Balances.bind {r : Reader α} {f : α → Reader β} (h : r.Balances)
    (hf : ∀ a, (f a).Balances) : (r >>= f).Balances := by
  refine (Takes.bind h hf).mono ?_
  rintro b ts ⟨a, us, vs, hus, hvs, rfl⟩
  exact hus.append hvs

theorem Balances.ite {c : Prop} [Decidable c] {r r' : Reader α} (h : r.Balances)
    (h' : r'.Balances) : (if c then r else r').Balances :=
  Takes.ite (fun _ => h) fun _ => h'

theorem Balances.many {round : Reader (Turn α)} (h : round.Balances) :
    Balances (Reader.many round) := by
  refine (takes_many h).mono fun as ts hts => ?_
  induction hts with
  | stop h => exact h
  | pass h _ ih => exact h.append ih
  | item h _ ih => exact h.append ih
  | last h => exact h

theorem balances_pure (a : α) : (pure a : Reader α).Balances := by
  refine (takes_pure a).mono ?_
  rintro b ts ⟨-, rfl⟩
  exact .nil

theorem balances_peek : peek.Balances := by
  refine takes_peek.mono ?_
  rintro t ts rfl
  exact .nil

theorem balances_failAt (d : Stream → Diagnostic) : (failAt d : Reader α).Balances :=
  takes_failAt d

theorem balances_symbol {y : Symbol} (h : y ≠ .leftBrace) (h' : y ≠ .rightBrace) :
    (symbol y).Balances := by
  refine (takes_symbol y).mono ?_
  rintro _ ts rfl
  exact .single (by simpa using h) (by simpa using h')

theorem balances_name (what : String) : (name what).Balances := by
  refine (takes_name what).mono ?_
  rintro n ts rfl
  exact .single (by simp) (by simp)

theorem balances_member (what : String) : (member what).Balances := by
  refine (takes_member what).mono ?_
  rintro n ts ⟨t, rfl | ⟨rfl, -⟩, rfl⟩
  · exact .single (by simp) (by simp)
  · exact .single (by simp) (by simp)

theorem balances_eat {t : Token} (ht : t ≠ .eof) (h : t ≠ .symbol .leftBrace)
    (h' : t ≠ .symbol .rightBrace) : (eat t).Balances := by
  have hskip : (do if ← eat t then return true else return false : Reader Bool).Takes
      fun _ ts => Balanced ts := by
    refine (Takes.ifEat ht (takes_pure true) (takes_pure false)).mono ?_
    rintro b ts (⟨_, ⟨-, rfl⟩, rfl⟩ | ⟨-, rfl⟩)
    · exact .single h h'
    · exact .nil
  intro s b s' hs hr
  refine hskip hs (a := b) ?_
  rw [bind_run, hr, Outcome.andThen_ok]
  cases b <;> rfl

theorem balances_semicolons : semicolons.Balances := by
  intro s _ s' hs h
  obtain ⟨us, hus, hall, -⟩ := semicolons_eq_ok hs.closed h
  exact ⟨us, hus, .semicolons (forall_mem_words.2 hall)⟩

/-- A token that is passed over is taken with what is read behind it. -/
theorem Balances.of_advance {o : Outcome α} {s s' : Stream} {a : α} (hs : s.Ends)
    (he : s.token ≠ .eof) (h : s.token ≠ .symbol .leftBrace) (h' : s.token ≠ .symbol .rightBrace)
    {r : Reader α} (hr : r.Balances) (ho : r s.advance = o) (hok : o = .ok a s') :
    ∃ us, s = s'.behind us ∧ Balanced (words us) := by
  obtain ⟨us, hus, hbalanced⟩ := hr hs.advance (ho.trans hok)
  exact ⟨s.here :: us, hs.eq_behind_cons he hus, hbalanced.cons h h'⟩

end Reader

namespace Grammar

open Reader

/-! ## Types -/

theorem balances_path : path.Balances := by
  have hround : memberRound.Balances :=
    (balances_eat (by simp) (by simp) (by simp)).bind fun _ =>
      ((balances_member _).bind fun _ => balances_pure _).ite (balances_pure _)
  exact (balances_name _).bind fun _ => hround.many.bind fun _ => balances_pure _

theorem balances_namedType : namedType.Balances := by
  refine balances_path.bind fun p => ?_
  split
  · split <;> exact balances_pure _
  · exact balances_pure _

theorem balances_arraySize : arraySize.Balances := by
  intro s n s' hs h
  rw [arraySize_run] at h
  split at h
  · next lexeme ht =>
    split at h
    · exact Balances.of_advance hs (by simp [ht]) (by simp [ht]) (by simp [ht]) (balances_pure _)
        rfl h
    · cases h
  · cases h

section Types

variable {inner : Reader TypeExpr} (h : inner.Balances)

include h

theorem balances_arrayType : (arrayType inner).Balances :=
  (balances_symbol (by simp) (by simp)).bind fun _ => h.bind fun _ =>
    (balances_symbol (by simp) (by simp)).bind fun _ => balances_arraySize.bind fun _ =>
      (balances_symbol (by simp) (by simp)).bind fun _ => balances_pure _

theorem balances_structType : (structType inner).Balances := by
  have hfield : (field inner).Balances :=
    (balances_member _).bind fun _ => (balances_symbol (by simp) (by simp)).bind fun _ =>
      h.bind fun _ => balances_pure _
  have hround : (fieldRound inner).Balances :=
    balances_peek.bind fun _ => (balances_pure _).ite <| hfield.bind fun _ =>
      (balances_eat (by simp) (by simp) (by simp)).bind fun _ =>
        (balances_pure _).ite (balances_pure _)
  rw [structType_eq]
  refine ((takes_keyword .struct).bind fun _ => (takes_symbol .leftBrace).bind fun _ =>
    Takes.bind hround.many fun fs => (takes_symbol .rightBrace).bind fun _ =>
      takes_pure (TypeExpr.struct fs)).mono ?_
  rintro _ _ ⟨_, _, _, rfl, ⟨_, _, _, rfl, ⟨fs, us, _, hfs, ⟨_, _, _, rfl, ⟨rfl, rfl⟩, rfl⟩,
    rfl⟩, rfl⟩, rfl⟩
  refine Balanced.cons (by simp) (by simp) (.braces fun n => ?_)
  simp [hfs (n + 1), braceDepth]

theorem balances_typeOf : (typeOf inner).Balances := by
  refine balances_peek.bind fun t => ?_
  split
  · exact balances_structType h
  · exact balances_arrayType h
  · exact balances_namedType
  · exact balances_failAt _

end Types

theorem balances_typeAt (room : Nat) : (typeAt room).Balances := by
  induction room with
  | zero => exact balances_failAt _
  | succ room ih => exact balances_typeOf ih

/-! ## Declarations -/

/-- The rounds of a namespace close the brace in front of them. -/
theorem openBraces_of_children {inner : Reader Declaration} (h : inner.Balances) :
    Takes (many (childRound inner)) fun _ ts => ∀ n, openBraces (n + 1) ts = n := by
  have hround : (childRound inner).Takes fun t ts =>
      (t = .stop → ∀ n, openBraces (n + 1) ts = n) ∧
        (t ≠ .stop → (∃ d, t = .item d) ∧ Balanced ts) := by
    intro s t s' hs hr
    rw [childRound_run, Outcome.andThen_eq_ok] at hr
    obtain ⟨u, s₁, hsemi, hr⟩ := hr
    obtain ⟨us, rfl, hus⟩ := balances_semicolons hs hsemi
    have hs₁ := hs.of_behind
    have hitem : (inner s₁).map Turn.item = .ok t s' → ∃ vs, s₁.behind us = s'.behind vs ∧
        (t = .stop → ∀ n, openBraces (n + 1) (words vs) = n) ∧
          (t ≠ .stop → (∃ d, t = .item d) ∧ Balanced (words vs)) := by
      intro hr
      obtain ⟨d, hd, rfl⟩ := Outcome.map_eq_ok.1 hr
      obtain ⟨vs, rfl, hvs⟩ := h hs₁ hd
      refine ⟨us ++ vs, Stream.behind_append.symm, nofun, fun _ => ⟨⟨d, rfl⟩, ?_⟩⟩
      rw [words_append]
      exact hus.append hvs
    split at hr
    · next hclose =>
      cases hr
      refine ⟨us ++ [s₁.here], ?_, fun _ n => ?_, fun hne => absurd rfl hne⟩
      · rw [Stream.behind_append, hs₁.behind_here (by simp [hclose])]
      · rw [words_append, openBraces_append, hus]
        show openBraces (n + 1) [s₁.token] = n
        simp [hclose, braceDepth]
    · exact hitem hr
    · exact hitem hr
    · cases hr
  refine (takes_many hround).mono fun ds ts hts => ?_
  induction hts with
  | stop h => exact h.1 rfl
  | pass h => simpa using (h.2 nofun).1
  | item h _ ih =>
    intro n
    rw [openBraces_append, (h.2 nofun).2, ih]
  | last h => simpa using (h.2 nofun).1

theorem balances_declarationOf {type : Reader TypeExpr} {inner : Reader Declaration}
    (ht : type.Balances) (hi : inner.Balances) : (declarationOf type inner).Balances := by
  intro s d s' hs h
  rw [declarationOf_run] at h
  split at h
  · next htoken =>
    rw [namespaceDeclaration_run] at h
    refine Balances.of_advance hs (by simp [htoken]) (by simp [htoken]) (by simp [htoken]) ?_ rfl h
    refine balances_path.bind fun p => ?_
    refine ((takes_symbol .leftBrace).bind fun _ => (openBraces_of_children hi).bind fun ds =>
      takes_pure (Declaration.space p ds s.line)).mono ?_
    rintro _ _ ⟨_, _, _, rfl, ⟨ds, us, _, hus, ⟨rfl, rfl⟩, rfl⟩, rfl⟩
    exact .braces fun n => by simpa using hus n
  · next htoken =>
    rw [typeDeclaration_run] at h
    refine Balances.of_advance hs (by simp [htoken]) (by simp [htoken]) (by simp [htoken]) ?_ rfl h
    refine (balances_name _).bind fun n => (balances_typeOf ht).bind fun t => ?_
    cases t with
    | named p => exact balances_failAt _
    | _ => exact balances_pure _
  · cases h

theorem balances_declarationAt (room : Nat) : (declarationAt room).Balances := by
  induction room with
  | zero => exact balances_failAt _
  | succ room ih => exact balances_declarationOf (balances_typeAt room) ih

/-- A declaration opens as many braces as it closes. -/
theorem balances_declaration (room : Nat) : (declaration room).Balances :=
  balances_declarationOf (balances_typeAt room) (balances_declarationAt room)

end Grammar

end OpsLang
