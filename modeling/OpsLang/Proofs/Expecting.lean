import OpsLang.Proofs.Blaming
import OpsLang.Proofs.Forking.File
import OpsLang.Proofs.Separated
import OpsLang.Proofs.Spelling.File

/-!
# What a refusal lists

A refusal for the grammar lists what could have stood at its place, and this is true of every
entry : if the tokens in front of the place go on with what the entry describes, they are read
beyond it (`parseFile_expects`).

The row that was refused and the row that goes on as the entry says begin with the same tokens, so
the theorem is one about readings that fork (`Grammar.forked_items`). Since the tokens of a text
have spans of their own, the span of the refusal tells where they do (`lists_of_refused`).

At the nesting limit a declaration is listed inside a namespace but too deep there
(`parseFile_expects_too_deep`).
-/

namespace OpsLang

/-! ## What an entry describes -/

namespace Wanted

/-- The tokens are such as the entry describes. -/
def Describes : Wanted → List Token → Prop
  | keyword k, ts => ts = [.keyword k]
  | symbol y, ts => ts = [.symbol y]
  | closer kind, ts => ts = [.keyword .end_, .keyword kind.closer]
  | name _, ts => ∃ n, ts = [.name n]
  | expression, ts => ∃ e : Expr, e.Spells ts
  | statement, ts => ∃ st : Statement, st.Spells .eof ts
  | type, ts => ∃ t : TypeExpr, t.Spells ts
  | integer, ts => ∃ x n, ts = [.number x] ∧ (Numeral.ofLexeme x).toUInt64? = some n

/-- A simple row that the entry describes. -/
def sample : Wanted → List Token
  | keyword k => [.keyword k]
  | symbol y => [.symbol y]
  | closer kind => [.keyword .end_, .keyword kind.closer]
  | name _ => [.name "a"]
  | expression => [.number "1"]
  | statement => [.keyword .initiate, .name "a"]
  | type => [.name "a"]
  | integer => [.number "1"]

theorem describes_sample (w : Wanted) : w.Describes w.sample := by
  cases w with
  | keyword => rfl
  | symbol => rfl
  | closer => rfl
  | name => exact ⟨"a", rfl⟩
  | expression => exact ⟨.number (.ofLexeme "1"), rfl⟩
  | statement =>
    exact ⟨.activity .initiate ⟨["a"]⟩ [] 1, [.name "a"], rfl,
      ⟨[.name "a"], ⟨_, rfl, rfl⟩, .inl ⟨rfl, rfl, by simp⟩⟩, by simp⟩
  | type => exact ⟨.named ⟨["a"]⟩, ⟨_, rfl, rfl⟩⟩
  | integer => exact ⟨"1", 1, rfl, by cbv⟩

section Streams

variable {w : Wanted} {y : Stream} (h : words y.row = w.sample ++ [Token.eof])

include h

theorem token_of_sample {t : Token} {ts : List Token} (hs : w.sample = t :: ts) :
    y.token = t ∧ some y.next = (ts ++ [Token.eof]).head? := by
  obtain ⟨u, ahead⟩ := y
  rw [hs, List.cons_append] at h
  obtain ⟨htoken, hahead⟩ := List.cons.inj h
  refine ⟨htoken, ?_⟩
  rw [← hahead]
  cases ahead with
  | nil => simp at hahead
  | cons u' ahead => rfl

/-- Before the end of a row the sample opens as the entry wants. -/
theorem opens_of_sample : w.Opens y := by
  cases w with
  | closer =>
    obtain ⟨hend, hnext⟩ := token_of_sample h rfl
    exact ⟨hend, Option.some.inj hnext⟩
  | keyword => exact (token_of_sample h rfl).1
  | symbol => exact (token_of_sample h rfl).1
  | name => exact ⟨"a", (token_of_sample h rfl).1⟩
  | expression => exact ⟨"1", (token_of_sample h rfl).1⟩
  | statement => exact (token_of_sample h rfl).1
  | type => exact ⟨"a", (token_of_sample h rfl).1⟩
  | integer => exact ⟨"1", 1, (token_of_sample h rfl).1, by cbv⟩

theorem stops_of_sample (hw : w.stops = true) : y.Stops where
  closed := by
    have hlast : (words y.row).getLast? = some .eof := by rw [h]; simp
    rw [words, List.getLast?_map, Option.map_eq_some_iff] at hlast
    obtain ⟨t, ht, heof⟩ := hlast
    exact ⟨t, ht, heof⟩
  stops := by
    cases w with
    | keyword => rwa [(token_of_sample h rfl).1]
    | symbol => rwa [(token_of_sample h rfl).1]
    | _ => rw [(token_of_sample h rfl).1]; rfl
  next := by
    cases w <;>
    · rw [Option.some.inj (token_of_sample h rfl).2]
      simp

end Streams

end Wanted

/-! ## Rows that go on otherwise -/

/-- No two tokens of a text have the same span. -/
theorem tokenize_nodup {text : String} {ts : List Located} (h : tokenize text = .ok ts) :
    (ts.map (·.span)).Nodup := by
  have hordered := (tokensFrom_laid h).ordered
  obtain ⟨us, e, rfl, -, -, -, hus⟩ := tokenize_last h
  -- Only the last span is empty, so no other one begins where it stops.
  have hne : (us ++ [e]).Pairwise fun t u => t.span ≠ u.span := by
    obtain ⟨hinner, hlast, hacross⟩ := List.pairwise_append.1 hordered
    have hlt : ∀ t ∈ us, ∀ u : Located, t.span.stop ≤ u.span.start → t.span ≠ u.span := by
      intro t ht u hle heq
      have hstart := (hus t ht).2
      rw [heq] at hstart hle
      omega
    exact List.pairwise_append.2 ⟨hinner.imp_of_mem fun ht _ hle => hlt _ ht _ hle,
      List.pairwise_singleton _ _, fun t ht u hu => hlt t ht u (hacross t ht u hu)⟩
  exact List.pairwise_map.2 hne

open Grammar

theorem Stream.Closed.row_eq {s : Stream} (hs : s.Closed) (h : s.token ≠ .eof) :
    s.row = s.here :: s.advance.row := by
  rw [← List.singleton_append, ← row_behind, hs.behind_here h]

/-- Where the spans of a row are all different, a refusal tells where it lies, and what comes of
any row that goes on from there in another way. -/
theorem lists_of_refused {us : List Located} {x y : Stream} {d : Diagnostic}
    (hspans : ((us ++ x.row).map (·.span)).Nodup) (hx : x.Closed)
    (hd : parseFile (us ++ x.row) = .refused d) (hspan : d.span = x.here.span) (hy : y.Stops) :
    Lists x y d (Reader.many (fileRoundAt maxNesting) (y.behind us)) := by
  have hfork : Forked x y True _ us (Reader.many (fileRoundAt maxNesting) (x.behind us))
      (Reader.many (fileRoundAt maxNesting) (y.behind us)) := forked_items hx hy us
  rw [parseFile_eq, fileRound_outcome, Stream.ofTokens_append_row] at hd
  rw [List.map_append, List.nodup_append] at hspans
  obtain ⟨-, hrow, hacross⟩ := hspans
  generalize Reader.many (fileRoundAt maxNesting) (x.behind us) = o at hd hfork
  generalize Reader.many (fileRoundAt maxNesting) (y.behind us) = o' at hfork
  cases o with
  | ok => cases hd
  | endless => cases hd
  | fail d' s =>
    obtain rfl := Verdict.refused.inj hd
    cases hfork with
    | before hd' _ =>
      obtain ⟨u, hu, heq⟩ := hd'
      refine absurd (heq.symm.trans hspan) (hacross _ (List.mem_map_of_mem hu) _ ?_)
      exact List.mem_map_of_mem List.mem_cons_self
    | here h => exact h
    | behind hp =>
      obtain ⟨hne, p, hp, heq⟩ := hp
      rw [hx.row_eq hne, List.map_cons, List.nodup_cons] at hrow
      exact absurd (hspan.symm.trans heq ▸ List.mem_map_of_mem hp.here_mem) hrow.1

/-- What is admitted in front of `y` and refused is refused behind the token there, or is a
declaration that is too deep. -/
theorem Wanted.Admits.refused {w : Wanted} {us : List Located} {y : Stream} {d : Diagnostic}
    (h : w.Admits y (Reader.many (fileRoundAt maxNesting) (y.behind us))) (hy : y.Closed)
    (hd : parseFile (us ++ y.row) = .refused d) :
    (∃ q, us.length < q ∧ ∃ hq : q < (us ++ y.row).length, (us ++ y.row)[q].span = d.span) ∨
      w.IsDeclaration ∧ d.IsTooDeep ∧ ∃ v ∈ y.row.head?, d.span = v.span := by
  rw [parseFile_eq, fileRound_outcome, Stream.ofTokens_append_row] at hd
  generalize Reader.many (fileRoundAt maxNesting) (y.behind us) = o at hd h
  cases o with
  | ok => cases hd
  | endless => cases hd
  | fail d' s =>
    obtain rfl := Verdict.refused.inj hd
    obtain ⟨hne, p, ⟨vs, hvs⟩, heq⟩ | ⟨hw, s', hs'⟩ := h
    · have hrow : us ++ y.row = (us ++ y.here :: vs) ++ p.row := by
        rw [hy.row_eq hne, hvs, Stream.row_behind]
        simp
      simp only [hrow]
      refine .inl ⟨(us ++ y.here :: vs).length, by simp, by simp [Stream.row], ?_⟩
      simp [Stream.row, heq]
    · obtain ⟨rfl, -⟩ := Outcome.fail.inj hs'
      exact .inr ⟨hw, ⟨y, rfl⟩, y.here, rfl, rfl⟩

/-- What a refusal lists is true : for every entry there are tokens such as it describes, and if
these and the end of the text stand where the refusal points, then whatever is refused lies behind
that place. Only a declaration may be refused there, as too deep. This is so of all refusals for
the grammar but that of a type that is declared as a mere name. -/
theorem parseFile_expects {text : String} {ts : List Located} {d : Diagnostic}
    (h : tokenize text = .ok ts) (hd : parseFile ts = .refused d) (hlisting : d.IsListing) :
    ∃ p, ∃ hp : p < ts.length, ts[p].span = d.span ∧
      ∀ entry ∈ d.expected, ∃ (w : Wanted) (row : List Token), w.text = entry ∧ w.Describes row ∧
        ∀ (vs : List Located) (d' : Diagnostic), words vs = row ++ [.eof] →
          parseFile (ts.take p ++ vs) = .refused d' →
            (∃ q, p < q ∧ ∃ hq : q < (ts.take p ++ vs).length,
              (ts.take p ++ vs)[q].span = d'.span) ∨
              w.IsDeclaration ∧ d'.IsTooDeep ∧ ∃ v ∈ vs.head?, d'.span = v.span := by
  have honce := endsOnce_of_tokenize h
  obtain ⟨us, x, rfl, hblames⟩ := parseFile_refused_at honce hd
  have hx : x.Closed := by
    have hrow := (Stream.ends_ofTokens honce).closed
    rw [Stream.ofTokens_append_row] at hrow
    exact hrow.of_behind
  have hlists : ∀ {y : Stream}, y.Stops →
      Lists x y d (Reader.many (fileRoundAt maxNesting) (y.behind us)) :=
    lists_of_refused (tokenize_nodup h) hx hd hblames.span
  refine ⟨us.length, by simp [Stream.row], by simp [Stream.row, hblames.span],
    fun entry hentry => ?_⟩
  have hend : Stream.Stops ⟨⟨.eof, x.here.span⟩, []⟩ := 
    ⟨Stream.closed_single.2 rfl, rfl, by simp [Stream.next]⟩
  obtain ⟨w, rfl, hw⟩ := (hlists hend).entries hlisting entry hentry
  refine ⟨w, w.sample, rfl, w.describes_sample, fun vs d' hvs hd' => ?_⟩
  obtain ⟨v, vs, rfl⟩ : ∃ v vs', vs = v :: vs' := List.exists_cons_of_ne_nil (by
    rintro rfl
    simp [words] at hvs)
  have hy : Stream.Stops ⟨v, vs⟩ := Wanted.stops_of_sample hvs hw
  rw [List.take_left] at hd' ⊢
  exact ((hlists hy).admits hlisting w hentry (Wanted.opens_of_sample hvs)).refused hy.closed hd'

/-- The end of a loop where that of a condition is wanted. -/
theorem parseFile_expects_closer :
    ∃ ts d, tokenize "procedure P main if a then end while" = .ok ts ∧
      parseFile ts = .refused d ∧ d.IsListing ∧
      ∃ p, ∃ hp : p < ts.length, ts[p].span = d.span ∧
        ∀ entry ∈ d.expected, ∃ (w : Wanted) (row : List Token), w.text = entry ∧
          w.Describes row ∧
            ∀ (vs : List Located) (d' : Diagnostic), words vs = row ++ [.eof] →
              parseFile (ts.take p ++ vs) = .refused d' →
                (∃ q, p < q ∧ ∃ hq : q < (ts.take p ++ vs).length,
                  (ts.take p ++ vs)[q].span = d'.span) ∨
                  w.IsDeclaration ∧ d'.IsTooDeep ∧ ∃ v ∈ vs.head?, d'.span = v.span := by
  have hts : tokenize "procedure P main if a then end while" = .ok
      [⟨.keyword .procedure, ⟨0, 9, 1, 1⟩⟩, ⟨.name "P", ⟨10, 11, 1, 11⟩⟩,
        ⟨.keyword .main, ⟨12, 16, 1, 13⟩⟩, ⟨.keyword .if_, ⟨17, 19, 1, 18⟩⟩,
        ⟨.name "a", ⟨20, 21, 1, 21⟩⟩, ⟨.keyword .then_, ⟨22, 26, 1, 23⟩⟩,
        ⟨.keyword .end_, ⟨27, 30, 1, 28⟩⟩, ⟨.keyword .while_, ⟨31, 36, 1, 32⟩⟩,
        ⟨.eof, ⟨36, 36, 1, 37⟩⟩] := by cbv
  have hd : parseFile
      [⟨.keyword .procedure, ⟨0, 9, 1, 1⟩⟩, ⟨.name "P", ⟨10, 11, 1, 11⟩⟩,
        ⟨.keyword .main, ⟨12, 16, 1, 13⟩⟩, ⟨.keyword .if_, ⟨17, 19, 1, 18⟩⟩,
        ⟨.name "a", ⟨20, 21, 1, 21⟩⟩, ⟨.keyword .then_, ⟨22, 26, 1, 23⟩⟩,
        ⟨.keyword .end_, ⟨27, 30, 1, 28⟩⟩, ⟨.keyword .while_, ⟨31, 36, 1, 32⟩⟩,
        ⟨.eof, ⟨36, 36, 1, 37⟩⟩] =
      .refused (.expecting ⟨27, 30, 1, 28⟩ ["'end if'"] "'end while'") := by cbv
  have hlisting : Diagnostic.IsListing
      (.expecting ⟨27, 30, 1, 28⟩ ["'end if'"] "'end while'") := ⟨rfl, by decide⟩
  exact ⟨_, _, hts, hd, hlisting, parseFile_expects hts hd hlisting⟩

/-! ## The nesting limit -/

/-- The beginning of `n` namespaces inside one another. -/
def openNamespaces (n : Nat) : String :=
  String.ofList (List.replicate n "namespace a \x7b ".toList).flatten

/-- The tokens that begin `n` namespaces inside one another. -/
def openings (n : Nat) : List Token :=
  (List.replicate n [.keyword .namespace_, .name "a", .symbol .leftBrace]).flatten

/-- A written token with a blank behind it. -/
theorem tokensFrom_word_blank {t : Token} (ht : t.Written) (p : Place) : ∃ s q, ∀ rest,
    tokensFrom p (t.text.toList ++ ' ' :: rest) = (tokensFrom q rest).map (⟨t, s⟩ :: ·) := by
  refine ⟨p.to (p.after t.text.toList), (p.after t.text.toList).after [' '], fun rest => ?_⟩
  have hblank : ∀ q, tokensFrom q (' ' :: rest) = tokensFrom (q.after [' ']) rest :=
    fun q => (Gap.blank rfl .nil : Gap [' '] rest).tokensFrom_append q
  have hparted : Parted (' ' :: rest) := fun c hc => .inl (by cases hc; rfl)
  rw [(readOff_text ht).tokensFrom_append hparted, hblank]

theorem tokensFrom_opening (p : Place) : ∃ us q,
    words us = [.keyword .namespace_, .name "a", .symbol .leftBrace] ∧ ∀ rest,
      tokensFrom p ("namespace a \x7b ".toList ++ rest) = (tokensFrom q rest).map (us ++ ·) := by
  have hparts : ∀ rest, "namespace a \x7b ".toList ++ rest =
      (Token.keyword .namespace_).text.toList ++ ' ' :: ((Token.name "a").text.toList ++
        ' ' :: ((Token.symbol .leftBrace).text.toList ++ ' ' :: rest)) := fun _ => rfl
  have hname : IsName "a" := .of_isWord rfl rfl (by decide) rfl
  obtain ⟨s₁, q₁, h₁⟩ := tokensFrom_word_blank (t := .keyword .namespace_) trivial p
  obtain ⟨s₂, q₂, h₂⟩ := tokensFrom_word_blank (t := .name "a") hname q₁
  obtain ⟨s₃, q₃, h₃⟩ := tokensFrom_word_blank (t := .symbol .leftBrace) trivial q₂
  refine ⟨[⟨_, s₁⟩, ⟨_, s₂⟩, ⟨_, s₃⟩], q₃, rfl, fun rest => ?_⟩
  rw [hparts, h₁, h₂, h₃]
  cases tokensFrom q₃ rest <;> rfl

theorem tokensFrom_openings (n : Nat) : ∀ p, ∃ us q, words us = openings n ∧ ∀ rest,
    tokensFrom p ((List.replicate n "namespace a \x7b ".toList).flatten ++ rest) =
      (tokensFrom q rest).map (us ++ ·) := by
  induction n with
  | zero =>
    refine fun p => ⟨[], p, rfl, fun rest => ?_⟩
    cases h : tokensFrom p rest <;> simp [h, Except.map]
  | succ n ih =>
    intro p
    obtain ⟨us, q, hus, h⟩ := tokensFrom_opening p
    obtain ⟨vs, q', hvs, h'⟩ := ih q
    refine ⟨us ++ vs, q', ?_, fun rest => ?_⟩
    · rw [words_append, hus, hvs, openings, openings, List.replicate_succ, List.flatten_cons]
    · rw [List.replicate_succ, List.flatten_cons, List.append_assoc, h, h']
      cases tokensFrom q' rest <;> simp [Except.map]

namespace Grammar

open Reader

variable {room : Nat} {s s' : Stream} {d : Diagnostic}

/-- A namespace is refused where what it holds is. -/
theorem namespaceDeclaration_of_child {inner : Reader Declaration} {u v w : Located} {n : String}
    (hv : v.token = .name n) (hw : w.token = .symbol .leftBrace)
    (h : childRound inner s = .fail d s') :
    namespaceDeclaration inner (s.behind [u, v, w]) = .fail d s' := by
  have hbrace : (s.behind [w]).token ≠ .symbol .dot := by
    rw [Stream.token_behind_cons, hw]
    simp
  have hspells : Path.Spells ⟨[n]⟩ (words [v]) :=
    ⟨[], by rw [MembersSpell], congrArg (fun t => [t]) hv⟩
  have hpath : path (s.behind [v, w]) = .ok ⟨[n]⟩ (s.behind [w]) :=
    path_of_spells hbrace (List.cons_ne_nil _ _) hspells
  rw [namespaceDeclaration_run, Stream.advance_behind_cons, bind_run, hpath, Outcome.andThen_ok,
    bind_run, symbol_run, Stream.token_behind_cons, if_pos hw, Stream.advance_behind_cons,
    Outcome.andThen_ok, Stream.behind_nil]
  show (many (childRound inner) s).andThen _ = _
  rw [many_of_fail h, Outcome.andThen_fail]

/-- Inside `n` namespaces what is refused is that. -/
theorem childRound_behind_openings (h : childRound (declarationAt room) s = .fail d s') :
    ∀ {n : Nat} {us : List Located}, words us = openings n →
      childRound (declarationAt (n + room)) (s.behind us) = .fail d s' := by
  intro n
  induction n with
  | zero =>
    intro us hus
    rw [words_eq_nil.1 hus, Nat.zero_add]
    exact h
  | succ n ih =>
    intro us hus
    obtain ⟨u, us, rfl, hu, hus⟩ := words_eq_cons.1 hus
    obtain ⟨v, us, rfl, hv, hus⟩ := words_eq_cons.1 hus
    obtain ⟨w, us, rfl, hw, hus⟩ := words_eq_cons.1 hus
    have hnamespace := namespaceDeclaration_of_child (u := u) hv hw (ih hus)
    rw [← Stream.behind_append] at hnamespace
    have htoken : (s.behind (u :: v :: w :: us)).token = .keyword .namespace_ := hu
    have hdeclaration : declarationAt (n + 1 + room) (s.behind (u :: v :: w :: us)) =
        .fail d s' := by
      rw [Nat.add_right_comm, declarationAt, declarationOf_run, htoken]
      exact hnamespace
    rw [childRound_run, semicolons_of_ne (by simp [htoken]), Outcome.andThen_ok, htoken]
    exact Outcome.map_eq_fail.2 hdeclaration

end Grammar

/-- What is refused inside more namespaces than fit is refused in the file. -/
theorem parseFile_openings {s s' : Stream} {d : Diagnostic} {us : List Located}
    (h : childRound (declarationAt 0) s = .fail d s') (hus : words us = openings 129) :
    parseFile (us ++ s.row) = .refused d := by
  obtain ⟨u, us, rfl, hu, hus⟩ := words_eq_cons.1 hus
  obtain ⟨v, us, rfl, hv, hus⟩ := words_eq_cons.1 hus
  obtain ⟨w, us, rfl, hw, hus⟩ := words_eq_cons.1 hus
  have hnamespace := namespaceDeclaration_of_child (u := u) hv hw
    (childRound_behind_openings h (n := 128) hus)
  rw [← Stream.behind_append] at hnamespace
  have htoken : (s.behind (u :: v :: w :: us)).token = .keyword .namespace_ := hu
  have hround : fileRoundAt maxNesting (s.behind (u :: v :: w :: us)) = .fail d s' := by
    rw [fileRoundAt_of_ne_eof (semicolons_of_ne (by simp [htoken]))
      (by simp [htoken]), itemAt_run, htoken]
    refine Outcome.map_eq_fail.2 (Outcome.map_eq_fail.2 ?_)
    rw [declaration, declarationOf_run, htoken]
    exact hnamespace
  rw [parseFile_eq, fileRound_outcome, Stream.ofTokens_append_row, Reader.many_of_fail hround]
  rfl

/-- Inside as many namespaces as fit the end of the text is refused, because a namespace, a type or
the end of the last namespace is wanted. But a namespace is refused there as well. -/
theorem parseFile_expects_too_deep :
    ∃ us e v e' d d', tokenize (openNamespaces 129) = .ok (us ++ [e]) ∧
      parseFile (us ++ [e]) = .refused d ∧ d.IsListing ∧ d.span = e.span ∧
      d.found = some e.token.describe ∧ "'namespace'" ∈ d.expected ∧
      tokenize (openNamespaces 129 ++ "namespace") = .ok (us ++ [v, e']) ∧
      v.token = .keyword .namespace_ ∧ e'.token = .eof ∧
      parseFile (us ++ [v, e']) = .refused d' ∧ d'.span = v.span := by
  obtain ⟨us, q, hus, h⟩ := tokensFrom_openings 129 .origin
  have htext : tokenize (openNamespaces 129) = .ok (us ++ [⟨.eof, q.to q⟩]) := by
    rw [tokenize, openNamespaces, String.toList_ofList, ← List.append_nil (List.flatten _), h,
      tokensFrom.eq_1]
    rfl
  obtain ⟨v, e', hv, he', hwords⟩ : ∃ v e', v.token = .keyword .namespace_ ∧ e'.token = .eof ∧
      tokensFrom q "namespace".toList = .ok [v, e'] := by
    have hparted : Parted [] := fun c hc => by simp at hc
    have hword := (readOff_text (t := .keyword .namespace_) trivial).tokensFrom_append hparted q
    rw [List.append_nil, tokensFrom.eq_1] at hword
    exact ⟨_, _, rfl, rfl, hword⟩
  have htext' : tokenize (openNamespaces 129 ++ "namespace") = .ok (us ++ [v, e']) := by
    rw [tokenize, openNamespaces, String.toList_append, String.toList_ofList, h, hwords]
    rfl
  have hend : childRound (declarationAt 0) ⟨⟨.eof, q.to q⟩, []⟩ =
      .fail (Stream.expecting ⟨⟨.eof, q.to q⟩, []⟩ ["'namespace'", "'type'", "'\x7d'"])
        ⟨⟨.eof, q.to q⟩, []⟩ := by
    have htoken : Stream.token ⟨⟨.eof, q.to q⟩, []⟩ = .eof := rfl
    rw [childRound_run, semicolons_of_ne (by simp [htoken])]
    rfl
  have hdeep : childRound (declarationAt 0) ⟨v, [e']⟩ =
      .fail (Stream.tooDeep ⟨v, [e']⟩) ⟨v, [e']⟩ := by
    have htoken : Stream.token ⟨v, [e']⟩ = .keyword .namespace_ := hv
    rw [childRound_run, semicolons_of_ne (by simp [htoken]), Outcome.andThen_ok, htoken]
    rfl
  have hlisting : ["'namespace'", "'type'", "'\x7d'"] ≠ ["'struct'", "'['", "primitive type"] := by
    decide
  exact ⟨us, _, v, e', _, _, htext, parseFile_openings hend hus, ⟨rfl, hlisting⟩, rfl, rfl,
    List.mem_cons_self, htext', hv, he', parseFile_openings hdeep hus, rfl⟩

end OpsLang
