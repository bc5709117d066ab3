import OpsLang.Proofs.Separated

/-!
# What a word is read as

The word at the front of a text is its longest beginning of letters, digits and `_`. `ReadsWord`
says what it is read as, in terms of the spellings alone : a keyword or a truth value if it spells
one, else the longest unit that is spelled there and ends where a word may end, else a name.

The reader looks for a unit in the whole rest of the text, and not in the word, since a unit may
go on behind a slash. That it never comes to one that is shorter than the word is due to where a
unit may end (`takeWhile_prefix_of_fits`), and not to the table of units; so no word is split
(`tokenize_word`).
-/

namespace OpsLang

/-! ## Units at the front of a text -/

/-- The unit is spelled at the front of the text, and no word goes on behind it. -/
def Fits (u : String) (cs : List Char) : Prop :=
  u ∈ unitSpellings ∧ ∃ rest, cs = u.toList ++ rest ∧ ∀ c ∈ rest.head?, isWordChar c = false

/-- The unit is the longest that is spelled at the front of the text. -/
def LongestFits (u : String) (cs : List Char) : Prop :=
  Fits u cs ∧ ∀ v, Fits v cs → v.length ≤ u.length

theorem fits_iff {u : String} {cs : List Char} :
    Fits u cs ↔ u ∈ unitSpellings ∧ unitAtFront cs u = true := by
  simp only [Fits, unitAtFront_iff, atWordEnd_iff]

/-- A unit at the front of a text begins with the word there. -/
theorem takeWhile_prefix_of_fits {u : String} {cs : List Char} (h : Fits u cs) :
    cs.takeWhile isWordChar <+: u.toList := by
  obtain ⟨-, rest, rfl, hrest⟩ := h
  rw [takeWhile_append_of_head hrest]
  exact List.takeWhile_prefix _

theorem longestFits_of_longestUnit {u : String} {cs : List Char} (h : longestUnit cs = some u) :
    LongestFits u cs := by
  obtain ⟨hfits, hle⟩ := longestUnit_eq_some h
  refine ⟨fits_iff.2 hfits, fun v hv => ?_⟩
  obtain ⟨hmem, hfront⟩ := fits_iff.1 hv
  exact hle v hmem hfront

theorem not_fits_of_longestUnit {cs : List Char} (h : longestUnit cs = none) (u : String) :
    ¬Fits u cs := by
  intro hfits
  obtain ⟨hmem, hfront⟩ := fits_iff.1 hfits
  rw [longestUnit_eq_none h hmem] at hfront
  cases hfront

/-! ## The classes of words -/

/-- The word is reserved for a keyword or a truth value. -/
def Reserved (w : String) : Prop :=
  (∃ k : Keyword, k.text = w) ∨ ∃ b, truthText b = w

/-- What the word `w` at the front of the text `cs` is read as, with the part of the text that
is taken for it. -/
inductive ReadsWord (cs : List Char) (w : String) : Token → String → Prop
  | keyword {k : Keyword} (h : k.text = w) : ReadsWord cs w (.keyword k) w
  | truth {b : Bool} (h : truthText b = w) : ReadsWord cs w (.truth b) w
  | unit {u : String} (hw : ¬Reserved w) (hu : LongestFits u cs) : ReadsWord cs w (.unit u) u
  | name (hw : ¬Reserved w) (hnone : ∀ u, ¬Fits u cs) : ReadsWord cs w (.name w) w

/-- What is taken for a word covers it. -/
theorem ReadsWord.covers {cs : List Char} {t : Token} {slice : String}
    (h : ReadsWord cs (String.ofList (cs.takeWhile isWordChar)) t slice) :
    cs.takeWhile isWordChar <+: slice.toList := by
  cases h with
  | unit _ hu => exact takeWhile_prefix_of_fits hu.1
  | keyword | truth | name =>
    rw [String.toList_ofList]

theorem not_reserved {w : String} (hk : Keyword.ofText? w = none) (ht : w ≠ "true")
    (hf : w ≠ "false") : ¬Reserved w := by
  rintro (⟨k, rfl⟩ | ⟨b, rfl⟩)
  · rw [k.ofText?_text] at hk
    cases hk
  · cases b
    · exact hf rfl
    · exact ht rfl

/-- The front of a text is read as the word there. -/
theorem readsWord_of_wordFront {cs : List Char} {t : Token} {n : Nat}
    (h : wordFront cs = (t, n)) :
    ReadsWord cs (String.ofList (cs.takeWhile isWordChar)) t t.text := by
  have hle : ∀ {u}, longestUnit cs = some u →
      (String.ofList (cs.takeWhile isWordChar)).length ≤ u.length := by
    intro u hu
    rw [String.length_ofList, ← String.length_toList]
    exact (takeWhile_prefix_of_fits (longestFits_of_longestUnit hu).1).length_le
  unfold wordFront at h
  dsimp only at h
  split at h
  · next k hk =>
    cases h
    rw [Token.text, Keyword.text_of_ofText? hk]
    exact .keyword (Keyword.text_of_ofText? hk)
  next hk =>
  split at h
  · next ht =>
    cases h
    rw [ht]
    exact .truth rfl
  next ht =>
  split at h
  · next hf =>
    cases h
    rw [hf]
    exact .truth rfl
  next hf =>
  have hword := not_reserved hk ht hf
  split at h
  · next u hu =>
    rw [if_pos (hle hu)] at h
    cases h
    exact .unit hword (longestFits_of_longestUnit hu)
  · next hnone =>
    cases h
    exact .name hword (not_fits_of_longestUnit hnone)

/-! ## The words of a text -/

/-- The text from where a stretch begins. -/
def Span.onward (s : Span) (text : String) : List Char :=
  (String.Pos.Raw.extract text ⟨s.start⟩ ⟨text.utf8ByteSize⟩).toList

theorem Span.onward_eq {text : String} {before behind : List Char} {q : Place}
    (h : text.toList = before ++ behind) :
    ((Place.origin.after before).to q).onward text = behind := by
  have hextract := String.extract_of_valid before behind []
  have hsize : text.utf8ByteSize =
      (String.ofList before).utf8ByteSize + (String.ofList behind).utf8ByteSize := by
    rw [← String.utf8ByteSize_append, ← String.ofList_append, ← h, String.ofList_toList]
  rw [List.append_nil, ← h, String.ofList_toList, ← String.utf8ByteSize_ofList,
    ← String.utf8ByteSize_ofList, ← hsize] at hextract
  rw [onward, Place.to, Place.origin_after]
  exact (congrArg String.toList hextract).trans String.toList_ofList

/-- Nothing stands in an empty stretch. -/
theorem Span.slice_empty {s : Span} (h : s.stop = s.start) (text : String) : s.slice text = "" := by
  rw [Span.slice, h, String.Pos.Raw.extract]
  simp

/-- Every token of a text that begins with a letter or `_` is what the word there is read as, and
covers that word; and no name of the text is spelled as a keyword, a truth value or a unit. -/
theorem tokenize_word {text : String} {ts : List Located} (h : tokenize text = .ok ts) :
    (∀ t ∈ ts, (∃ c ∈ (t.span.slice text).toList.head?, isWordStart c = true) →
      ReadsWord (t.span.onward text) (String.ofList ((t.span.onward text).takeWhile isWordChar))
          t.token (t.span.slice text) ∧
        (t.span.onward text).takeWhile isWordChar <+: (t.span.slice text).toList) ∧
      ∀ t ∈ ts, ∀ n, t.token = .name n → ¬Reserved n ∧ n ∉ unitSpellings := by
  obtain ⟨us, e, rfl, he, hempty, hus⟩ := tokensFrom_frontIn h
  refine ⟨fun t ht hstart => ?words, fun t ht n hn => ?names⟩
  case words =>
    obtain ⟨c, hc, hstart⟩ := hstart
    rcases List.mem_append.1 ht with hmem | hlast
    · obtain ⟨before, d, word, behind, htext, hspan, hfront⟩ := hus t hmem
      have honward : t.span.onward text = d :: (word ++ behind) := by
        rw [hspan, Span.onward_eq htext, List.cons_append]
      have hslice : t.span.slice text = String.ofList (d :: word) := by
        rw [hspan]
        exact Span.slice_eq htext
      rw [hslice, String.toList_ofList] at hc
      obtain rfl : d = c := Option.some.inj hc
      have hread : ReadsWord (t.span.onward text)
          (String.ofList ((t.span.onward text).takeWhile isWordChar)) t.token
          (t.span.slice text) := by
        have hquote : ¬(d = '"' ∨ d = '\'') := by
          rintro (rfl | rfl) <;> cases hstart
        have hword : t.token.text = String.ofList (d :: word) := by
          rw [← String.toList_inj, text_of_front hfront hquote, String.toList_ofList,
            List.take_left]
        rw [honward, hslice, ← hword]
        exact readsWord_of_wordFront (wordFront_of_front hstart hfront)
      exact ⟨hread, hread.covers⟩
    · obtain rfl := List.mem_singleton.1 hlast
      rw [Span.slice_empty hempty] at hc
      cases hc
  case names =>
    rcases List.mem_append.1 ht with hmem | hlast
    · obtain ⟨-, d, word, behind, -, -, hfront⟩ := hus t hmem
      have hname : IsName n := by
        have hwritten := written_of_front hfront
        rwa [hn] at hwritten
      refine ⟨not_reserved hname.keyword hname.truth.1 hname.truth.2, fun hunit => ?_⟩
      have hnone := hname.unit
      rw [isUnit_iff.2 hunit] at hnone
      cases hnone
    · obtain rfl := List.mem_singleton.1 hlast
      rw [he] at hn
      cases hn

/-- A unit that goes on behind a slash, and one that does not since no unit goes on so. -/
theorem tokenize_word_slash :
    ∃ ts, tokenize "deg/s2 deg/sec" = .ok ts ∧ ∃ t ∈ ts, t.span = ⟨7, 10, 1, 8⟩ ∧
      ReadsWord "deg/sec".toList "deg" t.token "deg" := by
  have hts : tokenize "deg/s2 deg/sec" = .ok
      [⟨.unit "deg/s2", ⟨0, 6, 1, 1⟩⟩, ⟨.unit "deg", ⟨7, 10, 1, 8⟩⟩,
        ⟨.symbol .slash, ⟨10, 11, 1, 11⟩⟩, ⟨.name "sec", ⟨11, 14, 1, 12⟩⟩,
        ⟨.eof, ⟨14, 14, 1, 15⟩⟩] := by cbv
  refine ⟨_, hts, _, List.mem_cons_of_mem _ List.mem_cons_self, rfl, ?_⟩
  have hslice : (Span.slice ⟨7, 10, 1, 8⟩ "deg/s2 deg/sec") = "deg" := by decide
  have honward : (Span.onward ⟨7, 10, 1, 8⟩ "deg/s2 deg/sec") = "deg/sec".toList := by decide
  have hread := ((tokenize_word hts).1 _ (List.mem_cons_of_mem _ List.mem_cons_self)
    ⟨'d', by rw [hslice]; rfl, rfl⟩).1
  rw [hslice, honward] at hread
  exact hread

end OpsLang
