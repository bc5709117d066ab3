import Mathlib.Data.List.Nodup
import OpsLang.Proofs.Json.Trees

/-!
# Stored diagnostics are read back

The stored form of a diagnostic is an object, and what is read from an object does not depend on
the order of its members, nor on members with other keys than those it is read for. `Json.Carries`
is said of an object that holds some known members among others; the values that are read from it
are those of the known members (`Json.slots?_of_carries`), so that a missing member is read as
missing, which is how the empty list of expected descriptions and the unknown finding come back.

The text of the object is read as the object first, also in the layout without any space
(`Json.reads_compact`). The two together are `Diagnostic.ofStored?_text`.
-/

namespace OpsLang

namespace Json

/-! ## The layout without spaces -/

mutual

theorem reads_compact : ∀ (j : Json), j.Spelled → Reads j j.compact.toList
  | .null, _ => .null
  | .truth v, _ => by
    simpa [compact, atom] using Reads.truth v
  | .integer n, _ => .integer n
  | .real _, h => .real h
  | .string s, _ => .string s
  | .array [], _ => .emptyArray
  | .object [], _ => .emptyObject
  | .array (j :: js), h => by
    have harray := Reads.array (List.forall_mem_nil _)
      (reads_compactItems js h.2 (reads_compact j h.1))
    simpa [compact] using harray
  | .object ((k, j) :: ms), h => by
    have hobject := Reads.object (List.forall_mem_nil _)
      (reads_compactMembers ms h.2 k (reads_compact j h.1))
    simpa [compact] using hobject

/-- The items after the first are read up to the bracket that closes them. -/
theorem reads_compactItems : ∀ (js : List Json), AllSpelled js → ∀ {j cs}, Reads j cs →
    ReadsItems (j :: js) (cs ++ ((compactItems js).toList ++ [']']))
  | [], _, _, _, hj => by
    simpa [compactItems] using ReadsItems.last hj (List.forall_mem_nil _)
  | j' :: js, h, _, _, hj => by
    have hitems := reads_compactItems js h.2 (reads_compact j' h.1)
    simpa [compactItems] using ReadsItems.cons hj (List.forall_mem_nil _) hitems

/-- The members after the first are read up to the brace that closes them. -/
theorem reads_compactMembers : ∀ (ms : List (String × Json)), MembersSpelled ms →
    ∀ k {j cs}, Reads j cs → ReadsMembers ((k, j) :: ms)
      ((quoted k).toList ++ ':' :: (cs ++ ((compactMembers ms).toList ++ ['\x7d'])))
  | [], _, k, _, _, hj => by
    simpa [compactMembers] using
      ReadsMembers.last k (List.forall_mem_nil _) hj (List.forall_mem_nil _)
  | (k', j') :: ms, h, k, _, _, hj => by
    have hmembers := reads_compactMembers ms h.2 k' (reads_compact j' h.1)
    simpa [compactMembers] using
      ReadsMembers.cons k (List.forall_mem_nil _) hj (List.forall_mem_nil _) hmembers

end

/-! ## Objects with known members -/

/-- The value is an object with the members of `known`, in any order and among others. The others
have keys that are none of `names`, and any values. -/
def Carries (names : List String) (known : List (String × Json)) (j : Json) : Prop :=
  ∃ others ms, j = .object ms ∧ ms.Perm (known ++ others) ∧
    ∀ m ∈ others, m.1 ∉ names ∧ m.2.Spelled

section Carries

variable {names : List String} {known ms : List (String × Json)} {j : Json}

theorem carries_object (names : List String) (known : List (String × Json)) :
    (object known).Carries names known :=
  ⟨[], known, rfl, by rw [List.append_nil], List.forall_mem_nil _⟩

theorem membersSpelled_iff : MembersSpelled ms ↔ ∀ m ∈ ms, m.2.Spelled := by
  induction ms with
  | nil => simp [MembersSpelled]
  | cons m ms ih => rw [MembersSpelled, ih, List.forall_mem_cons]

theorem Carries.spelled (h : j.Carries names known) (hknown : ∀ m ∈ known, m.2.Spelled) :
    j.Spelled := by
  obtain ⟨others, ms, rfl, hperm, hothers⟩ := h
  refine membersSpelled_iff.2 fun m hm => ?_
  obtain hm | hm := List.mem_append.1 (hperm.mem_iff.1 hm)
  · exact hknown m hm
  · exact (hothers m hm).2

theorem length_filter_key_le (hkeys : (known.map Prod.fst).Nodup) (n : String) :
    (known.filter fun m => m.1 == n).length ≤ 1 := by
  have hcount := List.nodup_iff_count_le_one.1 hkeys n
  rwa [List.count, List.countP_map, List.countP_eq_length_filter] at hcount

/-- What is read from an object are the values of its known members. -/
theorem slots?_of_carries (hkeys : (known.map Prod.fst).Nodup) (h : j.Carries names known) :
    j.slots? names = some (names.map fun n => (known.find? fun m => m.1 == n).map Prod.snd) := by
  obtain ⟨others, ms, rfl, hperm, hothers⟩ := h
  have hfilter : ∀ n ∈ names,
      ms.filter (fun m => m.1 == n) = known.filter (fun m => m.1 == n) := by
    intro n hn
    have hnone : others.filter (fun m => m.1 == n) = [] := by
      refine List.filter_eq_nil_iff.2 fun m hm heq => (hothers m hm).1 ?_
      rwa [beq_iff_eq.1 heq]
    have hknown : (ms.filter fun m => m.1 == n).Perm (known.filter fun m => m.1 == n) := by
      have hboth := hperm.filter fun m => m.1 == n
      rwa [List.filter_append, hnone, List.append_nil] at hboth
    have hle := length_filter_key_le hkeys n
    cases hf : known.filter fun m => m.1 == n with
    | nil => exact List.perm_nil.1 (hf ▸ hknown)
    | cons m rest =>
      rw [hf, List.length_cons] at hle
      obtain rfl : rest = [] := List.eq_nil_of_length_eq_zero (by omega)
      exact List.perm_singleton.1 (hf ▸ hknown)
  have hone : (names.all fun n => (ms.filter fun m => m.1 == n).length ≤ 1) = true := by
    refine List.all_eq_true.2 fun n hn => decide_eq_true ?_
    rw [hfilter n hn]
    exact length_filter_key_le hkeys n
  rw [slots?, if_pos hone, Option.some_inj]
  refine List.map_congr_left fun n hn => ?_
  rw [← List.head?_filter, hfilter n hn, List.head?_filter]

end Carries

theorem asWord?_nat {size n : Nat} (h : n < size) : (nat n).asWord? size = some n := by
  simp [nat, asWord?, h]

theorem asStrings?_strings (ss : List String) : (strings ss).asStrings? = some ss :=
  mapM_map_eq_some fun _ _ => rfl

end Json

/-! ## Spans and diagnostics -/

/-- The offsets of the span are words of sixty-four bits, and its line and column of thirty-two. -/
structure Span.Fits (s : Span) : Prop where
  start : s.start < UInt64.size
  stop : s.stop < UInt64.size
  line : s.line < UInt32.size
  column : s.column < UInt32.size

/-- The keys of the members that a span is read from. -/
def Span.keys : List String :=
  ["start", "end", "line", "column"]

/-- The members of a stored span. -/
def Span.members (s : Span) : List (String × Json) :=
  [("start", .nat s.start), ("end", .nat s.stop), ("line", .nat s.line), ("column", .nat s.column)]

/-- The keys of the members that a diagnostic is read from. -/
def Diagnostic.keys : List String :=
  ["kind", "message", "span", "expected", "found"]

/-- The members of a stored diagnostic, given the stored form of its span. -/
def Diagnostic.members (d : Diagnostic) (span : Json) : List (String × Json) :=
  [("kind", .string d.kind.tag), ("message", .string d.message), ("span", span)]
    ++ expectedMember d.expected ++ foundMember d.found

theorem DiagnosticKind.ofJson?_tag (k : DiagnosticKind) : ofJson? (.string k.tag) = some k := by
  cases k <;> rfl

section Stored

variable {s : Span} {d : Diagnostic} {span j : Json}

theorem Span.spelled_of_carries (h : span.Carries Span.keys s.members) : span.Spelled :=
  h.spelled fun m hm => by
    simp only [Span.members, List.mem_cons, List.not_mem_nil, or_false] at hm
    obtain rfl | rfl | rfl | rfl := hm <;> trivial

theorem Span.ofStored?_of_carries (hs : s.Fits) (h : span.Carries Span.keys s.members) :
    Span.ofStored? span = some s := by
  have hslots := Json.slots?_of_carries (by simp [Span.members]) h
  have hread : span.slots? Span.keys =
      some [some (.nat s.start), some (.nat s.stop), some (.nat s.line), some (.nat s.column)] :=
    hslots
  rw [Span.keys] at hread
  simp [Span.ofStored?, hread, Json.asWord?_nat hs.start, Json.asWord?_nat hs.stop,
    Json.asWord?_nat hs.line, Json.asWord?_nat hs.column]

theorem Diagnostic.spelled_of_carries (hspan : span.Spelled)
    (h : j.Carries Diagnostic.keys (d.members span)) : j.Spelled := by
  refine h.spelled fun m hm => ?_
  simp only [Diagnostic.members, List.mem_append, List.mem_cons, List.not_mem_nil, or_false] at hm
  obtain ((rfl | rfl | rfl) | hm) | hm := hm
  · trivial
  · trivial
  · exact hspan
  · rw [expectedMember] at hm
    split at hm
    · cases hm
    · obtain rfl := List.mem_singleton.1 hm
      exact (Json.whole_strings _).spelled
  · cases hfound : d.found with
    | none => simp [hfound, foundMember] at hm
    | some f =>
      rw [hfound] at hm
      obtain rfl := List.mem_singleton.1 hm
      trivial

/-- What the expected descriptions and the finding are read from, as they were stored. -/
theorem Diagnostic.slots?_of_carries (h : j.Carries Diagnostic.keys (d.members span)) :
    j.slots? Diagnostic.keys = some [some (.string d.kind.tag), some (.string d.message), some span,
      if d.expected.isEmpty then none else some (.strings d.expected), d.found.map .string] := by
  have hkeys : ((d.members span).map Prod.fst).Nodup := by
    rw [Diagnostic.members, expectedMember]
    cases d.found <;> split <;> simp [foundMember]
  rw [Json.slots?_of_carries hkeys h, Diagnostic.members, expectedMember]
  cases d.found <;> split <;> rfl

theorem Diagnostic.ofStored?_of_carries (hspan : Span.ofStored? span = some d.span)
    (h : j.Carries Diagnostic.keys (d.members span)) : Diagnostic.ofStored? j = some d := by
  have hslots := Diagnostic.slots?_of_carries h
  have hexpected : expectedOf? (if d.expected.isEmpty then none else some (.strings d.expected)) =
      some d.expected := by
    split
    · next hnone => rw [List.isEmpty_iff.1 hnone, expectedOf?]
    · exact Json.asStrings?_strings d.expected
  have hfound : foundOf? (d.found.map .string) = some d.found := by
    cases d.found <;> rfl
  rw [Diagnostic.keys] at hslots
  simp only [Diagnostic.ofStored?, hslots, DiagnosticKind.ofJson?_tag, Json.asString?, hspan,
    hexpected, hfound, Option.bind_eq_bind, Option.bind_some]
  rfl

end Stored

/-- A diagnostic is read back from the text of its stored form, whatever it says and wherever it
stands. It is read back as well from the text of any object that has the members of the stored form
in any order and among others with keys of their own, and so has the span in it. -/
theorem Diagnostic.ofStored?_text {d : Diagnostic} (hd : d.span.Fits) :
    (Json.ofText? d.stored.compact).bind ofStored? = some d ∧
    (Json.ofText? d.stored.pretty).bind ofStored? = some d ∧
    ∀ span j : Json, span.Carries Span.keys d.span.members →
      j.Carries keys (d.members span) →
        (Json.ofText? j.compact).bind ofStored? = some d ∧
        (Json.ofText? j.pretty).bind ofStored? = some d := by
  have hread : ∀ span j : Json, span.Carries Span.keys d.span.members →
      j.Carries keys (d.members span) →
        (Json.ofText? j.compact).bind ofStored? = some d ∧
        (Json.ofText? j.pretty).bind ofStored? = some d := by
    intro span j hspan hj
    have hspelled := spelled_of_carries (Span.spelled_of_carries hspan) hj
    have hstored := ofStored?_of_carries (Span.ofStored?_of_carries hd hspan) hj
    have hcompact := (Json.reads_compact j hspelled).ofText? (b := "") (List.forall_mem_nil _)
    have hpretty := Json.ofText?_pretty hspelled (b := "") (List.forall_mem_nil _)
    rw [String.append_empty] at hcompact hpretty
    rw [hcompact, hpretty]
    exact ⟨hstored, hstored⟩
  obtain ⟨hcompact, hpretty⟩ := hread _ _ (Json.carries_object _ _) (Json.carries_object _ _)
  exact ⟨hcompact, hpretty, hread⟩

/-- The last offset and column there are, a message that has to be escaped, and an object with its
members in reverse and an unknown one among them. -/
theorem Diagnostic.ofStored?_text_reverse :
    let d : Diagnostic :=
      ⟨.lexical, "\"\x01", ⟨18446744073709551615, 0, 1, 4294967295⟩, [], some "\u00e9"⟩
    d.span.Fits ∧
      (Json.ofText? (Json.object [("note", .real "-1.5e3"), ("found", .string "\u00e9"),
        ("span", .object [("column", .nat 4294967295), ("line", .nat 1), ("end", .nat 0),
          ("start", .nat 18446744073709551615)]),
        ("message", .string "\"\x01"), ("kind", .string "Lexical")]).compact).bind ofStored? =
        some d := by
  intro d
  have hfits : d.span.Fits := ⟨by decide, by decide, by decide, by decide⟩
  have hreal : Json.IsReal "-1.5e3" := by
    refine ⟨true, ['1'], ['.', '5'], ['e', '3'], rfl, ⟨by simp, by simp⟩, by simp,
      .digits ⟨by simp, by simp⟩, .digits (.inl rfl) (.inl rfl) ⟨by simp, by simp⟩, by simp⟩
  have hspan : (Json.object d.span.members.reverse).Carries Span.keys d.span.members :=
    ⟨[], _, rfl, by simp, List.forall_mem_nil _⟩
  have hobject := (ofStored?_text hfits).2.2 _ _ hspan
    ⟨[("note", .real "-1.5e3")], _, rfl, List.reverse_perm _,
      List.forall_mem_singleton.2 ⟨by simp [keys], hreal⟩⟩
  exact ⟨hfits, hobject.1⟩

end OpsLang
