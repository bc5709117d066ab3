import OpsLang.Proofs.Commands
import OpsLang.Store.Memory

/-!
# Storing and reading back

A store gives, for a path, the text that was put last under any spelling of it. Spellings are the
same if they lead to the same location, so there are two things to know : which paths these are, and
what becomes of one location when others are written.

For the first, a path is cut at any of its slashes (`ofPath_append_slash`) : what stands before the
slash leads to a location, and what stands behind it is followed from there. An empty stretch, a `.`
and a name that is taken back by `..` lead nowhere from any location, so they may be put in behind
any slash. The text of a location leads to it, because its names are such stretches as are names
(`ofPath_text`).

For the second, `text?_putAll` tells a run of writes by the last of them that goes to the location
(`LastUnder`), and by what was there before if none does.
-/

namespace OpsLang

/-! ## Stretches between slashes -/

section Stretches

variable {as bs cs : List Char}

theorem splitSlashes_ne_nil (cs : List Char) : splitSlashes cs ≠ [] := by
  cases cs with
  | nil => simp [splitSlashes]
  | cons c cs =>
    rw [splitSlashes]
    split
    · simp
    · split <;> simp

/-- The stretches before a slash and those behind it. -/
theorem splitSlashes_append (as bs : List Char) :
    splitSlashes (as ++ '/' :: bs) = splitSlashes as ++ splitSlashes bs := by
  induction as with
  | nil => simp [splitSlashes]
  | cons a as ih =>
    rw [List.cons_append, splitSlashes, splitSlashes]
    split
    · rw [ih, List.cons_append]
    · obtain ⟨part, parts, hparts⟩ := List.exists_cons_of_ne_nil (splitSlashes_ne_nil as)
      rw [ih, hparts]
      rfl

theorem splitSlashes_of_not_mem (h : '/' ∉ cs) : splitSlashes cs = [cs] := by
  induction cs with
  | nil => rfl
  | cons c cs ih =>
    obtain ⟨hc, hcs⟩ := not_or.1 (mt List.mem_cons.2 h)
    rw [splitSlashes, if_neg (Ne.symm hc), ih hcs]

theorem not_mem_of_mem_splitSlashes (h : as ∈ splitSlashes cs) : '/' ∉ as := by
  induction cs generalizing as with
  | nil =>
    obtain rfl := List.mem_singleton.1 h
    exact List.not_mem_nil
  | cons c cs ih =>
    rw [splitSlashes] at h
    split at h
    · obtain rfl | h := List.mem_cons.1 h
      · exact List.not_mem_nil
      · exact ih h
    · next hc =>
      obtain ⟨part, parts, hparts⟩ := List.exists_cons_of_ne_nil (splitSlashes_ne_nil cs)
      rw [hparts] at h ih
      obtain rfl | h := List.mem_cons.1 h
      · exact mt List.mem_cons.1 (not_or.2 ⟨Ne.symm hc, ih (by simp)⟩)
      · exact ih (by simp [h])

end Stretches

/-! ## Names and parts -/

/-- The text is a name on a way : it has no slash, and is neither empty nor one of `.` and `..`. -/
structure IsOrdinary (n : String) : Prop where
  ne_empty : n ≠ ""
  ne_dot : n ≠ "."
  ne_parent : n ≠ ".."
  noSlash : '/' ∉ n.toList

section Parts

variable {n : String} {cs : List Char}

/-- The parts that a text between slashes holds. -/
def stretchParts (cs : List Char) : List PathPart :=
  (splitSlashes cs).filterMap PathPart.ofText?

theorem stretchParts_append (as bs : List Char) :
    stretchParts (as ++ '/' :: bs) = stretchParts as ++ stretchParts bs := by
  rw [stretchParts, splitSlashes_append, List.filterMap_append]
  rfl

theorem PathPart.ofText?_of_isOrdinary (h : IsOrdinary n) : ofText? n.toList = some (.name n) := by
  have hplain : ¬(n.toList = [] ∨ n.toList = ['.']) := by
    rintro (hn | hn)
    · exact h.ne_empty (String.toList_inj.1 hn)
    · exact h.ne_dot (String.toList_inj.1 hn)
  have hparent : n.toList ≠ ['.', '.'] := fun hn => h.ne_parent (String.toList_inj.1 hn)
  rw [ofText?, if_neg hplain, if_neg hparent, String.ofList_toList]

theorem PathPart.isOrdinary_of_ofText? (hslash : '/' ∉ cs) (h : ofText? cs = some (.name n)) :
    IsOrdinary n := by
  rw [ofText?] at h
  split at h
  · cases h
  split at h
  · cases h
  next hplain hparent =>
    obtain rfl : String.ofList cs = n := by simpa using h
    have hcs : ∀ w : String, String.ofList cs = w → cs = w.toList := by
      rintro w rfl
      exact String.toList_ofList.symm
    exact ⟨fun h => hplain (.inl (hcs _ h)), fun h => hplain (.inr (hcs _ h)),
      fun h => hparent (hcs _ h), by simpa⟩

theorem stretchParts_of_isOrdinary (h : IsOrdinary n) : stretchParts n.toList = [.name n] := by
  rw [stretchParts, splitSlashes_of_not_mem h.noSlash, List.filterMap_cons_some
    (PathPart.ofText?_of_isOrdinary h)]
  rfl

/-- The names of a path are ordinary. -/
theorem isOrdinary_of_mem_pathParts {p : String} (h : .name n ∈ pathParts p) : IsOrdinary n := by
  obtain h | h := List.mem_append.1 h
  · split at h
    · cases List.mem_singleton.1 h
    · cases h
  · obtain ⟨cs, hcs, hn⟩ := List.mem_filterMap.1 h
    exact PathPart.isOrdinary_of_ofText? (not_mem_of_mem_splitSlashes hcs) hn

end Parts

/-- What leads nowhere behind a slash of a path : another slash, `./`, or a name that is taken
back. -/
inductive IsDetour : String → Prop
  | slash : IsDetour "/"
  | dot : IsDetour "./"
  | back {n : String} (h : IsOrdinary n) : IsDetour (n ++ "/../")

/-! ## Locations -/

namespace Location

section Laws

variable {l : Location} {n p : String}

/-- A path is followed to one of its slashes, and then on from there. -/
theorem ofPath_append_slash (a b : String) :
    ofPath (a ++ "/" ++ b) = (stretchParts b.toList).foldl follow (ofPath (a ++ "/")) := by
  have hcut : ∀ b : String, pathParts (a ++ "/" ++ b) =
      (if (a.toList ++ ['/']).head? = some '/' then [PathPart.root] else []) ++
        (stretchParts a.toList ++ stretchParts b.toList) := by
    intro b
    have htoList : (a ++ "/" ++ b).toList = a.toList ++ '/' :: b.toList := by
      simp [String.toList_append]
    have hhead : (a.toList ++ '/' :: b.toList).head? = (a.toList ++ ['/']).head? := by
      cases a.toList <;> rfl
    rw [pathParts, htoList, hhead, ← stretchParts_append]
    rfl
  have hnone : pathParts (a ++ "/") = pathParts (a ++ "/" ++ "") := by rw [String.append_empty]
  have hempty : stretchParts "".toList = [] := rfl
  rw [ofPath, ofPath, hnone, hcut, hcut, hempty, List.append_nil, ← List.append_assoc,
    List.foldl_append]

/-- A name that is taken back leads nowhere. -/
theorem follow_name_parent (l : Location) (n : String) :
    (l.follow (.name n)).follow .parent = l := by
  obtain ⟨rooted, names⟩ := l
  cases names with
  | nil => rfl
  | cons m ms => exact congrArg (Location.mk rooted) List.dropLast_concat

/-- A detour leaves out nothing of what stands behind it, and comes back to where it began. -/
theorem foldl_follow_detour {d : String} (h : IsDetour d) (b : String) (l : Location) :
    (stretchParts (d ++ b).toList).foldl follow l = (stretchParts b.toList).foldl follow l := by
  rw [String.toList_append]
  cases h with
  | slash =>
    have hparts : stretchParts ("/".toList ++ b.toList) = stretchParts b.toList :=
      stretchParts_append [] b.toList
    rw [hparts]
  | dot =>
    have hparts : stretchParts ("./".toList ++ b.toList) = stretchParts b.toList :=
      stretchParts_append ['.'] b.toList
    rw [hparts]
  | @back n h =>
    have hparts : stretchParts ((n ++ "/../").toList ++ b.toList) =
        .name n :: .parent :: stretchParts b.toList := by
      have htoList : (n ++ "/../").toList ++ b.toList =
          n.toList ++ '/' :: (['.', '.'] ++ '/' :: b.toList) := by
        simp [String.toList_append]
      rw [htoList, stretchParts_append, stretchParts_append, stretchParts_of_isOrdinary h]
      rfl
    rw [hparts, List.foldl_cons, List.foldl_cons, follow_name_parent]

/-- A detour behind a slash changes nothing. -/
theorem ofPath_detour {d : String} (h : IsDetour d) (a b : String) :
    ofPath (a ++ "/" ++ (d ++ b)) = ofPath (a ++ "/" ++ b) := by
  rw [ofPath_append_slash, ofPath_append_slash, foldl_follow_detour h]

/-- Every name on the way to a location is ordinary. -/
def Ordinary (l : Location) : Prop :=
  ∀ n ∈ l.names, IsOrdinary n

theorem Ordinary.follow (hl : l.Ordinary) {part : PathPart}
    (hpart : ∀ n, part = .name n → IsOrdinary n) : (l.follow part).Ordinary := by
  cases part with
  | root => exact fun _ h => absurd h List.not_mem_nil
  | parent =>
    rw [Location.follow]
    split
    · exact fun _ h => absurd h List.not_mem_nil
    · exact fun n hn => hl n (List.mem_of_mem_dropLast hn)
  | name n =>
    intro m hm
    obtain hm | hm := List.mem_append.1 hm
    · exact hl m hm
    · rw [List.mem_singleton.1 hm]
      exact hpart n rfl

theorem ordinary_ofPath (p : String) : (ofPath p).Ordinary := by
  have hrun : ∀ (parts : List PathPart) (l : Location), l.Ordinary →
      (∀ n, .name n ∈ parts → IsOrdinary n) → (parts.foldl Location.follow l).Ordinary := by
    intro parts
    induction parts with
    | nil => exact fun _ hl _ => hl
    | cons part parts ih =>
      intro l hl hparts
      exact ih _ (hl.follow fun n hn => hparts n (by simp [hn])) fun n hn =>
        hparts n (List.mem_cons_of_mem _ hn)
  exact hrun _ _ (fun _ h => absurd h List.not_mem_nil) fun _ => isOrdinary_of_mem_pathParts

theorem foldl_follow_names (l : Location) (ns : List String) :
    (ns.map PathPart.name).foldl follow l = ⟨l.rooted, l.names ++ ns⟩ := by
  induction ns generalizing l with
  | nil => simp
  | cons n ns ih => rw [List.map_cons, List.foldl_cons, ih, follow, List.append_assoc]; rfl

/-- Ordinary names with slashes between them are the parts of their text. -/
theorem stretchParts_intercalate {ns : List String} (h : ∀ n ∈ ns, IsOrdinary n) :
    stretchParts ("/".intercalate ns).toList = ns.map PathPart.name := by
  induction ns with
  | nil => rfl
  | cons n ns ih =>
    obtain ⟨hn, hns⟩ := List.forall_mem_cons.1 h
    cases ns with
    | nil => exact stretchParts_of_isOrdinary hn
    | cons m ns =>
      have htoList : ("/".intercalate (n :: m :: ns)).toList =
          n.toList ++ '/' :: ("/".intercalate (m :: ns)).toList := by
        simp [String.intercalate_cons_cons, String.toList_append]
      rw [htoList, stretchParts_append, stretchParts_of_isOrdinary hn, ih hns]
      rfl

theorem head_intercalate_ne_slash {ns : List String} (h : ∀ n ∈ ns, IsOrdinary n) :
    ("/".intercalate ns).toList.head? ≠ some '/' := by
  cases ns with
  | nil => simp
  | cons n ns =>
    have hn := h n (by simp)
    obtain ⟨cs, hcs⟩ : ∃ cs, ("/".intercalate (n :: ns)).toList = n.toList ++ cs := by
      cases ns with
      | nil => exact ⟨[], by simp⟩
      | cons m ns => exact ⟨_, by rw [String.intercalate_cons_cons, String.append_assoc,
          String.toList_append]⟩
    obtain ⟨c, _, hc⟩ := List.exists_cons_of_ne_nil (mt String.toList_eq_nil_iff.1 hn.ne_empty)
    rw [hcs, hc]
    intro hslash
    obtain rfl : c = '/' := by simpa using hslash
    exact hn.noSlash (by simp [hc])

/-- The text of a location is a path to it. -/
theorem ofPath_text (h : l.Ordinary) : ofPath l.text = l := by
  obtain ⟨rooted, ns⟩ := l
  have hparts : stretchParts ("/".intercalate ns).toList = ns.map PathPart.name :=
    stretchParts_intercalate h
  cases rooted with
  | true =>
    have hroot : ofPath (text ⟨true, ns⟩) = (stretchParts ("/".intercalate ns).toList).foldl follow
        (ofPath ("" ++ "/")) := ofPath_append_slash "" _
    rw [hroot, hparts, foldl_follow_names]
    rfl
  | false =>
    have htext : text ⟨false, ns⟩ = "/".intercalate ns := String.empty_append
    rw [htext, ofPath, pathParts, if_neg (head_intercalate_ne_slash h), List.nil_append]
    show List.foldl follow start (stretchParts _) = _
    rw [hparts, foldl_follow_names]
    rfl

end Laws

end Location

/-! ## Histories -/

/-- The last of the writes that go to the location of the path puts this text there. -/
def LastUnder (ws : List (String × String)) (q t : String) : Prop :=
  ∃ before p after, ws = before ++ (p, t) :: after ∧ Location.ofPath p = .ofPath q ∧
    ∀ w ∈ after, Location.ofPath w.1 ≠ .ofPath q

namespace Store

/-- Put texts where paths lead, one after the other. -/
def putAll (s : Store) (ws : List (String × String)) : Store :=
  ws.foldl (fun s w => s.put w.1 w.2) s

section Histories

variable {ws : List (String × String)} {p q t : String}

theorem text?_put (s : Store) (p t q : String) :
    (s.put p t).text? q = if Location.ofPath p = .ofPath q then some t else s.text? q := by
  rw [text?, put, List.lookup_cons]
  by_cases h : Location.ofPath p = .ofPath q
  · simp [h]
  · rw [if_neg h, text?]
    have hne : (Location.ofPath q == Location.ofPath p) = false := by simpa using Ne.symm h
    rw [hne]

theorem lastUnder_cons {w : String × String} : LastUnder (w :: ws) q t ↔
    LastUnder ws q t ∨
      (∀ w ∈ ws, Location.ofPath w.1 ≠ .ofPath q) ∧ Location.ofPath w.1 = .ofPath q ∧ w.2 = t := by
  constructor
  · rintro ⟨_ | ⟨w', before⟩, p, after, hws, hp, hafter⟩
    · obtain ⟨rfl, rfl⟩ := List.cons.inj hws
      exact .inr ⟨hafter, hp, rfl⟩
    · obtain ⟨rfl, rfl⟩ := List.cons.inj hws
      exact .inl ⟨before, p, after, rfl, hp, hafter⟩
  · rintro (⟨before, p, after, rfl, hp, hafter⟩ | ⟨hws, hp, rfl⟩)
    · exact ⟨w :: before, p, after, rfl, hp, hafter⟩
    · exact ⟨[], w.1, ws, rfl, hp, hws⟩

/-- What is read after some writes is what the last of them put there, or else what was there
before. -/
theorem text?_putAll (s : Store) (ws : List (String × String)) (q t : String) :
    (s.putAll ws).text? q = some t ↔ LastUnder ws q t ∨
      (∀ w ∈ ws, Location.ofPath w.1 ≠ .ofPath q) ∧ s.text? q = some t := by
  induction ws generalizing s with
  | nil =>
    have hnone : ¬LastUnder [] q t := by
      rintro ⟨before, p, after, hws, -, -⟩
      simp at hws
    simp [putAll, hnone]
  | cons w ws ih =>
    have hrun : s.putAll (w :: ws) = (s.put w.1 w.2).putAll ws := rfl
    rw [hrun, ih, lastUnder_cons, text?_put, or_assoc, List.forall_mem_cons]
    refine or_congr_right ?_
    by_cases hw : Location.ofPath w.1 = .ofPath q <;> simp [hw]

/-- Nothing is read where nothing was written. -/
theorem text?_putAll_eq_none_iff (s : Store) (ws : List (String × String)) (q : String) :
    (s.putAll ws).text? q = none ↔
      (∀ w ∈ ws, Location.ofPath w.1 ≠ .ofPath q) ∧ s.text? q = none := by
  induction ws generalizing s with
  | nil => simp [putAll]
  | cons w ws ih =>
    have hrun : s.putAll (w :: ws) = (s.put w.1 w.2).putAll ws := rfl
    rw [hrun, ih, text?_put, List.forall_mem_cons]
    by_cases hw : Location.ofPath w.1 = .ofPath q <;> simp [hw]

/-- Where no two writes go to one location, the order of the writes is of no account. -/
theorem lastUnder_iff_mem (hws : (ws.map fun w => Location.ofPath w.1).Nodup) :
    LastUnder ws q t ↔ ∃ p, (p, t) ∈ ws ∧ Location.ofPath p = .ofPath q := by
  constructor
  · rintro ⟨before, p, after, rfl, hp, -⟩
    exact ⟨p, by simp, hp⟩
  · rintro ⟨p, hmem, hp⟩
    obtain ⟨before, after, rfl⟩ := List.append_of_mem hmem
    refine ⟨before, p, after, rfl, hp, fun w hw heq => ?_⟩
    rw [List.map_append, List.map_cons, List.nodup_append, List.nodup_cons] at hws
    exact hws.2.1.1 (List.mem_map.2 ⟨w, hw, heq.trans hp.symm⟩)

/-- What a store answers is told by the text it has. -/
theorem parse_cases (s : Store) (q : String) :
    (s.text? q = none ∧ s.parse q = .fault (.missing q)) ∨
    ∃ t, s.text? q = some t ∧
      ((∃ f, parseSource t = .accepted f ∧ s.parse q = .file f) ∨
        ∃ d, parseSource t = .refused d ∧ s.parse q = .fault (.refused q d)) := by
  rw [parse]
  cases s.text? q with
  | none => exact .inl ⟨rfl, rfl⟩
  | some t =>
    obtain ⟨f, hf⟩ | ⟨d, hd⟩ := parseSource_cases t
    · exact .inr ⟨t, rfl, .inl ⟨f, hf, by simp only [hf]⟩⟩
    · exact .inr ⟨t, rfl, .inr ⟨d, hd, by simp only [hd]⟩⟩

theorem parse_eq_missing_iff (s : Store) (q : String) :
    s.parse q = .fault (.missing q) ↔ s.text? q = none := by
  obtain ⟨hnone, hparse⟩ | ⟨t, ht, ⟨f, -, hparse⟩ | ⟨d, -, hparse⟩⟩ := parse_cases s q
  · exact iff_of_true hparse hnone
  all_goals simp [hparse, ht]

end Histories

/-- A store is a map of locations to texts. It begins with texts at different locations, in any
order; after any writes, a path has the text that was put last under a path to the same location,
and none if there is no such write. A location is the normal form of its paths : its text leads to
it, and a detour behind any slash of a path changes nothing. A file is read from the text of a path,
or its diagnostic is given, and only where there is no text the text is missing. -/
theorem reads_last_write {new puts : List (String × String)}
    (hnew : (new.map fun w => Location.ofPath w.1).Nodup) (q : String) :
    (∀ t, ((ofList new).putAll puts).text? q = some t ↔
      LastUnder puts q t ∨ (∀ w ∈ puts, Location.ofPath w.1 ≠ .ofPath q) ∧
        ∃ p, (p, t) ∈ new ∧ Location.ofPath p = .ofPath q) ∧
    (((ofList new).putAll puts).text? q = none ↔
      ∀ w ∈ new ++ puts, Location.ofPath w.1 ≠ .ofPath q) ∧
    Location.ofPath (Location.ofPath q).text = .ofPath q ∧
    (∀ a b d, q = a ++ "/" ++ b → IsDetour d →
      Location.ofPath (a ++ "/" ++ (d ++ b)) = .ofPath q) ∧
    (((ofList new).putAll puts).parse q = .fault (.missing q) ↔
      ((ofList new).putAll puts).text? q = none) ∧
    ∀ t, ((ofList new).putAll puts).text? q = some t →
      (∃ f, parseSource t = .accepted f ∧ ((ofList new).putAll puts).parse q = .file f) ∨
      ∃ d, parseSource t = .refused d ∧
        ((ofList new).putAll puts).parse q = .fault (.refused q d) := by
  have hlist : ofList new = empty.putAll new := rfl
  have hempty : empty.text? q = none := rfl
  have hfirst : ∀ t, (ofList new).text? q = some t ↔
      ∃ p, (p, t) ∈ new ∧ Location.ofPath p = .ofPath q := by
    intro t
    rw [← lastUnder_iff_mem hnew, hlist, text?_putAll, hempty]
    simp
  have htext : ∀ t, ((ofList new).putAll puts).text? q = some t ↔
      LastUnder puts q t ∨ (∀ w ∈ puts, Location.ofPath w.1 ≠ .ofPath q) ∧
        ∃ p, (p, t) ∈ new ∧ Location.ofPath p = .ofPath q := by
    intro t
    rw [text?_putAll, hfirst]
  refine ⟨htext, ?_, Location.ofPath_text (Location.ordinary_ofPath q), ?_,
    parse_eq_missing_iff _ q, fun t ht => ?_⟩
  · rw [text?_putAll_eq_none_iff, hlist, text?_putAll_eq_none_iff, List.forall_mem_append, hempty]
    simp [and_comm]
  · rintro a b d rfl hd
    exact Location.ofPath_detour hd a b
  · obtain ⟨hnone, -⟩ | ⟨t', ht', hparse⟩ := parse_cases ((ofList new).putAll puts) q
    · rw [hnone] at ht
      cases ht
    · obtain rfl : t = t' := Option.some.inj (ht.symm.trans ht')
      exact hparse

/-- A text is stored under two spellings of its path, and read under two others. -/
theorem reads_last_write_spellings :
    ([("/ops/a", "1"), ("b", "2")].map fun w => Location.ofPath w.1).Nodup ∧
    ((ofList [("/ops/a", "1"), ("b", "2")]).putAll [("/ops//x/../a", "3"), ("c", "4")]).text?
      "/./ops/a" = some "3" ∧
    ((ofList [("/ops/a", "1"), ("b", "2")]).putAll [("/ops//x/../a", "3"), ("c", "4")]).text?
      "../b" = some "2" ∧
    Location.ofPath ("../y/../b") = .ofPath "../b" := by
  have hnew : ([("/ops/a", "1"), ("b", "2")].map fun w => Location.ofPath w.1).Nodup := by decide
  have hy : IsOrdinary "y" := ⟨by decide, by decide, by decide, by decide⟩
  refine ⟨hnew, ((reads_last_write hnew "/./ops/a").1 "3").2 (.inl ?_),
    ((reads_last_write hnew "../b").1 "2").2 (.inr ⟨by decide, "b", by decide, by decide⟩),
    (@reads_last_write _ [] hnew "../b").2.2.2.1 ".." "b" "y/../" rfl (.back hy)⟩
  exact ⟨[], "/ops//x/../a", [("c", "4")], rfl, by decide, by decide⟩

end Store

end OpsLang
