import OpsLang.Proofs.Storing

/-!
# Paths from the root

A path is followed one part after another : a name goes down, and `..` goes back by one name, or
stays if there is none to go back by (`resolve`). The names of a location are those that its path
resolves to, whatever the path (`names_foldl_follow`).

A location also tells whether it begins at the root, and that is not kept by every path from
there. The root is taken off by a `..` that stands at it, and nothing behind that `..` puts it back
(`rooted_foldl_follow`). So the location of an absolute path is the resolved path, begun at the
root, as long as the path goes up from the root nowhere (`GoesAboveRoot`); with such a `..` it is
that of the relative path to the same names.
-/

namespace OpsLang

/-- The path begins at the root. -/
def IsAbsolute (p : String) : Prop :=
  p.toList.head? = some '/'

instance (p : String) : Decidable (IsAbsolute p) :=
  inferInstanceAs (Decidable (p.toList.head? = some '/'))

/-! ## Following a path -/

/-- The names on the way behind one more part. With no name to go back by, `..` stays. -/
def resolvePart (names : List String) : PathPart → List String
  | .root => []
  | .parent => names.dropLast
  | .name n => names ++ [n]

/-- The names on the way to where the path leads. -/
def resolve (p : String) : List String :=
  (pathParts p).foldl resolvePart []

/-- Somewhere in the parts a `..` stands where no name is left, when `names` are on the way before
them. -/
def GoesAbove (names : List String) (parts : List PathPart) : Prop :=
  ∃ before after, parts = before ++ .parent :: after ∧ before.foldl resolvePart names = []

/-- Somewhere the path goes up from where it began. -/
def GoesAboveRoot (p : String) : Prop :=
  GoesAbove [] (pathParts p)

section Parts

variable {names : List String} {part : PathPart} {parts : List PathPart} {p : String}

theorem not_goesAbove_nil : ¬GoesAbove names [] := by
  rintro ⟨before, after, hparts, -⟩
  simp at hparts

theorem goesAbove_cons : GoesAbove names (part :: parts) ↔
    (part = .parent ∧ names = []) ∨ GoesAbove (resolvePart names part) parts := by
  constructor
  · rintro ⟨_ | ⟨first, before⟩, after, hparts, hnames⟩
    · exact .inl ⟨(List.cons.inj hparts).1, hnames⟩
    · obtain ⟨rfl, rfl⟩ := List.cons.inj hparts
      exact .inr ⟨before, after, rfl, hnames⟩
  · rintro (⟨rfl, rfl⟩ | ⟨before, after, rfl, hnames⟩)
    · exact ⟨[], parts, rfl, rfl⟩
    · exact ⟨part :: before, after, rfl, hnames⟩

theorem root_not_mem_stretchParts (cs : List Char) : .root ∉ stretchParts cs := by
  intro h
  obtain ⟨as, -, has⟩ := List.mem_filterMap.1 h
  rw [PathPart.ofText?] at has
  split at has
  · cases has
  · split at has <;> cases has

theorem pathParts_of_isAbsolute (h : IsAbsolute p) :
    pathParts p = .root :: stretchParts p.toList :=
  congrArg (· ++ stretchParts p.toList) (if_pos h)

theorem pathParts_of_not_isAbsolute (h : ¬IsAbsolute p) : pathParts p = stretchParts p.toList :=
  congrArg (· ++ stretchParts p.toList) (if_neg h)

end Parts

namespace Location

section Roots

variable {l : Location} {p q : String}

theorem names_follow (l : Location) (part : PathPart) :
    (l.follow part).names = resolvePart l.names part := by
  cases part with
  | root => rfl
  | name n => rfl
  | parent =>
    obtain ⟨rooted, names⟩ := l
    cases names <;> rfl

theorem names_foldl_follow (l : Location) (parts : List PathPart) :
    (parts.foldl follow l).names = parts.foldl resolvePart l.names := by
  induction parts generalizing l with
  | nil => rfl
  | cons part parts ih => rw [List.foldl_cons, ih, names_follow, List.foldl_cons]

/-- The root is kept behind it, unless `..` stands where no name is left. -/
theorem rooted_foldl_follow {parts : List PathPart} (hparts : .root ∉ parts) (l : Location) :
    (parts.foldl follow l).rooted = true ↔ l.rooted = true ∧ ¬GoesAbove l.names parts := by
  induction parts generalizing l with
  | nil => simp [not_goesAbove_nil]
  | cons part parts ih =>
    obtain ⟨hroot, hrest⟩ := not_or.1 (mt List.mem_cons.2 hparts)
    rw [List.foldl_cons, ih hrest, names_follow, goesAbove_cons, not_or, ← and_assoc]
    refine and_congr_left' ?_
    cases part with
    | root => exact absurd rfl hroot
    | name n => simp [follow]
    | parent =>
      obtain ⟨rooted, names⟩ := l
      cases names <;> simp [follow, start]

theorem names_ofPath (p : String) : (ofPath p).names = resolve p :=
  names_foldl_follow start (pathParts p)

/-- The location of a path begins at the root if the path does, and never goes up from there. -/
theorem rooted_ofPath_iff (p : String) :
    (ofPath p).rooted = true ↔ IsAbsolute p ∧ ¬GoesAboveRoot p := by
  by_cases hp : IsAbsolute p
  · have habove : GoesAboveRoot p ↔ GoesAbove [] (stretchParts p.toList) := by
      rw [GoesAboveRoot, pathParts_of_isAbsolute hp, goesAbove_cons]
      simp [resolvePart]
    rw [ofPath, pathParts_of_isAbsolute hp, List.foldl_cons,
      rooted_foldl_follow (root_not_mem_stretchParts _), habove]
    simp [follow, hp]
  · rw [ofPath, pathParts_of_not_isAbsolute hp, rooted_foldl_follow (root_not_mem_stretchParts _)]
    simp [start, hp]

/-- The text of a location begins at the root if the location does. -/
theorem isAbsolute_text_iff (h : l.Ordinary) : IsAbsolute l.text ↔ l.rooted = true := by
  obtain ⟨rooted, ns⟩ := l
  cases rooted with
  | true => simp [IsAbsolute, text]
  | false => simpa [IsAbsolute, text] using head_intercalate_ne_slash h

theorem eq_iff_resolve : ofPath p = ofPath q ↔
    ((ofPath p).rooted = true ↔ (ofPath q).rooted = true) ∧ resolve p = resolve q := by
  rw [Location.mk.injEq, Bool.eq_iff_iff, names_ofPath, names_ofPath]

end Roots

/-- The location of an absolute path is where the path leads from the root, unless the path goes up
from the root. Then the location has the same names, and is no longer one from the root. So two
absolute paths have the same location if they lead to the same place, and both or neither of them
goes up from the root; and only one that does can have the location of a relative path. -/
theorem ofPath_of_isAbsolute {p : String} (hp : IsAbsolute p) :
    (¬GoesAboveRoot p → ofPath p = ⟨true, resolve p⟩ ∧ IsAbsolute (ofPath p).text) ∧
    (GoesAboveRoot p → ofPath p = ⟨false, resolve p⟩ ∧ ¬IsAbsolute (ofPath p).text) ∧
    (∀ q, IsAbsolute q →
      (ofPath p = ofPath q ↔ resolve p = resolve q ∧ (GoesAboveRoot p ↔ GoesAboveRoot q))) ∧
    ∀ q, ¬IsAbsolute q → (ofPath p = ofPath q ↔ GoesAboveRoot p ∧ resolve p = resolve q) := by
  have hrooted : (ofPath p).rooted = true ↔ ¬GoesAboveRoot p := by
    rw [rooted_ofPath_iff, and_iff_right hp]
  have htext := isAbsolute_text_iff (ordinary_ofPath p)
  refine ⟨fun h => ⟨?_, htext.2 (hrooted.2 h)⟩, fun h => ⟨?_, ?_⟩, fun q hq => ?_, fun q hq => ?_⟩
  · rw [Location.mk.injEq]
    exact ⟨hrooted.2 h, names_ofPath p⟩
  · rw [Location.mk.injEq]
    exact ⟨by simpa using mt hrooted.1 (not_not.2 h), names_ofPath p⟩
  · exact fun hslash => hrooted.1 (htext.1 hslash) h
  · rw [eq_iff_resolve, hrooted, rooted_ofPath_iff, and_iff_right hq, not_iff_not, and_comm]
  · rw [eq_iff_resolve, hrooted, rooted_ofPath_iff]
    simp [hq]

/-- One path comes back to the root and goes down again, and another goes up from the root : it has
the location of a relative path. -/
theorem ofPath_of_isAbsolute_back :
    IsAbsolute "/x/..//a" ∧ ofPath "/x/..//a" = ⟨true, ["a"]⟩ ∧
    ofPath "/x/..//a" = ofPath "/./a" ∧ ofPath "/x/..//a" ≠ ofPath "/x/../../a" ∧
    IsAbsolute "/x/../../a" ∧ ofPath "/x/../../a" = ofPath "../a" := by
  have hback : IsAbsolute "/x/..//a" := by decide
  have hplain : IsAbsolute "/./a" := by decide
  have hup : IsAbsolute "/x/../../a" := by decide
  have hbackKeeps : ¬GoesAboveRoot "/x/..//a" := ((rooted_ofPath_iff _).1 (by decide)).2
  have hplainKeeps : ¬GoesAboveRoot "/./a" := ((rooted_ofPath_iff _).1 (by decide)).2
  have hupGoes : GoesAboveRoot "/x/../../a" :=
    ⟨[.root, .name "x", .parent], [.name "a"], by decide, by decide⟩
  obtain ⟨hkept, -, hsame, -⟩ := ofPath_of_isAbsolute hback
  obtain ⟨-, -, -, hrelative⟩ := ofPath_of_isAbsolute hup
  exact ⟨hback, (hkept hbackKeeps).1,
    (hsame _ hplain).2 ⟨by decide, iff_of_false hbackKeeps hplainKeeps⟩,
    fun heq => hbackKeeps (((hsame _ hup).1 heq).2.2 hupGoes), hup,
    (hrelative "../a" (by decide)).2 ⟨hupGoes, by decide⟩⟩

/-- At the root `..` leads to the root, and yet it makes an absolute path relative : a text under
the same place from the root is not found by it, and one under a relative path is. -/
theorem exists_absolute_of_relative_location : ∃ p q r, IsAbsolute p ∧ IsAbsolute q ∧
    ¬IsAbsolute r ∧ resolve p = resolve q ∧ ofPath p ≠ ofPath q ∧ ofPath p = ofPath r ∧
    ¬IsAbsolute (ofPath p).text ∧
    (Store.empty.put q "x").text? p = none ∧ (Store.empty.put r "x").text? p = some "x" :=
  ⟨"/../a", "/a", "a", by decide⟩

end Location

end OpsLang
