import OpsLang.Proofs.Appending.Reader
import OpsLang.Proofs.Scanning

/-!
# Open blocks

Which blocks are open at a place of a row is found by counting words alone (`Nest.after`) : a
word that opens a block opens one inside those before it, and whatever word stands behind
`end` closes the innermost one. `Nest.closing` is the words that close what is open, from
the innermost block outwards. A procedure is given an empty `main` first if it has none yet,
and a row that ends in `end` needs no other one for its innermost block.
-/

namespace OpsLang

/-- The kind of block that a keyword opens. -/
def BlockKind.ofKeyword? (k : Keyword) : Option BlockKind :=
  all.find? fun kind => kind.closer = k

/-- A block that is open. -/
structure OpenBlock where
  kind : BlockKind
  /-- The line of the keyword that opened it. -/
  line : Nat
  /-- Whether `main` has been opened inside it. -/
  hasMain : Bool
  deriving DecidableEq, Repr

namespace OpenBlock

/-- The block with one more block of the kind opened inside it. -/
def enter (kind : BlockKind) (b : OpenBlock) : OpenBlock :=
  { b with hasMain := b.hasMain || kind = .main }

/-- The words that close the block. -/
def closing (b : OpenBlock) : List Keyword :=
  if b.kind = .procedure ∧ b.hasMain = false then [.main, .end_, .main, .end_, .procedure]
  else [.end_, b.kind.closer]

theorem enter_of_ne {kind : BlockKind} (h : kind ≠ .main) (b : OpenBlock) : b.enter kind = b := by
  simp [enter, h]

/-- A block that is no `main` changes nothing in those around it. -/
theorem modifyHead_enter_of_ne {kind : BlockKind} (h : kind ≠ .main) (bs : List OpenBlock) :
    bs.modifyHead (·.enter kind) = bs := by
  cases bs with
  | nil => rfl
  | cons b bs => rw [List.modifyHead_cons, enter_of_ne h]

end OpenBlock

/-- The words that close the blocks, from the first on. -/
def closings (bs : List OpenBlock) : List Keyword :=
  bs.flatMap OpenBlock.closing

/-- What is open at a place of a row. -/
structure Nest where
  /-- The open blocks, the innermost first. -/
  blocks : List OpenBlock
  /-- Whether `end` stands right before the place. -/
  ending : Bool
  deriving DecidableEq, Repr

namespace Nest

/-- What is open behind one more token. -/
def step (n : Nest) (t : Located) : Nest :=
  if n.ending then ⟨n.blocks.tail, false⟩
  else
    match t.token with
    | .keyword .end_ => ⟨n.blocks, true⟩
    | .keyword k =>
      match BlockKind.ofKeyword? k with
      | some kind => ⟨⟨kind, t.line, false⟩ :: n.blocks.modifyHead (·.enter kind), false⟩
      | none => n
    | _ => n

/-- What is open behind more tokens. -/
def after (n : Nest) (us : List Located) : Nest :=
  us.foldl step n

/-- The words that close what is open. -/
def closing (n : Nest) : List Keyword :=
  if n.ending then (closings n.blocks).tail else closings n.blocks

/-- What is open behind a row. -/
def ofRow (us : List Located) : Nest :=
  after ⟨[], false⟩ us

/-- The words that close what is open, with blanks between them. -/
def closingText (n : Nest) : String :=
  " ".intercalate (n.closing.map Keyword.text)

variable {n : Nest} {u : Located} {us vs : List Located} {bs : List OpenBlock} {b : OpenBlock}

@[simp]
theorem after_nil : n.after [] = n := rfl

@[simp]
theorem after_cons : n.after (u :: us) = (n.step u).after us := rfl

theorem after_append : n.after (us ++ vs) = (n.after us).after vs :=
  List.foldl_append

theorem step_end (h : u.token = .keyword .end_) : step ⟨bs, false⟩ u = ⟨bs, true⟩ := by
  simp [step, h]

@[simp]
theorem step_ending : step ⟨b :: bs, true⟩ u = ⟨bs, false⟩ := rfl

theorem step_opener {kind : BlockKind} (h : u.token = .keyword kind.closer) :
    step ⟨bs, false⟩ u =
      ⟨⟨kind, u.line, false⟩ :: bs.modifyHead (·.enter kind), false⟩ := by
  cases kind <;> simp [step, h, BlockKind.closer, BlockKind.ofKeyword?, BlockKind.all]

end Nest

/-- The token opens and ends no block, nor is it the end of the text. -/
def Token.isBlockless : Token → Bool
  | .keyword .end_ | .eof => false
  | .keyword k => (BlockKind.ofKeyword? k).isNone
  | _ => true

theorem Token.ne_eof_of_isBlockless {t : Token} (h : t.isBlockless = true) : t ≠ .eof := by
  rintro rfl
  cases h

theorem Nest.step_blockless {u : Located} {bs : List OpenBlock} (h : u.token.isBlockless = true) :
    step ⟨bs, false⟩ u = ⟨bs, false⟩ := by
  unfold Token.isBlockless at h
  unfold step
  split at h <;> simp_all

theorem Nest.after_blockless {us : List Located} {bs : List OpenBlock}
    (h : ∀ u ∈ us, u.token.isBlockless = true) : after ⟨bs, false⟩ us = ⟨bs, false⟩ := by
  induction us with
  | nil => rfl
  | cons u us ih =>
    obtain ⟨hu, hus⟩ := List.forall_mem_cons.1 h
    rw [after_cons, step_blockless hu, ih hus]

/-! ## Closing words -/

/-- The stream stands where the words that close the blocks begin, if any is left open. -/
def AtClosing (bs : List OpenBlock) (t : Stream) : Prop :=
  ∀ k ∈ (closings bs).head?, t.token = .keyword k

@[simp]
theorem closings_nil : closings [] = [] := rfl

@[simp]
theorem closings_cons (b : OpenBlock) (bs : List OpenBlock) :
    closings (b :: bs) = b.closing ++ closings bs := rfl

@[simp]
theorem closings_append (bs bs' : List OpenBlock) :
    closings (bs ++ bs') = closings bs ++ closings bs' :=
  List.flatMap_append

theorem OpenBlock.closing_of_ne {b : OpenBlock} (h : b.kind ≠ .procedure) :
    b.closing = [.end_, b.kind.closer] :=
  if_neg fun hb => h hb.1

/-- The words that close a block begin with `main` or `end`. -/
theorem OpenBlock.closing_eq_cons (b : OpenBlock) :
    ∃ k ks, b.closing = k :: ks ∧ (Token.keyword k).Parts := by
  unfold closing
  split
  · exact ⟨_, _, rfl, .inr rfl⟩
  · exact ⟨_, _, rfl, .inl rfl⟩

theorem closings_eq_nil {bs : List OpenBlock} : closings bs = [] ↔ bs = [] := by
  constructor
  · intro h
    cases bs with
    | nil => rfl
    | cons b bs =>
      obtain ⟨k, ks, hb, -⟩ := b.closing_eq_cons
      rw [closings_cons, hb] at h
      cases h
  · rintro rfl
    rfl

namespace AtClosing

variable {bs bs' : List OpenBlock} {b : OpenBlock} {t : Stream} {cs : List Located}

theorem token_eq (h : AtClosing (b :: bs) t) (hb : b.closing = [.end_, b.kind.closer]) :
    t.token = .keyword .end_ := by
  refine h .end_ ?_
  rw [closings_cons, hb]
  rfl

theorem parts (h : AtClosing bs t) (hne : bs ≠ []) : t.token.Parts := by
  obtain ⟨b, bs, rfl⟩ := List.exists_cons_of_ne_nil hne
  obtain ⟨k, ks, hb, hk⟩ := b.closing_eq_cons
  rw [h k (by rw [closings_cons, hb]; rfl)]
  exact hk

/-- Before the words that close more blocks. -/
theorem behind (h : AtClosing bs' t) (hcs : words cs = (closings bs).map .keyword) :
    AtClosing (bs ++ bs') (t.behind cs) := by
  intro k hk
  rw [closings_append] at hk
  cases cs with
  | nil =>
    rw [words_nil, eq_comm, List.map_eq_nil_iff] at hcs
    rw [hcs, List.nil_append] at hk
    exact h k hk
  | cons c cs =>
    obtain ⟨k', ks, hks, hk', -⟩ := List.map_eq_cons_iff.1 hcs.symm
    rw [hks] at hk
    cases hk
    exact hk'.symm

end AtClosing

namespace Nest

variable {n : Nest}

/-- The words that close more blocks stand behind those that close the inner ones. -/
theorem closing_append (bs : List OpenBlock) (h : n.ending = true → n.blocks ≠ []) :
    (Nest.mk (n.blocks ++ bs) n.ending).closing = n.closing ++ closings bs := by
  unfold closing
  rw [closings_append]
  split
  · next hend =>
    have hne : closings n.blocks ≠ [] := fun hnil => h hend (closings_eq_nil.1 hnil)
    exact List.tail_append_of_ne_nil hne
  · rfl

end Nest

end OpsLang
