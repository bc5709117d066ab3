import OpsLang.Proofs.Appending.Statement
import OpsLang.Proofs.Reports.Grammar

/-!
# Readings that fork

Two rows begin with the tokens `us`, and go on as the streams `x` and `y`. `Forked` relates what
comes of reading the one to what comes of reading the other. Within `us` both are read in the same
way; and where the first reading fails at `x`, what its diagnostic lists could have stood there :
if `y` opens as one of the entries does (`Wanted.Opens`), the second reading passes the token at `y`
(`Lists`).

A value that ends at `x` ends at `y` as well, or the second reading goes on with the value there.
How much of this a construct allows is told by two parameters. Expressions do not go on with a
token that stops them (`Token.stops`), so they allow nothing. A statement allows that the second
reading passes the token at `y`. And a repetition that `x` closes allows anything if `y` does not
close it, since what follows passes the token at `x` or fails there for want of another closing.

`Forked` passes through sequencing (`ForksAt.bind`) and repetition (`ForksAt.many`).
-/

namespace OpsLang

/-! ## Places of outcomes -/

namespace Outcome

variable {α β : Type} {s s' : Stream} {o : Outcome α}

/-- What the outcome leaves, or the place of its fault, lies from `s` on. -/
def Lands (s : Stream) : Outcome α → Prop
  | ok _ s' => s.Reaches s'
  | fail d _ => ∃ p, s.Reaches p ∧ d.span = p.here.span
  | endless => True

/-- The outcome lies behind the token that stands at `s`. -/
def Passes (s : Stream) : Outcome α → Prop
  | endless => True
  | o => s.token ≠ .eof ∧ o.Lands s.advance

theorem Lands.of_reaches (hs : s.Reaches s') (h : o.Lands s') : o.Lands s := by
  cases o with
  | ok a s'' => exact hs.trans h
  | fail d s'' =>
    obtain ⟨p, hp, hd⟩ := h
    exact ⟨p, hs.trans hp, hd⟩
  | endless => trivial

theorem Lands.andThen {f : α → Stream → Outcome β} (h : o.Lands s)
    (hf : ∀ a s', s.Reaches s' → (f a s').Lands s') : (o.andThen f).Lands s := by
  cases o with
  | ok a s' => exact (hf a s' h).of_reaches h
  | fail d s' => exact h
  | endless => trivial

theorem Lands.map (g : α → β) (h : o.Lands s) : (o.map g).Lands s :=
  h.andThen fun _ s' _ => Stream.Reaches.refl s'

theorem Lands.passes (h : o.Lands s.advance) (hs : s.token ≠ .eof) : o.Passes s := by
  cases o with
  | endless => trivial
  | _ => exact ⟨hs, h⟩

theorem passes_advance (h : s.token ≠ .eof) (a : α) : (ok a s.advance).Passes s :=
  ⟨h, Stream.Reaches.refl _⟩

theorem Passes.lands (h : o.Passes s) : o.Lands s.advance := by
  cases o with
  | endless => trivial
  | _ => exact h.2

theorem Passes.of_reaches (h : o.Passes s') (hs : s.advance.Reaches s') (ht : s.token ≠ .eof) :
    o.Passes s :=
  (h.lands.of_reaches (hs.trans s'.reaches_advance)).passes ht

/-- What follows a value behind the token at `s` lies behind it as well. -/
theorem Passes.andThen_of {f : α → Stream → Outcome β} (h : o.Passes s)
    (hf : ∀ a s', s.advance.Reaches s' → (f a s').Lands s') : (o.andThen f).Passes s := by
  cases o with
  | endless => trivial
  | ok a s' => exact ((h.2 : Outcome.Lands _ _).andThen hf).passes h.1
  | fail d s' => exact h

theorem Passes.map (g : α → β) (h : o.Passes s) : (o.map g).Passes s :=
  h.andThen_of fun _ s' _ => Stream.Reaches.refl s'

end Outcome

namespace Reader

variable {α β : Type}

/-- On a closed stream the outcome lies from its start on. -/
def Lands (r : Reader α) : Prop :=
  ∀ s : Stream, s.Closed → (r s).Lands s

theorem Lands.bind {r : Reader α} {f : α → Reader β} (h : r.Lands) (hf : ∀ a, (f a).Lands) :
    (r >>= f).Lands :=
  fun s hs => (h s hs).andThen fun a s' hs' => hf a s' (hs'.closed hs)

theorem Lands.ite {c : Prop} [Decidable c] {r r' : Reader α} (h : r.Lands) (h' : r'.Lands) :
    (if c then r else r').Lands := by
  split
  · exact h
  · exact h'

theorem lands_of_marks {r : Reporter α} (h : r.Marks Stream.Blames) : r.outcome.Lands := by
  intro s hs
  have hr := h s hs
  show (r s).2.Lands s
  generalize r s = x at hr
  cases hr with
  | ok h _ => exact h.reaches
  | fail h _ hd _ => exact ⟨_, h.reaches, hd.span⟩
  | endless => trivial

theorem Marks.lands {r : Reader α} (h : r.Marks Stream.Blames) : r.Lands :=
  lands_of_marks h

/-- What a repetition does behind a round lands if the rounds that may follow do. -/
theorem lands_afterRound {round : Reader (Turn α)} {n : Nat} {turn : Turn α} {s : Stream}
    (h : s.size < n → (many round s).Lands s) : (afterRound round n turn s).Lands s := by
  obtain ⟨as, heq⟩ | ⟨g, heq⟩ := afterRound_cases turn
  · rw [heq]
    exact Stream.Reaches.refl s
  · rw [heq]
    split
    · next hlt => exact (h hlt).map g
    · trivial

theorem Lands.many {round : Reader (Turn α)} (h : round.Lands) : Lands (many round) := by
  intro s
  induction hn : s.size using Nat.strongRecOn generalizing s with
  | _ n ih =>
    subst hn
    intro hs
    rw [many_run]
    exact (h s hs).andThen fun _ s' hs' => lands_afterRound fun hlt =>
      ih _ hlt s' rfl (hs'.closed hs)

theorem lands_pure (a : α) : (pure a : Reader α).Lands :=
  fun s _ => Stream.Reaches.refl s

end Reader

section Passing

variable {α β : Type} {s : Stream} {o : Outcome α}

theorem Outcome.Passes.andThen {f : α → Reader β} (h : o.Passes s) (hs : s.Closed)
    (hf : ∀ a, (f a).Lands) : (o.andThen fun a s' => f a s').Passes s :=
  h.andThen_of fun a s' hs' => hf a s' (hs'.closed hs.advance)

/-- A repetition whose first round passes a token passes it. -/
theorem Outcome.Passes.many {round : Reader (Turn α)} {s p : Stream} (h : (round s).Passes p)
    (hp : p.Closed) (hround : round.Lands) : (Reader.many round s).Passes p := by
  rw [Reader.many_run]
  exact h.andThen_of fun _ s' hs' => Reader.lands_afterRound fun _ =>
    hround.many s' (hs'.closed hp.advance)

/-- What goes on behind the token at `s` passes it. -/
theorem Reader.Lands.passes {r : Reader α} (h : r.Lands) (hs : s.Closed) (ht : s.token ≠ .eof) :
    (r s.advance).Passes s :=
  (h s.advance hs.advance).passes ht

end Passing

/-! ## What may be wanted -/

/-- The name that may be wanted. -/
inductive NameUse where
  | plain
  | member
  | procedure
  | loop
  | type
  | field
  deriving DecidableEq

/-- What a diagnostic may list as wanted. -/
inductive Wanted where
  | keyword (k : Keyword)
  | symbol (y : Symbol)
  | closer (kind : BlockKind)
  | name (use : NameUse)
  | expression
  | statement
  | type
  | integer
  deriving DecidableEq

/-- Every use of a name. -/
def NameUse.all : List NameUse :=
  [plain, member, procedure, loop, type, field]

/-- Every symbol. -/
def Symbol.all : List Symbol :=
  [leftParen, rightParen, leftBrace, rightBrace, leftBracket, rightBracket, comma, dot, semicolon,
    colon, assign, equal, notEqual, lessGreater, less, lessEqual, greater, greaterEqual, plus, minus,
    star, slash, starStar]

/-- How diagnostics speak of a name. -/
def NameUse.text : NameUse → String
  | plain => "identifier"
  | member => "identifier after '.'"
  | procedure => "procedure name"
  | loop => "loop variable"
  | type => "type name"
  | field => "field name"

/-- The token cannot go on with an expression that could end before it. -/
def Token.stops : Token → Bool
  | .symbol .dot | .symbol .leftParen | .symbol .comma | .symbol .assign | .unit _ => false
  | t => (BinaryOp.ofToken? t).isNone

namespace Wanted

/-- How diagnostics list what is wanted. -/
def text : Wanted → String
  | keyword k => "'" ++ k.text ++ "'"
  | symbol y => "'" ++ y.text ++ "'"
  | closer kind => Grammar.endText kind.closer.text
  | name use => use.text
  | expression => "expression"
  | statement => "statement"
  | type => "type"
  | integer => "integer literal"

/-- The stream begins with what is wanted, or with a simple form of it. -/
def Opens : Wanted → Stream → Prop
  | keyword k, s => s.token = .keyword k
  | symbol y, s => s.token = .symbol y
  | closer kind, s => s.token = .keyword .end_ ∧ s.next = .keyword kind.closer
  | name _, s => ∃ n, s.token = .name n
  | expression, s => ∃ x, s.token = .number x
  | statement, s => s.token = .keyword .initiate
  | type, s => ∃ n, s.token = .name n
  | integer, s => ∃ x n, s.token = .number x ∧ (Numeral.ofLexeme x).toUInt64? = some n

/-- The first token of what is wanted stops an expression before it. -/
def stops : Wanted → Bool
  | keyword k => (Token.keyword k).stops
  | symbol y => (Token.symbol y).stops
  | _ => true

/-- A declaration is wanted, which opens a level. -/
def IsDeclaration (w : Wanted) : Prop :=
  w = keyword .namespace_ ∨ w = keyword .type

/-- All that may be wanted. -/
def all : List Wanted :=
  Keyword.all.map keyword ++ Symbol.all.map symbol ++ BlockKind.all.map closer ++
    NameUse.all.map name ++ [expression, statement, type, integer]

theorem mem_all (w : Wanted) : w ∈ all := by
  cases w with
  | keyword k => cases k <;> decide
  | symbol y => cases y <;> decide
  | closer kind => cases kind <;> decide
  | name use => cases use <;> decide
  | _ => decide

/-- An entry tells what is wanted. -/
theorem text_injective {w w' : Wanted} (h : w.text = w'.text) : w = w' := by
  have hall : (all.map text).Nodup := by decide
  exact List.inj_on_of_nodup_map hall w.mem_all w'.mem_all h

end Wanted

/-! ## Outcomes -/

/-- The diagnostic is of grammar and lists what could stand at its place, which is not so of a type
that is declared as a mere name. -/
def Diagnostic.IsListing (d : Diagnostic) : Prop :=
  d.kind = .grammar ∧ d.expected ≠ ["'struct'", "'['", "primitive type"]

section Outcomes

variable {α β γ : Type} {x y : Stream} {L : Prop} {C : α → Prop} {us vs : List Located}
  {d : Diagnostic} {o' : Outcome β} {o'' : Outcome γ}

/-- Where `w` was wanted and `y` opens so, the outcome lies behind the token at `y`; or a
declaration would be open inside too many others there. -/
def Wanted.Admits (w : Wanted) (y : Stream) (o' : Outcome β) : Prop :=
  o'.Passes y ∨ w.IsDeclaration ∧ ∃ s, o' = .fail y.tooDeep s

theorem Wanted.Admits.andThen {w : Wanted} {o : Outcome α} {f : α → Stream → Outcome β}
    (h : w.Admits y o) (hf : ∀ a s, y.advance.Reaches s → (f a s).Lands s) :
    w.Admits y (o.andThen f) := by
  obtain h | ⟨hw, s, rfl⟩ := h
  · exact .inl (h.andThen_of hf)
  · exact .inr ⟨hw, s, rfl⟩

/-- The diagnostic is about the place `x`, and what it lists could have stood there : if `y` opens
so, the outcome `o'` lies behind the token at `y`. -/
structure Lists (x y : Stream) (d : Diagnostic) (o' : Outcome β) : Prop where
  span : d.span = x.here.span
  entries : d.IsListing → ∀ entry ∈ d.expected, ∃ w : Wanted, w.text = entry ∧ w.stops = true
  admits : d.IsListing → ∀ w : Wanted, w.text ∈ d.expected → w.Opens y → w.Admits y o'

/-- What comes of reading `us` before `x`, and of reading `us` before `y`. -/
inductive Forked (x y : Stream) (L : Prop) (C : α → Prop) (us : List Located) :
    Outcome α → Outcome α → Prop
  /-- A value for which some of `us` was taken. -/
  | within {a : α} {v : Located} {vs : List Located} (hvs : v :: vs <:+ us) :
    Forked x y L C us (.ok a (x.behind (v :: vs))) (.ok a (y.behind (v :: vs)))
  /-- A value for which all of `us` was taken. -/
  | upTo {a : α} : Forked x y L C us (.ok a x) (.ok a y)
  /-- A value that is another before `y`, where the token at `y` belongs to it. -/
  | longer {a : α} {o' : Outcome α} (hL : L) (h : o'.Passes y) : Forked x y L C us (.ok a x) o'
  /-- A value that is closed at `x`, and not at `y`. -/
  | closed {a : α} {o' : Outcome α} (hC : C a) (hne : y.token ≠ x.token) :
    Forked x y L C us (.ok a x) o'
  | before {d : Diagnostic} {s : Stream} {o' : Outcome α} (hd : ∃ u ∈ us, d.span = u.span)
      (h : L ∨ ∃ s', o' = .fail d s') : Forked x y L C us (.fail d s) o'
  | here {d : Diagnostic} {s : Stream} {o' : Outcome α} (h : Lists x y d o') :
    Forked x y L C us (.fail d s) o'
  | behind {o o' : Outcome α} (h : o.Passes x) : Forked x y L C us o o'

theorem Stream.not_isListing_unterminated {s : Stream} {kind : BlockKind} {line : Nat} :
    ¬(s.unterminated kind line).IsListing := by
  simp [Diagnostic.IsListing, Stream.unterminated, Diagnostic.unterminated]

/-- A list without entries. -/
theorem Lists.of_not_listing (hspan : d.span = x.here.span) (h : ¬d.IsListing) :
    Lists x y d o' where
  span := hspan
  entries hlisting := absurd hlisting h
  admits hlisting := absurd hlisting h

/-- A diagnostic whose entries are `ws`. -/
theorem Lists.of_entries (ws : List Wanted) (hspan : d.span = x.here.span)
    (htext : d.expected = ws.map Wanted.text) (hws : ∀ w ∈ ws, w.stops = true)
    (h : ∀ w ∈ ws, w.Opens y → w.Admits y o') : Lists x y d o' where
  span := hspan
  entries _ entry hentry := by
    rw [htext] at hentry
    obtain ⟨w, hw, rfl⟩ := List.mem_map.1 hentry
    exact ⟨w, rfl, hws w hw⟩
  admits _ w hw := by
    rw [htext] at hw
    obtain ⟨w', hw', heq⟩ := List.mem_map.1 hw
    exact h w (Wanted.text_injective heq ▸ hw')

theorem Lists.imp (h : Lists x y d o') (hadmits : ∀ w : Wanted, w.Opens y → w.Admits y o' →
    w.Admits y o'') : Lists x y d o'' where
  span := h.span
  entries := h.entries
  admits hd w hw hopens := hadmits w hopens (h.admits hd w hw hopens)

theorem Lists.of_passes (h : Lists x y d o') (ho : o''.Passes y) : Lists x y d o'' :=
  h.imp fun _ _ _ => .inl ho

namespace Forked

theorem taken {a : α} (hvs : vs <:+ us) :
    Forked x y L C us (.ok a (x.behind vs)) (.ok a (y.behind vs)) := by
  cases vs with
  | nil => exact .upTo
  | cons v vs => exact .within hvs

theorem of_suffix {o o' : Outcome α} (h : Forked x y L C vs o o') (hvs : vs <:+ us) :
    Forked x y L C us o o' := by
  cases h with
  | within hws => exact .within (hws.trans hvs)
  | upTo => exact .upTo
  | longer hL h => exact .longer hL h
  | closed hC hne => exact .closed hC hne
  | before hd h =>
    obtain ⟨u, hu, hspan⟩ := hd
    exact .before ⟨u, hvs.subset hu, hspan⟩ h
  | here h => exact .here h
  | behind h => exact .behind h

theorem map {C' : β → Prop} {o o' : Outcome α} (h : Forked x y L C us o o') (g : α → β)
    (hC : ∀ a, C a → C' (g a)) : Forked x y L C' us (o.map g) (o'.map g) := by
  cases h with
  | within hws => exact .within hws
  | upTo => exact .upTo
  | longer hL h => exact .longer hL (h.map g)
  | closed h' hne => exact .closed (hC _ h') hne
  | before hd h =>
    refine .before hd (h.imp_right ?_)
    rintro ⟨s', rfl⟩
    exact ⟨s', rfl⟩
  | here h =>
    refine .here (h.imp fun _ _ hw => ?_)
    obtain hp | ⟨hw, s, rfl⟩ := hw
    · exact .inl (hp.map g)
    · exact .inr ⟨hw, s, rfl⟩
  | behind h => exact .behind (h.map g)

theorem mono {L' : Prop} {C' : α → Prop} {o o' : Outcome α} (h : Forked x y L C us o o')
    (hL : L → L') (hC : ∀ a, C a → C' a) : Forked x y L' C' us o o' := by
  cases h with
  | within hws => exact .within hws
  | upTo => exact .upTo
  | longer h' h => exact .longer (hL h') h
  | closed h' hne => exact .closed (hC _ h') hne
  | before hd h => exact .before hd (h.imp_left hL)
  | here h => exact .here h
  | behind h => exact .behind h

/-- A value that ends within what the rows have in common is that of both. -/
theorem ok_within {a : α} {v : Located} {o' : Outcome α}
    (h : Forked x y L C us (.ok a (x.behind (v :: vs))) o') : o' = .ok a (y.behind (v :: vs)) := by
  have hsize : x.size < (x.behind (v :: vs)).size := by
    rw [Stream.size_behind, List.length_cons]
    omega
  generalize hp : x.behind (v :: vs) = p at h hsize
  cases h with
  | @within _ w ws =>
    rw [Stream.behind_inj.1 hp]
  | upTo => exact absurd hsize (Nat.lt_irrefl _)
  | longer => exact absurd hsize (Nat.lt_irrefl _)
  | closed => exact absurd hsize (Nat.lt_irrefl _)
  | behind h =>
    have hreach : x.Reaches p := x.reaches_advance.trans h.2
    exact absurd hsize (Nat.not_lt.2 hreach.size_le)

/-- Where nothing stood before `y`, the second reading may be any that passes the token there. -/
theorem of_passes {o o' o'' : Outcome α} (h : Forked x y L C [] o o') (hL : L)
    (ho : o''.Passes y) : Forked x y L C us o o'' := by
  cases h with
  | within hvs => exact absurd (List.suffix_nil.1 hvs) (List.cons_ne_nil _ _)
  | upTo => exact .longer hL ho
  | longer => exact .longer hL ho
  | closed => exact .longer hL ho
  | before hd _ =>
    obtain ⟨u, hu, -⟩ := hd
    cases hu
  | here h => exact .here (h.of_passes ho)
  | behind h => exact .behind h

/-- Going on from a value, in each of the readings. Where the value is closed at `x` and not at `y`,
what follows has to fork from anything. -/
theorem andThen {D : α → Prop} {C : β → Prop} {o o' : Outcome α} {f g : α → Stream → Outcome β}
    (h : Forked x y L D us o o')
    (hfg : ∀ a vs, vs <:+ us → Forked x y L C vs (f a (x.behind vs)) (g a (y.behind vs)))
    (hf : ∀ a s, x.advance.Reaches s → (f a s).Lands s)
    (hg : ∀ a s, y.advance.Reaches s → (g a s).Lands s)
    (hD : ∀ a, D a → y.token ≠ x.token → ∀ o'', Forked x y L C [] (f a x) o'') :
    Forked x y L C us (o.andThen f) (o'.andThen g) := by
  cases h with
  | within hvs => exact (hfg _ _ hvs).of_suffix hvs
  | upTo => exact (hfg _ [] List.nil_suffix).of_suffix List.nil_suffix
  | longer hL hp => exact (hfg _ [] List.nil_suffix).of_passes hL (hp.andThen_of hg)
  | closed hC hne => exact (hD _ hC hne _).of_suffix List.nil_suffix
  | before hd ho =>
    refine .before hd (ho.imp_right ?_)
    rintro ⟨s', rfl⟩
    exact ⟨s', rfl⟩
  | here hlists => exact .here (hlists.imp fun _ _ hw => hw.andThen hg)
  | behind hp => exact .behind (hp.andThen_of hf)

end Forked

end Outcomes

/-! ## Readers -/

/-- No value is closed. -/
def never {α : Type} : α → Prop :=
  fun _ => False

/-- The token at `y` stops an expression before it, and begins no assignment. -/
structure Stream.Stops (y : Stream) : Prop where
  closed : y.Closed
  stops : y.token.stops = true
  next : y.next ≠ .symbol .assign

namespace Reader

variable {α β : Type} {x y : Stream} {L : Prop} {C : α → Prop} {us : List Located}

/-- At `x` the reader passes the token there, or fails and lists some of `ws`, and then it would
pass the token at `y` if `y` opens so. -/
def Begins (r : Reader α) (x y : Stream) (ws : List Wanted) : Prop :=
  (r x).Passes x ∨
    ∃ d s vs, r x = .fail d s ∧ d.span = x.here.span ∧
      (d.IsListing → d.expected = vs.map Wanted.text) ∧ vs ⊆ ws ∧
        ∀ w ∈ vs, w.Opens y → (r y).Passes y

theorem Begins.bind {r : Reader α} {f : α → Reader β} {ws : List Wanted} (h : r.Begins x y ws)
    (hx : x.Closed) (hy : y.Closed) (hf : ∀ a, (f a).Lands) : (r >>= f).Begins x y ws := by
  obtain hp | ⟨d, s, vs, hr, hspan, htext, hvs, hopens⟩ := h
  · exact .inl (hp.andThen hx hf)
  · refine .inr ⟨d, s, vs, ?_, hspan, htext, hvs, fun w hw ho => (hopens w hw ho).andThen hy hf⟩
    rw [bind_run, hr, Outcome.andThen_fail]

/-- In front of `x` a construct is begun, or what could begin it is listed, and then the second
reading is one of this construct. -/
theorem Begins.forked_of {r : Reader α} {ws : List Wanted} {o' : Outcome α} (h : r.Begins x y ws)
    (hws : ∀ w ∈ ws, w.stops = true) (ho : ∀ w ∈ ws, w.Opens y → o' = r y) :
    Forked x y L C us (r x) o' := by
  obtain hp | ⟨d, s, vs, hr, hspan, htext, hvs, hopens⟩ := h
  · exact .behind hp
  rw [hr]
  refine .here ?_
  by_cases hd : d.IsListing
  · refine .of_entries vs hspan (htext hd) (fun w hw => hws w (hvs hw)) fun w hw hy => .inl ?_
    rw [ho w (hvs hw) hy]
    exact hopens w hw hy
  · exact .of_not_listing hspan hd

theorem Begins.forked {r : Reader α} {ws : List Wanted} (h : r.Begins x y ws)
    (hws : ∀ w ∈ ws, w.stops = true) : Forked x y L C us (r x) (r y) :=
  h.forked_of hws fun _ _ _ => rfl

/-- The reader forks behind `us`. -/
structure ForksAt (r : Reader α) (x y : Stream) (L : Prop) (C : α → Prop) (us : List Located) :
    Prop where
  lands : r.Lands
  forked : Forked x y L C us (r (x.behind us)) (r (y.behind us))

namespace ForksAt

theorem weaken {r : Reader α} (h : r.ForksAt x y L never us) : r.ForksAt x y L C us where
  lands := h.lands
  forked := h.forked.mono id fun _ => False.elim

theorem pure (a : α) : (Pure.pure a : Reader α).ForksAt x y L C us where
  lands := lands_pure a
  forked := .taken List.suffix_rfl

/-- In front of `x` a reader that passes the token there forks from any. -/
theorem of_passes {r : Reader α} (h : r.Lands) (hr : (r x).Passes x) : r.ForksAt x y L C [] where
  lands := h
  forked := .behind hr

section Closed

variable (hx : x.Closed) (hy : y.Closed)

include hx hy

/-- Going on from a value. Where the value is closed at `x` and not at `y`, what follows has to
fork from anything. -/
theorem bind_closed {r : Reader α} {f : α → Reader β} {D : α → Prop} {C : β → Prop}
    (h : r.ForksAt x y L D us) (hf : ∀ a vs, vs <:+ us → (f a).ForksAt x y L C vs)
    (hD : ∀ a, D a → y.token ≠ x.token → ∀ o', Forked x y L C [] (f a x) o') :
    (r >>= f).ForksAt x y L C us := by
  have hlands : ∀ a, (f a).Lands := fun a => (hf a [] List.nil_suffix).lands
  refine ⟨h.lands.bind hlands, ?_⟩
  rw [bind_run, bind_run]
  exact h.forked.andThen (fun a vs hvs => (hf a vs hvs).forked)
    (fun a s hs => hlands a s (hs.closed hx.advance))
    (fun a s hs => hlands a s (hs.closed hy.advance)) hD

theorem bind {r : Reader α} {f : α → Reader β} {C : β → Prop} (h : r.ForksAt x y L never us)
    (hf : ∀ a vs, vs <:+ us → (f a).ForksAt x y L C vs) : (r >>= f).ForksAt x y L C us :=
  h.bind_closed hx hy hf fun _ hD => hD.elim

end Closed

theorem ite {c : Prop} [Decidable c] {r r' : Reader α} (h : c → r.ForksAt x y L C us)
    (h' : ¬c → r'.ForksAt x y L C us) : (if c then r else r').ForksAt x y L C us := by
  split
  · next hc => exact h hc
  · next hc => exact h' hc

/-- A reader that is another one behind `us`. -/
theorem congr_cons {r r' : Reader α} {u : Located} (h : r'.ForksAt x y L C (u :: us))
    (hr : r.Lands) (heq : ∀ s : Stream, r (s.behind (u :: us)) = r' (s.behind (u :: us))) :
    r.ForksAt x y L C (u :: us) where
  lands := hr
  forked := by
    rw [heq, heq]
    exact h.forked

/-- Looking at the current token, where some of `us` is left. -/
theorem peek_cons {f : Token → Reader α} {u : Located} (hr : (peek >>= f).Lands)
    (h : (f u.token).ForksAt x y L C (u :: us)) : (peek >>= f).ForksAt x y L C (u :: us) where
  lands := hr
  forked := h.forked

/-- A repetition forks if its round does, where only the last round may be closed. -/
theorem many (hx : x.Closed) (hy : y.Closed) {round : Reader (Turn α)} {D : Turn α → Prop}
    {P : Prop} (h : ∀ vs, vs <:+ us → round.ForksAt x y L D vs)
    (hD : ∀ t, D t → (t = .stop ∨ ∃ a, t = .last a) ∧ P) :
    ForksAt (Reader.many round) x y L (fun _ => P) us := by
  have hlands : round.Lands := (h us List.suffix_rfl).lands
  have hafter {p : Stream} (hp : p.Closed) (n : Nat) (turn : Turn α) (s : Stream)
      (hs : p.advance.Reaches s) : (afterRound round n turn s).Lands s :=
    lands_afterRound fun _ => hlands.many s (hs.closed hp.advance)
  refine ⟨hlands.many, ?_⟩
  induction hn : us.length using Nat.strongRecOn generalizing us with
  | _ n ih =>
    subst hn
    rw [many_run, many_run]
    refine (h us List.suffix_rfl).forked.andThen (fun turn vs hvs => ?rest) (hafter hx _)
      (hafter hy _) fun turn hturn hne _ => ?closed
    case rest =>
      have hsize (s : Stream) : (s.behind vs).size < (s.behind us).size ↔ vs.length < us.length :=
        Stream.size_behind_lt_size_behind
      obtain ⟨as, heq⟩ | ⟨g, heq⟩ := afterRound_cases turn
      · rw [heq, heq]
        exact .taken List.suffix_rfl
      · simp only [heq, hsize]
        split
        · next hlt =>
          exact (ih _ hlt (fun ws hws => h ws (hws.trans hvs)) rfl).map g fun _ => id
        · exact .behind trivial
    case closed =>
      obtain ⟨rfl | ⟨a, rfl⟩, hP⟩ := hD _ hturn
      · exact .closed hP hne
      · exact .closed hP hne

end ForksAt

/-! ### Small readers -/

section Small

theorem ForksAt.skip (h : us = [] → x.token ≠ .eof) {C : Unit → Prop} :
    Reader.skip.ForksAt x y L C us := by
  refine ⟨marks_skip.lands, ?_⟩
  cases us with
  | nil => exact .behind ⟨h rfl, Stream.Reaches.refl _⟩
  | cons u us =>
    rw [skip_run, skip_run, Stream.advance_behind_cons, Stream.advance_behind_cons]
    exact .taken (List.suffix_cons u us)

theorem lands_failAt {d : Stream → Diagnostic} (hd : IsAboutHere d) :
    (Reader.failAt d : Reader α).Lands :=
  fun s _ => ⟨s, .refl s, hd.span s⟩

/-- A fault that lists nothing. -/
theorem ForksAt.failAt {d : Stream → Diagnostic} (hd : IsAboutHere d)
    (h : us = [] → ¬(d x).IsListing) : (Reader.failAt d : Reader α).ForksAt x y L C us := by
  refine ⟨lands_failAt hd, ?_⟩
  cases us with
  | nil => exact .here (.of_not_listing (hd.span x) (h rfl))
  | cons u us =>
    refine .before ⟨u, List.mem_cons_self, hd.span _⟩ (.inr ⟨y.behind (u :: us), ?_⟩)
    rw [failAt_run, hd.here (y.behind (u :: us)) (x.behind (u :: us)) rfl]

/-- A fault in front of both. -/
theorem ForksAt.failAt_cons {d : Stream → Diagnostic} (hd : IsAboutHere d) {u : Located} :
    (Reader.failAt d : Reader α).ForksAt x y L C (u :: us) :=
  .failAt hd (by simp)

theorem forksAt_tooDeep : (tooDeep : Reader α).ForksAt x y L C us := by
  refine ⟨fun s _ => ⟨s, .refl s, rfl⟩, ?_⟩
  cases us with
  | nil => exact .here (.of_entries [] rfl rfl (by simp) (by simp))
  | cons u us => exact .before ⟨u, List.mem_cons_self, rfl⟩ (.inr ⟨_, rfl⟩)

/-- The reader takes the current token for the value that `g` gives it, or refuses it and lists
`ws`. -/
structure TakesOne (r : Reader α) (g : Token → Option α) (ws : List Wanted) : Prop where
  run : ∀ s, r s = match g s.token with
    | some a => .ok a s.advance
    | none => .fail (s.expecting (ws.map Wanted.text)) s
  eof : g .eof = none
  opens : ∀ w ∈ ws, ∀ s, w.Opens s → ∃ a, g s.token = some a

namespace TakesOne

variable {r : Reader α} {g : Token → Option α} {ws : List Wanted} (h : r.TakesOne g ws)

include h

theorem passes {s : Stream} {a : α} (ha : g s.token = some a) : (r s).Passes s := by
  rw [h.run, ha]
  refine Outcome.passes_advance (fun he => ?_) a
  rw [he, h.eof] at ha
  cases ha

theorem lands : r.Lands := by
  intro s _
  rw [h.run]
  cases g s.token with
  | some a => exact s.reaches_advance
  | none => exact ⟨s, .refl s, rfl⟩

theorem begins : r.Begins x y ws := by
  cases hx : g x.token with
  | some a => exact .inl (h.passes hx)
  | none =>
    refine .inr ⟨_, x, ws, by rw [h.run, hx], rfl, fun _ => rfl, List.Subset.refl ws,
      fun w hw ho => ?_⟩
    obtain ⟨a, ha⟩ := h.opens w hw y ho
    exact h.passes ha

theorem forksAt (hws : ∀ w ∈ ws, w.stops = true) : r.ForksAt x y L C us := by
  refine ⟨h.lands, ?_⟩
  cases us with
  | nil => exact h.begins.forked hws
  | cons u us =>
    rw [h.run, h.run]
    simp only [Stream.token_behind_cons, Stream.advance_behind_cons]
    cases g u.token with
    | some a => exact .taken (List.suffix_cons u us)
    | none => exact .before ⟨u, List.mem_cons_self, rfl⟩ (.inr ⟨_, rfl⟩)

end TakesOne

theorem takesOne_keyword (k : Keyword) :
    (keyword k).TakesOne (fun t => if t = .keyword k then some () else none) [.keyword k] where
  run s := by
    rw [keyword_run]
    by_cases h : s.token = .keyword k <;> simp [h, Wanted.text]
  eof := rfl
  opens := by
    simp only [List.mem_singleton, forall_eq]
    exact fun s hs => ⟨(), if_pos hs⟩

theorem takesOne_symbol (z : Symbol) :
    (symbol z).TakesOne (fun t => if t = .symbol z then some () else none) [.symbol z] where
  run s := by
    rw [symbol_run]
    by_cases h : s.token = .symbol z <;> simp [h, Wanted.text]
  eof := rfl
  opens := by
    simp only [List.mem_singleton, forall_eq]
    exact fun s hs => ⟨(), if_pos hs⟩

theorem takesOne_name (use : NameUse) : (name use.text).TakesOne Token.name? [.name use] where
  run s := by
    rw [name_run]
    cases s.token <;> rfl
  eof := rfl
  opens := by
    simp only [List.mem_singleton, forall_eq]
    rintro s ⟨n, hn⟩
    exact ⟨n, by rw [hn]; rfl⟩

theorem takesOne_member (use : NameUse) : (member use.text).TakesOne Token.member? [.name use] where
  run s := by
    rw [member_run]
    unfold Token.member?
    cases s.token with
    | unit u => by_cases hu : u.toList.all isWordChar <;> simp [hu, Wanted.text]
    | _ => rfl
  eof := rfl
  opens := by
    simp only [List.mem_singleton, forall_eq]
    rintro s ⟨n, hn⟩
    exact ⟨n, by rw [hn]; rfl⟩

theorem forksAt_eat {t : Token} (ht : t ≠ .eof) (h : us = [] → y.token = t → L)
    {C : Bool → Prop} : (eat t).ForksAt x y L C us := by
  refine ⟨(marks_eat t).lands, ?_⟩
  simp only [eat_run]
  cases us with
  | nil =>
    rw [Stream.behind_nil, Stream.behind_nil]
    by_cases hx : x.token = t
    · rw [if_pos hx]
      exact .behind ⟨by rwa [hx], Stream.Reaches.refl _⟩
    by_cases hy : y.token = t
    · rw [if_neg hx, if_pos hy]
      exact .longer (h rfl hy) ⟨by rwa [hy], Stream.Reaches.refl _⟩
    · rw [if_neg hx, if_neg hy]
      exact .upTo
  | cons u us =>
    simp only [Stream.token_behind_cons, Stream.advance_behind_cons]
    split
    · exact .taken (List.suffix_cons u us)
    · exact .taken List.suffix_rfl

theorem ForksAt.skip_cons {u : Located} {C : Unit → Prop} :
    Reader.skip.ForksAt x y L C (u :: us) :=
  .skip fun h => absurd h (List.cons_ne_nil u us)

theorem forksAt_symbol_of_eq {z : Symbol} {u : Located} (hu : u.token = .symbol z)
    {C : Unit → Prop} : (symbol z).ForksAt x y L C (u :: us) :=
  ForksAt.skip_cons.congr_cons (takesOne_symbol z).lands fun s => by
    rw [symbol_run, Stream.token_behind_cons, if_pos hu, skip_run]

theorem forksAt_keyword (k : Keyword) (hk : (Token.keyword k).stops = true) {C : Unit → Prop} :
    (keyword k).ForksAt x y L C us :=
  (takesOne_keyword k).forksAt (by simpa [Wanted.stops] using hk)

theorem forksAt_symbol (z : Symbol) (hz : (Token.symbol z).stops = true) {C : Unit → Prop} :
    (symbol z).ForksAt x y L C us :=
  (takesOne_symbol z).forksAt (by simpa [Wanted.stops] using hz)

theorem forksAt_name (use : NameUse) {C : String → Prop} :
    (name use.text).ForksAt x y L C us :=
  (takesOne_name use).forksAt (by simp [Wanted.stops])

theorem forksAt_member (use : NameUse) {C : String → Prop} :
    (member use.text).ForksAt x y L C us :=
  (takesOne_member use).forksAt (by simp [Wanted.stops])

theorem forksAt_semicolons (hx : x.Closed) (hy : y.Closed) (hL : L) {C : Unit → Prop} :
    semicolons.ForksAt x y L C us := by
  have hround : ∀ vs, Grammar.semicolonRound.ForksAt x y L never vs := fun _ =>
    (forksAt_eat (by simp) fun _ _ => hL).bind hx hy fun _ _ _ =>
      .ite (fun _ => .pure _) fun _ => .pure _
  exact (ForksAt.many hx hy (fun vs _ => hround vs) fun _ => False.elim).bind_closed hx hy
    (fun _ _ _ => .pure _) fun _ => False.elim

/-! ### What is begun by its first token -/

/-- The reader passes over the token it begins at, and forks behind it. -/
structure Enters (r : Reader α) (x y : Stream) (L : Prop) : Prop where
  passes : ∀ s : Stream, s.Closed → s.token ≠ .eof → (r s).Passes s
  forksAt : ∀ u us, r.ForksAt x y L never (u :: us)

section Enters

variable (hx : x.Closed) (hy : y.Closed)

include hx hy

theorem enters_skip {f : Unit → Reader α} (hf : ∀ vs, (f ()).ForksAt x y L never vs) :
    (Reader.skip >>= f).Enters x y L where
  passes _ hs ht := (hf []).lands.passes hs ht
  forksAt _ _ := ForksAt.skip_cons.bind hx hy fun _ vs _ => hf vs

/-- Passing over a token, of which the place is kept. -/
theorem enters_here_skip {f : Located → Unit → Reader α}
    (hf : ∀ h vs, (f h ()).ForksAt x y L never vs) :
    (here >>= fun h => Reader.skip >>= f h).Enters x y L where
  passes s hs ht := (hf s.here []).lands.passes hs ht
  forksAt u us := by
    have hlands : ∀ h, (Reader.skip >>= f h).Lands := fun h =>
      (marks_skip (P := Stream.Blames)).lands.bind fun _ => (hf h []).lands
    exact ⟨fun s hs => hlands s.here s hs, ((enters_skip hx hy (hf u)).forksAt u us).forked⟩

theorem Enters.bind {r : Reader α} {f : α → Reader β} (h : r.Enters x y L)
    (hf : ∀ a vs, (f a).ForksAt x y L never vs) : (r >>= f).Enters x y L where
  passes s hs ht := (h.passes s hs ht).andThen hs fun a => (hf a []).lands
  forksAt u us := (h.forksAt u us).bind hx hy fun a vs _ => hf a vs

end Enters

end Small

end Reader

end OpsLang
