import OpsLang.Diagnostic
import OpsLang.Token

/-!
# Token streams

A `Stream` is a place in a row of tokens : the token that stands there and those after it.
There is always a current token. Past the last token the stream stays at it, while looking
ahead of it sees the end of the text, and an empty row counts as that end alone.
-/

namespace OpsLang

/-- A place in a row of tokens. -/
structure Stream where
  here : Located
  ahead : List Located
  deriving DecidableEq, Repr, Inhabited

namespace Stream

/-- The start of a row of tokens. -/
def ofTokens : List Located → Stream
  | [] => ⟨⟨.eof, Place.origin.to Place.origin⟩, []⟩
  | t :: ts => ⟨t, ts⟩

/-- The current token. -/
def token (s : Stream) : Token :=
  s.here.token

/-- The token after the current one. -/
def next (s : Stream) : Token :=
  match s.ahead with
  | [] => .eof
  | t :: _ => t.token

/-- The line of the current token. -/
def line (s : Stream) : Nat :=
  s.here.line

/-- The place of the next token, or the same place at the last one. -/
def advance (s : Stream) : Stream :=
  match s.ahead with
  | [] => s
  | t :: ts => ⟨t, ts⟩

/-- The number of tokens after the current one. -/
def size (s : Stream) : Nat :=
  s.ahead.length

/-- The current token stands where only `expected` may stand. -/
def expecting (s : Stream) (expected : List String) : Diagnostic :=
  .expecting s.here.span expected s.token.describe

theorem size_advance (s : Stream) : s.advance.size = s.size - 1 := by
  unfold advance size
  split <;> simp [*]

theorem size_advance_le (s : Stream) : s.advance.size ≤ s.size := by
  rw [size_advance]
  exact Nat.sub_le _ _

end Stream

end OpsLang
