/-!
# Positions in a text

A `Place` is a point between two characters of a text : its offset in bytes, its line and
its column. A `Span` is the stretch of text of one token : the offsets of both its ends
with the line and the column of its start. Lines and columns count from one, columns count
characters, and only a line feed begins a new line.
-/

namespace OpsLang

/-- A stretch of text, from byte `start` up to byte `stop`, with the line and the column
of its start. -/
structure Span where
  start : Nat
  stop : Nat
  line : Nat
  column : Nat
  deriving DecidableEq, Repr, Inhabited

/-- The line and the column, as `line:column`. -/
def Span.position (s : Span) : String :=
  s!"{s.line}:{s.column}"

/-- A point of a text. -/
structure Place where
  offset : Nat
  line : Nat
  column : Nat
  deriving DecidableEq, Repr

/-- The point before the first character. -/
def Place.origin : Place := ⟨0, 1, 1⟩

/-- The point after one more character. -/
def Place.step (p : Place) (c : Char) : Place :=
  if c = '\n' then ⟨p.offset + c.utf8Size, p.line + 1, 1⟩
  else ⟨p.offset + c.utf8Size, p.line, p.column + 1⟩

/-- The point after the characters `cs`. -/
def Place.after (p : Place) (cs : List Char) : Place :=
  cs.foldl Place.step p

/-- The span from one point to another. -/
def Place.to (p q : Place) : Span :=
  ⟨p.offset, q.offset, p.line, p.column⟩

@[simp]
theorem Place.after_nil (p : Place) : p.after [] = p := rfl

@[simp]
theorem Place.after_cons (p : Place) (c : Char) (cs : List Char) :
    p.after (c :: cs) = (p.step c).after cs := rfl

theorem Place.after_append (p : Place) (cs ds : List Char) :
    p.after (cs ++ ds) = (p.after cs).after ds :=
  List.foldl_append

end OpsLang
