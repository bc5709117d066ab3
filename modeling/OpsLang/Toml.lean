import OpsLang.Numeral.Binary64

/-!
# TOML tables

A `Toml` value is what a TOML document holds under a key. A table remembers how it came to be
(`Toml.Origin`), since that decides which later lines may add to it : `addPair` puts a
value under a dotted key, and `addTable` and `addArrayTable` put the table of a header. Each
refuses to define a key twice.
-/

namespace OpsLang

/-- How a table came to be. -/
inductive Toml.Origin where
  /-- On the way to the table of a header. -/
  | implied
  /-- On the way to the last segment of a dotted key. -/
  | dotted
  /-- By a header of its own, or as the whole document. -/
  | header
  /-- Between braces. -/
  | inline_
  deriving DecidableEq, Repr

/-- A value. Dates and times keep their spelling. -/
inductive Toml where
  | string (value : String)
  | integer (value : Int)
  | real (value : Binary64)
  | moment (spelling : String)
  | truth (value : Bool)
  | array (items : List Toml)
  | table (origin : Toml.Origin) (entries : List (String × Toml))
  /-- The tables of the headers in double brackets of one name. -/
  | tables (items : List (List (String × Toml)))
  deriving Inhabited

namespace Toml

/-- The entries of a table, in the order they were defined. -/
abbrev Entries : Type := List (String × Toml)

/-- The entries with another value under a key that is there. -/
def replace (key : String) (value : Toml) (es : Entries) : Entries :=
  es.map fun e => if e.1 == key then (key, value) else e

/-- Change the table that a path leads to from a table of origin `origin`. Tables that are
not there are made, as `made`. A table that has a header cannot be reached by a dotted key,
and a value that is no table cannot be passed. -/
def editAt (made : Origin) (f : Origin → Entries → Option Entries) :
    List String → Origin → Entries → Option Entries
  | [], origin, es => f origin es
  | k :: ks, _, es =>
    match es.lookup k with
    | none => (editAt made f ks made []).map fun sub => es ++ [(k, table made sub)]
    | some (table origin sub) =>
      if origin = .inline_ ∨ (made = .dotted ∧ origin = .header) then none
      else (editAt made f ks origin sub).map fun sub => replace k (table origin sub) es
    | some (tables items) =>
      match items.getLast? with
      | some last =>
        (editAt made f ks .header last).map fun sub =>
          replace k (tables (items.dropLast ++ [sub])) es
      | none => none
    | some _ => none

/-- Put a value under a dotted key. The tables on the way have to be made by dotted keys. -/
def addPair (path : List String) (key : String) (value : Toml) (es : Entries) : Option Entries :=
  editAt .dotted
    (fun origin es =>
      if (origin = .dotted) = path.isEmpty then none
      else if (es.lookup key).isSome then none
      else some (es ++ [(key, value)]))
    path .header es

/-- A value under a dotted key. -/
structure Pair where
  path : List String
  key : String
  value : Toml

/-- Put pairs, in order. -/
def addPairs (pairs : List Pair) (es : Entries) : Option Entries :=
  pairs.foldlM (fun es p => addPair p.path p.key p.value es) es

/-- Put the table of a header with its pairs, which join what is there already : nothing, or
the tables inside it that came before it. -/
def addTable (path : List String) (key : String) (pairs : List Pair) (es : Entries) :
    Option Entries :=
  editAt .implied
    (fun _ es =>
      match es.lookup key with
      | none => (addPairs pairs []).map fun sub => es ++ [(key, table .header sub)]
      | some (table .implied sub) =>
        (addPairs pairs sub).map fun sub => replace key (table .header sub) es
      | some _ => none)
    path .header es

/-- Put one more table of a header in double brackets, with its pairs. -/
def addArrayTable (path : List String) (key : String) (pairs : List Pair) (es : Entries) :
    Option Entries :=
  editAt .implied
    (fun _ es =>
      match es.lookup key with
      | none => (addPairs pairs []).map fun sub => es ++ [(key, tables [sub])]
      | some (tables items) =>
        (addPairs pairs []).map fun sub => replace key (tables (items ++ [sub])) es
      | some _ => none)
    path .header es

/-- The values of a record with the given keys, each with none for a missing one. A table may
have no other key. An array lists the values in order; what it has too many is ignored. -/
def slots? (keys : List String) : Toml → Option (List (Option Toml))
  | table _ es =>
    if es.all fun e => keys.contains e.1 then some (keys.map fun k => es.lookup k) else none
  | array items => some (keys.mapIdx fun i _ => items[i]?)
  | tables items => some (keys.mapIdx fun i _ => items[i]?.map (table .header))
  | _ => none

/-- The value holds no entries and no items. -/
def isEmpty : Toml → Bool
  | table _ es => es.isEmpty
  | array items => items.isEmpty
  | tables items => items.isEmpty
  | _ => false

/-- The word that a value names : a string, or a table that has it as its only key, with an
empty value. -/
def word? : Toml → Option String
  | string s => some s
  | table _ [(k, v)] => if v.isEmpty then some k else none
  | _ => none

end Toml

end OpsLang
