/-!
# Folders of files

The command line sees files through a `Files`, which answers a path with the bytes there or
with the reason why there are none. `Folder.files` is the answer of a folder that holds
nothing but some files : `..` leads out of it, and nothing is known to be there but folders.
-/

namespace OpsLang

/-- The bytes where a path leads, or why there are none. -/
abbrev Files : Type :=
  String → Except String ByteArray

/-- A folder : the files in it and below it, each under the names on the way. -/
structure Folder where
  entries : List (List String × ByteArray)

namespace Folder

/-- Where a walk through folders has come to. -/
inductive Spot where
  | folder (names : List String)
  | file (bytes : ByteArray)
  /-- A folder out of which the walk began. -/
  | outside

/-- Nothing is there. -/
def noSuchFile : String := "No such file or directory (os error 2)"

/-- A file stands where a folder has to. -/
def notFolder : String := "Not a directory (os error 20)"

/-- A folder stands where a file has to. -/
def isFolder : String := "Is a directory (os error 21)"

/-- A name or a path is longer than files have. -/
def tooLong : String := "File name too long (os error 36)"

/-- Go to a name in a folder. -/
def enter (f : Folder) (names : List String) (name : String) : Except String Spot :=
  let path := names ++ [name]
  match f.entries.lookup path with
  | some bytes => .ok (.file bytes)
  | none =>
    if f.entries.any fun e => path.isPrefixOf e.1 then .ok (.folder path) else .error noSuchFile

/-- Follow one part of a path. -/
def follow (f : Folder) (s : Spot) (part : String) : Except String Spot :=
  match s with
  | .file _ => .error notFolder
  | .folder names =>
    if part = "" ∨ part = "." then .ok (.folder names)
    else if part = ".." then
      if names.isEmpty then .ok .outside else .ok (.folder names.dropLast)
    else if 255 < part.utf8ByteSize then .error tooLong
    else f.enter names part
  | .outside =>
    if part = "" ∨ part = "." ∨ part = ".." then .ok .outside
    else if 255 < part.utf8ByteSize then .error tooLong
    else .error noSuchFile

/-- The files of a folder, as seen from inside it. -/
def files (f : Folder) : Files := fun path =>
  if 4096 ≤ path.utf8ByteSize then .error tooLong
  else
    let start := if path.toList.head? = some '/' then Spot.outside else .folder []
    match (path.splitOn "/").foldlM f.follow start with
    | .ok (.file bytes) => .ok bytes
    | .ok _ => .error isFolder
    | .error reason => .error reason

/-- The names on a path that only leads downwards. -/
def namesOn (path : String) : List String :=
  (path.splitOn "/").filter fun part => part != "" && part != "."

/-- The folder of some files, each under a path from it. -/
def ofList (entries : List (String × ByteArray)) : Folder :=
  ⟨entries.map fun e => (namesOn e.1, e.2)⟩

end Folder

end OpsLang
