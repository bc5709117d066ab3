import OpsLang.CommandLine.Run

/-!
# The program

Reads the files that a command line may ask for, answers it, and writes the answer.
-/

namespace OpsLang

/-- The paths that a command line may ask for. -/
def wantedPaths (args : List String) : List String :=
  match Request.ofArgs args with
  | .error _ => []
  | .ok r =>
    let source :=
      match r.command with
      | .parse f | .check f _ _ | .fmt f _ | .tokens f => [f]
      | .units => []
    r.config.getD settingsPath :: source

/-- Why a file cannot be read, in the words of the operating system. -/
def readFault : IO.Error → String
  | .noFileOrDirectory .. => Folder.noSuchFile
  | .inappropriateType .. => Folder.isFolder
  | e => toString e

/-- The bytes of a file, or why they cannot be read. -/
def readBytes (path : String) : IO (String × Except String ByteArray) := do
  try
    return (path, .ok (← IO.FS.readBinFile path))
  catch e =>
    return (path, .error (readFault e))

end OpsLang

/-- Answer the command line. -/
def main (args : List String) : IO UInt32 := do
  let found ← (OpsLang.wantedPaths args).mapM OpsLang.readBytes
  let files : OpsLang.Files := fun path =>
    (found.lookup path).getD (.error OpsLang.Folder.noSuchFile)
  let answer := OpsLang.run files args
  (← IO.getStdout).putStr answer.out
  (← IO.getStderr).putStr answer.err
  return UInt32.ofNat answer.code
