import WireSchema.CommandLine

/-! # The program

Reads the files that the arguments name, and prints what `CommandLine.check` says about them. A run
without end prints nothing.
-/

namespace WireSchema.Main

/-- Why a file could not be read. -/
def faultOf (e : IO.Error) : FileFault :=
  match e with
  | .noFileOrDirectory _ _ _ => .notFound
  | .inappropriateType _ 20 _ => .notDirectory
  | .inappropriateType _ _ _ => .isDirectory
  | other => .other (toString other)

/-- The text of a file. -/
def readText (path : String) : IO (Except FileFault String) := do
  try
    let bytes ← IO.FS.readBinFile path
    return match String.fromUTF8? bytes with
      | some text => .ok text
      | none => .error .notText
  catch e => return .error (faultOf e)

/-- The texts of the files, each read once. -/
def readAll : List String → IO (List (String × Except FileFault String))
  | [] => return []
  | path :: paths => do
    let text ← readText path
    return (path, text) :: (← readAll paths)

/-- The text that was read from a path. -/
def lookup (texts : List (String × Except FileFault String)) (path : String) :
    Except FileFault String :=
  match texts.find? (·.1 == path) with
  | some p => p.2
  | none => .error .notFound

end WireSchema.Main

def main (args : List String) : IO UInt32 := do
  let files :=
    match WireSchema.CommandLine.readArgs args with
    | .ok request => request.files
    | .error _ => []
  let texts ← WireSchema.Main.readAll files.eraseDups
  let result := WireSchema.CommandLine.check args (WireSchema.Main.lookup texts)
  if let .ok output := result then
    IO.print output.stdout
    IO.eprint output.stderr
  return UInt32.ofNat (WireSchema.CommandLine.exitCode result)
