import Filtergraph.CommandLine.Response

/-!
# The program

Compiles pipelines from the command line. Everything that is decided is decided by
`CommandLine.respond`; here files are read and texts printed.
-/

namespace Filtergraph

/-- The fault behind a failed access. A failure of a kind not known here counts as no file. -/
def FileFault.ofAccess : IO.Error → FileFault
  | .permissionDenied .. => .denied
  | .alreadyExists .. => .alreadyThere
  | .inappropriateType .. => .isADirectory
  | .invalidArgument .. => .nameTooLong
  | _ => .notFound

/-- The content of a file, or why there is none. -/
def access (path : String) : IO (Except FileFault ByteArray) := do
  try
    return .ok (← IO.FS.readBinFile path)
  catch e => return .error (.ofAccess e)

/-- The files of the machine. A file that may not be read is still a file. -/
def machine : CommandLine.Disk IO where
  isFile path := do
    match ← access path with
    | .ok _ => return true
    | .error fault => return fault = .denied
  readText path := do return (← access path).bind FileTable.decode

end Filtergraph

/-- Answers the words of the command line. -/
def main (words : List String) : IO UInt32 := do
  let env := ⟨← IO.getEnv "HOME", ← IO.getEnv "XDG_CONFIG_HOME"⟩
  let response ← Filtergraph.CommandLine.respond Filtergraph.machine env words
  IO.print response.output
  IO.eprint response.errors
  return response.code.toUInt32
