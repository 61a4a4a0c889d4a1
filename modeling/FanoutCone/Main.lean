import FanoutCone.CommandLine

/-!
# The program

It reads the file that the arguments name and does what the request comes to.
-/
namespace FanoutCone.CommandLine

/-- The bytes of an opened file, if they can be read. -/
def readHandle (handle : IO.FS.Handle) : IO Aiger.FileContent :=
  tryCatch (return .bytes (← handle.readBinToEnd).toList) fun _ => return .unreadable

def readFile (path : String) : IO Aiger.FileContent :=
  tryCatch (IO.FS.Handle.mk path .read >>= readHandle) fun e => return .unopened (toString e)

/-- Prints and writes what there is, and returns the exit code. -/
def Outcome.perform : Outcome → IO UInt32
  | .reported text drawing => do
    IO.print text
    if let some (path, dot) := drawing then
      IO.FS.writeFile path dot
    return 0
  | .failed code complaint => do
    IO.eprintln complaint
    return code

end FanoutCone.CommandLine

open FanoutCone.CommandLine in
/-- Runs the report that the arguments ask for. -/
def main (args : List String) : IO UInt32 :=
  match Request.read args {} with
  | .error message => (Outcome.failed 2 message).perform
  | .ok r =>
    match r.file with
    | none => (Outcome.failed 2 "a file is required").perform
    | some path => do
      let file ← readFile path
      (r.outcome path file).perform
