import FanoutCone.Report

/-!
# Command line

`FILE` and options in any order: `-c`/`--cut N` bounds the nodes collected for
each gate, `-s`/`--stop-at-complement` keeps walks from crossing inverters,
`-i`/`--iterative` walks with an explicit stack, `-m`/`--min-size N` leaves out
smaller cones, `-d`/`--dot PATH` writes the network in graphviz format, and
`-v`/`--verbose` is accepted.

What a request comes to depends on nothing but what is read from its file.
-/
namespace FanoutCone.CommandLine

structure Request where
  file : Option String := none
  dot : Option String := none
  options : ReportOptions := {}

/-- The value of an option that takes a number. -/
def readNumber (option value : String) : Except String Nat :=
  match Aiger.readNumeral value.toList with
  | some k => .ok k
  | none => .error ("invalid value for " ++ option ++ ": " ++ value)

def Request.read : (args : List String) → Request → Except String Request
  | [], r => .ok r
  | option :: args, r =>
    let settings := r.options.settings
    let withSettings (settings : ConeSettings) : Request :=
      { r with options := { r.options with settings := settings } }
    if option = "-s" ∨ option = "--stop-at-complement" then
      Request.read args (withSettings { settings with filter := .uncomplemented })
    else if option = "-i" ∨ option = "--iterative" then
      Request.read args (withSettings { settings with traversal := .iterative })
    else if option = "-v" ∨ option = "--verbose" then Request.read args r
    else if option = "-c" ∨ option = "--cut" then
      match args with
      | value :: args => do
        let k ← readNumber option value
        Request.read args (withSettings { settings with cutLimit := some k })
      | [] => .error ("a value is required for " ++ option)
    else if option = "-m" ∨ option = "--min-size" then
      match args with
      | value :: args => do
        let k ← readNumber option value
        Request.read args { r with options := { r.options with minSize := k } }
      | [] => .error ("a value is required for " ++ option)
    else if option = "-d" ∨ option = "--dot" then
      match args with
      | path :: args =>
        Request.read args { r with dot := some path, options := { r.options with draw := true } }
      | [] => .error ("a value is required for " ++ option)
    else if option.startsWith "-" then .error ("unexpected argument: " ++ option)
    else if r.file.isSome then .error ("unexpected argument: " ++ option)
    else Request.read args { r with file := some option }

/-- How a run of the program ends. -/
inductive Outcome where
  /-- It prints a text, and writes a drawing to the path given for it. -/
  | reported (text : String) (drawing : Option (String × String))
  /-- It complains. -/
  | failed (code : UInt32) (complaint : String)
deriving DecidableEq

namespace Outcome

def exitCode : Outcome → UInt32
  | .reported _ _ => 0
  | .failed code _ => code

/-- A file that is no network fails a run in one way, and a fault in another. -/
def ofFailure (path : String) : LoadFailure → Outcome
  | .rejected e => .failed 1 (path ++ ": " ++ e.message)
  | .broken fault => .failed 101 (path ++ ": " ++ fault.message.getD "broken off")

end Outcome

/-- What a request comes to when its file reads as given. -/
def Request.outcome (r : Request) (path : String) (file : Aiger.FileContent) : Outcome :=
  match Report.ofFile r.options file with
  | .ok report => .reported report.text do return (← r.dot, ← report.drawing)
  | .error failure => .ofFailure path failure

end FanoutCone.CommandLine
