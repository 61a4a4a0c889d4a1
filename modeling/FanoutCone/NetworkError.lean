import FanoutCone.Fault

/-!
# Errors of reading and checking a network

An error is something wrong with the data: a file that cannot be read, a
variable defined twice, a count that disagrees with the structure. Unlike a
fault it says nothing against the caller. Loading can end with either, and
`LoadFailure` tells them apart.
-/
namespace FanoutCone

/-- What can be wrong with a network that is read or checked. -/
inductive NetworkError where
  /-- The file could not be opened. -/
  | io (reason : String)
  /-- The text is no AIGER text. -/
  | malformed (reason : String)
  /-- A literal names a variable above the declared maximum. -/
  | outOfRange (var maximum : Nat)
  /-- A variable is defined twice. -/
  | redefined (var : Nat)
  /-- A variable is never defined. -/
  | undefined (var : Nat)
  /-- A gate depends on itself. -/
  | cycle (var : Nat)
  /-- A stored fanout count disagrees with the structure. -/
  | fanoutMismatch (node expected found : Nat)
deriving DecidableEq

namespace NetworkError

def message : NetworkError → String
  | .io reason => "i/o error: " ++ reason
  | .malformed reason => "malformed AIGER input: " ++ reason
  | .outOfRange var maximum =>
    "variable " ++ toString var ++ " exceeds the declared maximum " ++ toString maximum
  | .redefined var => "variable " ++ toString var ++ " is defined more than once"
  | .undefined var => "variable " ++ toString var ++ " is never defined"
  | .cycle var => "variable " ++ toString var ++ " lies on a combinational cycle"
  | .fanoutMismatch node expected found =>
    Node.text node ++ " has fanout count " ++ toString found ++ ", but " ++ toString expected
      ++ " parents"

end NetworkError

/-- How loading a network can fail. -/
inductive LoadFailure where
  /-- The data are wrong. -/
  | rejected (error : NetworkError)
  /-- Loading broke off. -/
  | broken (fault : Fault)
deriving DecidableEq

end FanoutCone
