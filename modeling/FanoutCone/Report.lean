import FanoutCone.Aiger.Load
import FanoutCone.Cone
import FanoutCone.Dot

/-!
# Reports on a file

For every AND gate of a file, in index order, a report collects the gate's cone
and writes one line about it, unless the cone is smaller than asked for. On
request it also draws the network with the largest cone highlighted, the last
among equals.
-/
namespace FanoutCone

structure ReportOptions where
  settings : ConeSettings := {}
  /-- Smaller cones are left out. -/
  minSize : Nat := 1
  /-- Whether to draw the network. -/
  draw : Bool := false
deriving DecidableEq

structure Report where
  /-- The lines about gates. -/
  text : String
  /-- The network in graphviz format, if asked for. -/
  drawing : Option String
deriving DecidableEq

namespace Report

/-- The name of a node, or its written handle. -/
def label (aig : Aig) (n : Nat) : String := (aig.name? n).getD (Node.text n)

def line (aig : Aig) (n : Nat) (found : Cone) : String :=
  "Node = " ++ label aig n ++ " : Supp = " ++ toString found.support.length ++ "  Cone = "
    ++ toString found.nodes.length ++ "  ( "
    ++ " ".intercalate (found.nodes.map (label aig)) ++ " )"

/-- The cones of the given gates, collected one after another. -/
def cones (settings : ConeSettings) (net : Network) :
    (gates : List Nat) → Stores → Except Fault (List (Nat × Cone))
  | [], _ => .ok []
  | n :: gates, s => do
    let (found, s) ← maximumCone settings net n s
    let rest ← cones settings net gates s
    return (n, found) :: rest

/-- The largest cone, the last among equals; empty if there are no cones. -/
def largestCone (found : List (Nat × Cone)) : List Nat :=
  found.foldl (fun best f => if best.length ≤ f.2.nodes.length then f.2.nodes else best) []

def ofAig (options : ReportOptions) (aig : Aig) : Except Fault Report := do
  let found ← cones options.settings aig.network aig.ands aig.stores
  let shown := found.filter fun f => options.minSize ≤ f.2.nodes.length
  let text := String.join (shown.map fun f => line aig f.1 f.2 ++ "\n")
  if options.draw then
    let g ← StableAig.ofAig aig
    return ⟨text, some (Dot.render g (largestCone found))⟩
  else return ⟨text, none⟩

def ofFile (options : ReportOptions) (file : Aiger.FileContent) : Except LoadFailure Report := do
  let aig ← Aiger.loadFile file
  aig.auditCounts
  (ofAig options aig).mapError .broken

end Report

end FanoutCone
