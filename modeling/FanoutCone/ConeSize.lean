import FanoutCone.Walk

/-!
# Settings and sizes of fanout-free cones

The maximum fanout-free cone of a node is what dies with it: the node and every
internal node below it whose parents all die. Its size is the number of nodes
that a dereference passes. Each query walks back at once and leaves the counts
as they were. Leaves and nodes without fanins have no cone, and their size is 0.
-/
namespace FanoutCone

structure ConeSettings where
  /-- Which fanin edges are counted. -/
  filter : EdgeFilter := .all
  traversal : Traversal := .recursive
  /-- The largest number of cone nodes to collect, if bounded. -/
  cutLimit : Option Nat := none
deriving DecidableEq

def ConeSettings.walk (settings : ConeSettings) : CountingWalk :=
  { filter := settings.filter, traversal := settings.traversal }

/-- The size that the walk finds for the cone of `root`. Only the way down marks nodes. -/
def sizeByWalk (w : CountingWalk) (net : Network) (root : Nat) (s : Stores) :
    Except Fault (Nat × Stores) := do
  let site ← net.site root
  if site.hasCone then
    let ((size, _), s) ← w.excursion { w with label := false } net root (fun s => .ok ((), s)) s
    if 0 < size then .ok (size, s) else .error (.unbalanced root)
  else .ok (0, s)

/-- The size of the cone of `root` over all edges. -/
def coneSize : Network → Nat → Stores → Except Fault (Nat × Stores) := sizeByWalk {}

/-- The size of the cone of `root` that crosses no inverter. -/
def coneSizeToInverters : Network → Nat → Stores → Except Fault (Nat × Stores) :=
  sizeByWalk { filter := .uncomplemented }

/-- The size of the cone of `root`, whose nodes are marked. The generation stays, so that cones
labelled one after another add up. -/
def labelCone : Network → Nat → Stores → Except Fault (Nat × Stores) :=
  sizeByWalk { label := true }

/-- The size of the cone of `root` under the settings; the cut limit does not matter. -/
def coneSizeWith (settings : ConeSettings) :
    Network → Nat → Stores → Except Fault (Nat × Stores) :=
  sizeByWalk settings.walk

end FanoutCone
