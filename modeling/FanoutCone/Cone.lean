import FanoutCone.ConeSize
import FanoutCone.Collection

/-!
# Fanout-free cones

The queries here dereference the root, collect, and reference it back, so that
the counts are those from before. `maximumCone` lists the cone and its support,
`protectedCone` keeps given nodes out of it, and `stampCone` marks exactly the
cone. `stampConeOnto` gathers the cones that one stamping after another finds.
-/
namespace FanoutCone

/-- The maximum fanout-free cone of `root` and its support. Both are empty for a leaf and for a
node without fanins. -/
def maximumCone (settings : ConeSettings) (net : Network) (root : Nat) (s : Stores) :
    Except Fault (Cone × Stores) := do
  let site ← net.site root
  if site.hasCone then
    let ((_, found), s) ← settings.walk.excursion settings.walk net root
      (collectCone settings.cutLimit settings.traversal net root) s
    return (found, s)
  else return (.empty, s)

/-- The cone of `root` when every node of `leaves` has one parent more. A leaf has no cone. -/
def protectedCone (leaves : List Nat) (traversal : Traversal) (net : Network) (root : Nat)
    (s : Stores) : Except Fault (List Nat × Stores) := do
  if ← net.isLeaf root then return ([], s)
  let s ← s.updateCounts (·.incrementAll leaves)
  let w : CountingWalk := { traversal := traversal }
  let ((_, found), s) ← w.excursion w net root (collectFrom .listed none traversal net root) s
  let s ← s.updateCounts (·.decrementAll leaves)
  return (found.nodes, s)

/-- The cone of `root` with nothing protected. -/
def innerCone : Traversal → Network → Nat → Stores → Except Fault (List Nat × Stores) :=
  protectedCone []

/-- Marks the cone of `root`, and nothing else, in a new generation. Returns the number of nodes
that the dereference passed, and the cone. A leaf has no cone and begins no generation. -/
def stampCone (traversal : Traversal) (net : Network) (root : Nat) (s : Stores) :
    Except Fault ((Nat × List Nat) × Stores) := do
  if ← net.isLeaf root then return ((0, []), s)
  let w : CountingWalk := { traversal := traversal }
  let ((size, found), s) ← w.excursion w net root (collectFrom .ignored none traversal net root) s
  return ((size, found.nodes), s)

/-- Stamps the cone of `root`, and appends it to the nodes held already, if any list holds them. -/
def stampConeOnto (held : Option (List Nat)) (traversal : Traversal) (net : Network) (root : Nat)
    (s : Stores) : Except Fault ((Nat × Option (List Nat)) × Stores) := do
  let ((size, nodes), s) ← stampCone traversal net root s
  return ((size, held.map (· ++ nodes)), s)

end FanoutCone
