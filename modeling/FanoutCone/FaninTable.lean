import FanoutCone.Network

/-!
# Fanin tables

The plainest container: one row for each node, with the node's kind and its
fanin edges, and stores whose contents are given freely. Rows may hold any
number of fanins to any target, cycles and missing nodes included, so a table
can present every finite network in every state of its counts.
-/
namespace FanoutCone

/-- A network written down row by row, and its stores. -/
structure FaninTable where
  rows : Array Site
  stores : Stores

namespace FaninTable

/-- The structure that rows describe. -/
def networkOf (rows : Array Site) : Network := ⟨fun n => rows[n]?⟩

/-- The table of the given rows and counts, with nothing marked. -/
def ofRows (rows : List (NodeKind × List Edge)) (counts : List UInt32) : FaninTable :=
  let sites := (rows.map fun row => Site.ofEdges row.1 row.2).toArray
  ⟨sites, ⟨counts.toArray⟩, Marks.empty.grow sites.size⟩

def fanin (t : FaninTable) (n position : Nat) : Except Fault Edge := do
  let site ← (networkOf t.rows).site n
  match site.fanins[position]? with
  | some fanin => resolveFanin fanin
  | none => .error (.absentFanin n position)

instance : Container FaninTable where
  nodeCount t := t.rows.size
  contains t n := decide (n < t.rows.size)
  fanin := fanin
  network t := networkOf t.rows
  stores t := t.stores
  query f t :=
    match t with
    | ⟨rows, stores⟩ =>
      match f (networkOf rows) stores with
      | .error fault => .error fault
      | .ok (a, stores) => .ok (a, ⟨rows, stores⟩)

end FaninTable

end FanoutCone
