import FanoutCone.Aig

/-!
# Cycles among gates

A depth-first search with three colours. A node is open while the search is
below it, and done when all its fanins are. The open nodes form a path of
fanins, so that a fanin which is open closes a cycle and is reported. The
search begins at each fresh node in index order. Each step closes a node or
opens one, hence twice as many steps as there are nodes are enough.
-/
namespace FanoutCone

/-- How far the search for cycles is with a node. -/
inductive Color where
  | fresh
  | opened
  | done
deriving DecidableEq

namespace CycleSearch

/-- The nodes that the fanins of node `n` come from, in order. -/
def faninNodes (nodes : Array AigNode) (n : Nat) : List Nat :=
  match nodes[n]? with
  | some node => node.fanins.map Edge.node
  | none => []

/-- An open node and the fanins still to look at. -/
structure Frame where
  node : Nat
  fanins : List Nat

/-- Looks through fanins for a fresh one, and returns it with those after it. An open one is the
error. -/
def scan (colors : Array Color) : (fanins : List Nat) → Except Nat (Option (Nat × List Nat))
  | [] => .ok none
  | n :: fanins =>
    match colors[n]? with
    | some .opened => .error n
    | some .fresh => .ok (some (n, fanins))
    | some .done | none => scan colors fanins

/-- Searches below a stack of frames in at most `steps` steps. -/
def explore (nodes : Array AigNode) :
    (steps : Nat) → List Frame → Array Color → Except LoadFailure (Array Color)
  | _, [], colors => .ok colors
  | 0, _ :: _, _ => .error (.broken .exhausted)
  | steps + 1, frame :: frames, colors =>
    match scan colors frame.fanins with
    | .error n => .error (.rejected (.cycle n))
    | .ok none => explore nodes steps frames (colors.setIfInBounds frame.node .done)
    | .ok (some (n, rest)) =>
      explore nodes steps (⟨n, faninNodes nodes n⟩ :: ⟨frame.node, rest⟩ :: frames)
        (colors.setIfInBounds n .opened)

/-- Searches below `start` unless it was reached before. -/
def exploreFrom (nodes : Array AigNode) (colors : Array Color) (start : Nat) :
    Except LoadFailure (Array Color) :=
  if colors[start]? = some .fresh then
    explore nodes (2 * nodes.size) [⟨start, faninNodes nodes start⟩]
      (colors.setIfInBounds start .opened)
  else .ok colors

end CycleSearch

/-- Succeeds when no gate depends on itself. -/
def requireAcyclic (nodes : Array AigNode) : Except LoadFailure Unit := do
  let _ ← (List.range nodes.size).foldlM (CycleSearch.exploreFrom nodes)
    (Array.replicate nodes.size Color.fresh)

end FanoutCone
