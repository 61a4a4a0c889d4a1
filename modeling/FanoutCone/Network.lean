import FanoutCone.Edge
import FanoutCone.FanoutCounts
import FanoutCone.Marks

/-!
# Networks

The engine sees a network as a function from handles to sites. A site is what
stands at a node: its kind and its fanin edges in order. The structure is only
read; what an operation changes are the two stores beside it, the fanout counts
and the traversal marks.

A fanin is `none` where the edge was deleted from under its gate. Reading it is
a fault of its own, met only when a walk comes to that position.
-/
namespace FanoutCone

/-- What stands at a node. -/
structure Site where
  kind : NodeKind
  fanins : List (Option Edge)
deriving DecidableEq

namespace Site

/-- A site all of whose fanin edges exist. -/
def ofEdges (kind : NodeKind) (fanins : List Edge) : Site := ⟨kind, fanins.map some⟩

/-- Whether a node of this kind and fanins owns a cone: it is internal and has a fanin. -/
def hasCone (s : Site) : Bool := s.kind == .internal && !s.fanins.isEmpty

end Site

/-- The structure of a network: the site of each node present. -/
structure Network where
  site? : Nat → Option Site

namespace Network

def site (net : Network) (n : Nat) : Except Fault Site :=
  match net.site? n with
  | some s => .ok s
  | none => .error (.absentNode n)

def kind (net : Network) (n : Nat) : Except Fault NodeKind := (net.site n).map Site.kind

def isLeaf (net : Network) (n : Nat) : Except Fault Bool :=
  (net.site n).map fun s => s.kind == .leaf

def faninCount (net : Network) (n : Nat) : Except Fault Nat :=
  (net.site n).map fun s => s.fanins.length

end Network

/-- The edge at a fanin position, unless it was deleted. -/
def resolveFanin : Option Edge → Except Fault Edge
  | some e => .ok e
  | none => .error .severedFanin

/-- What operations on a network change: the fanout counts and the traversal marks. -/
structure Stores where
  counts : FanoutCounts
  marks : Marks
deriving DecidableEq

namespace Stores

def empty : Stores := ⟨.empty, .empty⟩

def grow (s : Stores) (len : Nat) : Stores :=
  match s with
  | ⟨counts, marks⟩ => ⟨counts.grow len, marks.grow len⟩

/-- Moves a count and reports the value that the move reports. -/
def moveCount {α : Type} (s : Stores) (f : FanoutCounts → Except Fault (α × FanoutCounts)) :
    Except Fault (α × Stores) :=
  match s with
  | ⟨counts, marks⟩ =>
    match f counts with
    | .error fault => .error fault
    | .ok (a, counts) => .ok (a, ⟨counts, marks⟩)

def updateCounts (s : Stores) (f : FanoutCounts → Except Fault FanoutCounts) :
    Except Fault Stores :=
  match s with
  | ⟨counts, marks⟩ =>
    match f counts with
    | .error fault => .error fault
    | .ok counts => .ok ⟨counts, marks⟩

def updateMarks (s : Stores) (f : Marks → Except Fault Marks) : Except Fault Stores :=
  match s with
  | ⟨counts, marks⟩ =>
    match f marks with
    | .error fault => .error fault
    | .ok marks => .ok ⟨counts, marks⟩

end Stores

/-- A value that holds a network together with its stores. -/
class Container (ν : Type) where
  /-- One past the largest index in use. -/
  nodeCount : ν → Nat
  /-- Whether the node exists. -/
  contains : ν → Nat → Bool
  /-- The fanin edge of a node at a position. -/
  fanin : ν → Nat → Nat → Except Fault Edge
  /-- The structure held. -/
  network : ν → Network
  /-- The stores held. -/
  stores : ν → Stores
  /-- Runs an operation on structure and stores and keeps the stores it leaves. -/
  query {α : Type} : (Network → Stores → Except Fault (α × Stores)) → ν → Except Fault (α × ν)

end FanoutCone
