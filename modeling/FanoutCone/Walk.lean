import FanoutCone.Network

/-!
# Reference-counting walks

Dereferencing a node takes one parent from each of its fanins. A fanin left
without parents is dead too, and the walk goes on below it. Referencing adds the
parents back, and goes on below each fanin that was dead. Either way the walk
crosses a fanin edge, and passes the fanin when its liveness changed. Leaves are
crossed to but never passed.

A walk returns its trail: the internal nodes passed, newest first, and the
counts it left. A recursive walk goes below a fanin as soon as its liveness
changes. An iterative walk first crosses all fanins of a node and then goes on
at the newest node waiting. No node but the root is passed twice, so the
allowances that the public functions grant, one step more than there are nodes,
always suffice, on cyclic networks too.
-/
namespace FanoutCone

/-- Which fanin edges take part in counting. -/
inductive EdgeFilter where
  /-- Every fanin edge. -/
  | all
  /-- Only uncomplemented edges, so that a walk never crosses an inverter. -/
  | uncomplemented
deriving DecidableEq

namespace EdgeFilter

/-- Whether an edge is counted under the filter. -/
def keeps : EdgeFilter → Edge → Bool
  | .all, _ => true
  | .uncomplemented, e => !e.complement

end EdgeFilter

inductive Traversal where
  /-- Below a node at once; the depth is that of the longest chain. -/
  | recursive
  /-- From a stack of waiting nodes. -/
  | iterative
deriving DecidableEq

/-- Whether a walk adds parents or takes them away. -/
inductive Direction where
  | reference
  | dereference
deriving DecidableEq

/-- Moves one parent of `n`. Returns whether `n` changed between dead and alive. -/
def Direction.move : Direction → Nat → FanoutCounts → Except Fault (Bool × FanoutCounts)
  | .dereference, n, counts =>
    match counts.decrement n with
    | .error fault => .error fault
    | .ok (after, counts) => .ok (after == 0, counts)
  | .reference, n, counts =>
    match counts.increment n with
    | .error fault => .error fault
    | .ok (before, counts) => .ok (before == 0, counts)

/-- How far a walk has come. -/
structure Trail where
  /-- The internal nodes passed, newest first. -/
  passed : List Nat
  /-- The counts as the walk has left them. -/
  counts : FanoutCounts
deriving DecidableEq

/-- A walk that broke off: why, and the nodes it had passed by then. -/
structure Breakdown where
  fault : Fault
  passed : List Nat
deriving DecidableEq

namespace Trail

def pass (t : Trail) (n : Nat) : Trail :=
  match t with
  | ⟨passed, counts⟩ => ⟨n :: passed, counts⟩

def breakOff {α : Type} (t : Trail) (fault : Fault) : Except Breakdown α :=
  .error ⟨fault, t.passed⟩

/-- Crosses one fanin edge if the filter keeps it. Returns the fanin when its liveness changed. -/
def cross (filter : EdgeFilter) (direction : Direction) (fanin : Option Edge) (t : Trail) :
    Except Breakdown (Option Nat × Trail) :=
  match fanin with
  | none => t.breakOff .severedFanin
  | some e =>
    if filter.keeps e then
      match t with
      | ⟨passed, counts⟩ =>
        match direction.move e.node counts with
        | .error fault => .error ⟨fault, passed⟩
        | .ok (changed, counts) => .ok (if changed then some e.node else none, ⟨passed, counts⟩)
    else .ok (none, t)

end Trail

/-- Crosses fanin edges in order and goes on with `below` at each fanin whose liveness changed. -/
def crossEach (filter : EdgeFilter) (direction : Direction)
    (below : Nat → Trail → Except Breakdown Trail) :
    (fanins : List (Option Edge)) → Trail → Except Breakdown Trail
  | [], t => .ok t
  | fanin :: fanins, t =>
    match t.cross filter direction fanin with
    | .error breakdown => .error breakdown
    | .ok (none, t) => crossEach filter direction below fanins t
    | .ok (some v, t) =>
      match below v t with
      | .error breakdown => .error breakdown
      | .ok t => crossEach filter direction below fanins t

/-- The recursive walk from `n`, which may go `depth` nodes deep. -/
def descend (net : Network) (filter : EdgeFilter) (direction : Direction) :
    (depth : Nat) → (n : Nat) → Trail → Except Breakdown Trail
  | 0, _, t => t.breakOff .exhausted
  | depth + 1, n, t =>
    match net.site n with
    | .error fault => t.breakOff fault
    | .ok site =>
      match site.kind with
      | .leaf => .ok t
      | .internal =>
        crossEach filter direction (descend net filter direction depth) site.fanins (t.pass n)

/-- Crosses all fanins of a node. Those whose liveness changed go on the stack of waiting nodes. -/
def crossAll (filter : EdgeFilter) (direction : Direction) :
    (fanins : List (Option Edge)) → (waiting : List Nat) → Trail →
      Except Breakdown (List Nat × Trail)
  | [], waiting, t => .ok (waiting, t)
  | fanin :: fanins, waiting, t =>
    match t.cross filter direction fanin with
    | .error breakdown => .error breakdown
    | .ok (none, t) => crossAll filter direction fanins waiting t
    | .ok (some v, t) => crossAll filter direction fanins (v :: waiting) t

/-- The iterative walk over a stack of waiting nodes, of which it may take `steps`. -/
def drain (net : Network) (filter : EdgeFilter) (direction : Direction) :
    (steps : Nat) → (waiting : List Nat) → Trail → Except Breakdown Trail
  | _, [], t => .ok t
  | 0, _ :: _, t => t.breakOff .exhausted
  | steps + 1, n :: waiting, t =>
    match net.site n with
    | .error fault => t.breakOff fault
    | .ok site =>
      match site.kind with
      | .leaf => drain net filter direction steps waiting t
      | .internal =>
        match crossAll filter direction site.fanins waiting (t.pass n) with
        | .error breakdown => .error breakdown
        | .ok (waiting, t) => drain net filter direction steps waiting t

/-- The walk from `root` over the given counts. -/
def walk (net : Network) (filter : EdgeFilter) (traversal : Traversal) (direction : Direction)
    (root : Nat) (counts : FanoutCounts) : Except Breakdown Trail :=
  match traversal with
  | .recursive => descend net filter direction (counts.size + 1) root ⟨[], counts⟩
  | .iterative => drain net filter direction (counts.size + 1) [root] ⟨[], counts⟩

structure CountingWalk where
  /-- Which fanin edges are counted. -/
  filter : EdgeFilter := .all
  /-- Whether the nodes passed are marked. -/
  label : Bool := false
  traversal : Traversal := .recursive
deriving DecidableEq

namespace CountingWalk

/-- Walks from `root` and marks the nodes passed if asked to. Returns how many were passed. -/
def run (w : CountingWalk) (direction : Direction) (net : Network) (root : Nat) (s : Stores) :
    Except Fault (Nat × Stores) :=
  match s with
  | ⟨counts, marks⟩ =>
    match FanoutCone.walk net w.filter w.traversal direction root counts with
    | .error breakdown => .error breakdown.fault
    | .ok ⟨passed, counts⟩ =>
      if w.label then
        match marks.markAll passed with
        | .error fault => .error fault
        | .ok marks => .ok (passed.length, ⟨counts, marks⟩)
      else .ok (passed.length, ⟨counts, marks⟩)

/-- Dereferences `root`. Returns the number of nodes that died, `root` included; 0 for a leaf. -/
def dereference (w : CountingWalk) : Network → Nat → Stores → Except Fault (Nat × Stores) :=
  w.run .dereference

/-- References `root`. Returns the number of nodes revived, `root` included; 0 for a leaf. -/
def reference (w : CountingWalk) : Network → Nat → Stores → Except Fault (Nat × Stores) :=
  w.run .reference

/-- Dereferences `root`, does `inside`, and references `root` again, as `back` walks. Both walks
have to pass the same number of nodes, which is returned with what `inside` returned. -/
def excursion {α : Type} (out back : CountingWalk) (net : Network) (root : Nat)
    (inside : Stores → Except Fault (α × Stores)) (s : Stores) :
    Except Fault ((Nat × α) × Stores) := do
  let (died, s) ← out.dereference net root s
  let (a, s) ← inside s
  let (revived, s) ← back.reference net root s
  if died = revived then .ok ((died, a), s) else .error (.unbalanced root)

end CountingWalk

end FanoutCone
