import FanoutCone.Network
import FanoutCone.Walk

/-!
# Collecting a cone and its support

After a dereference the nodes that died have a count of zero, and what the cone
reads from outside still has a parent. A collection goes down from the root and
splits what it meets: nodes that died join the cone and are gone below, leaves
and live nodes are its support. The cone lists every node after the cone nodes
it reads, the root last; the support is in order of discovery.

A collection reads the counts and writes only marks. It begins a generation of
its own, and a node once marked is not looked at again. A cut limit bounds the
number of nodes gone below: past it, dead nodes are left unmarked and belong to
neither list.
-/
namespace FanoutCone

/-- A fanout-free cone and the boundary that feeds it. -/
structure Cone where
  /-- The internal nodes of the cone, each after those it reads from. -/
  nodes : List Nat
  /-- The leaves and outside nodes it reads, in order of discovery. -/
  support : List Nat
deriving DecidableEq

def Cone.empty : Cone := ⟨[], []⟩

/-- What becomes of nodes at the boundary. -/
inductive BoundaryUse where
  /-- They are marked and listed. -/
  | listed
  /-- They are passed over and stay unmarked. -/
  | ignored
deriving DecidableEq

/-- What a collection can find a node to be. -/
inductive Meeting where
  /-- Met before. -/
  | seen
  /-- A leaf, or alive. -/
  | boundary
  /-- Dead, but past the cut limit. -/
  | cut
  /-- Dead, and now a cone node. -/
  | cone
deriving DecidableEq

/-- What stays the same throughout a collection. -/
structure Collection where
  net : Network
  counts : FanoutCounts
  boundaryUse : BoundaryUse
  /-- The largest number of cone nodes, if bounded. -/
  limit : Option Nat

/-- How far a collection has come. -/
structure Progress where
  marks : Marks
  /-- How many nodes it has gone below. -/
  expanded : Nat
  /-- The cone nodes whose fanins are done, newest first. -/
  cone : List Nat
  /-- The boundary nodes, newest first. -/
  support : List Nat
deriving DecidableEq

namespace Progress

/-- The progress once all fanins of cone node `n` are done. -/
def emit (p : Progress) (n : Nat) : Progress :=
  match p with
  | ⟨marks, expanded, cone, support⟩ => ⟨marks, expanded, n :: cone, support⟩

/-- Marks the boundary node `n` and lists it. -/
def recordSupport (p : Progress) (n : Nat) : Except Fault Progress :=
  match p with
  | ⟨marks, expanded, cone, support⟩ =>
    match marks.mark n with
    | .error fault => .error fault
    | .ok marks => .ok ⟨marks, expanded, cone, n :: support⟩

/-- Marks the cone node `n`, which is about to be gone below. -/
def expand (p : Progress) (n : Nat) : Except Fault Progress :=
  match p with
  | ⟨marks, expanded, cone, support⟩ =>
    match marks.mark n with
    | .error fault => .error fault
    | .ok marks => .ok ⟨marks, expanded + 1, cone, support⟩

end Progress

namespace Collection

def isFull (c : Collection) (p : Progress) : Bool :=
  match c.limit with
  | some limit => decide (limit ≤ p.expanded)
  | none => false

/-- Whether `n` belongs to the boundary: it is a leaf or still has a parent. The root never does. -/
def isBoundary (c : Collection) (atRoot : Bool) (n : Nat) : Except Fault Bool := do
  if atRoot then .ok false
  else if ← c.net.isLeaf n then .ok true
  else
    let parents ← c.counts.count n
    .ok (decide (0 < parents))

/-- What a collection finds node `n` to be when it meets it. -/
def classify (c : Collection) (atRoot : Bool) (n : Nat) (p : Progress) : Except Fault Meeting := do
  if ← p.marks.isCurrent n then .ok .seen
  else if ← c.isBoundary atRoot n then .ok .boundary
  else if c.isFull p then .ok .cut
  else .ok .cone

/-- Meets node `n`. Returns whether it is to be gone below. -/
def meet (c : Collection) (atRoot : Bool) (n : Nat) (p : Progress) :
    Except Fault (Bool × Progress) :=
  match c.classify atRoot n p with
  | .error fault => .error fault
  | .ok .seen | .ok .cut => .ok (false, p)
  | .ok .boundary =>
    match c.boundaryUse with
    | .listed => (p.recordSupport n).map (Prod.mk false)
    | .ignored => .ok (false, p)
  | .ok .cone => (p.expand n).map (Prod.mk true)

/-- Meets the nodes of fanin edges in order, by `visit`. -/
def visitEach (visit : Nat → Progress → Except Fault Progress) :
    (fanins : List (Option Edge)) → Progress → Except Fault Progress
  | [], p => .ok p
  | fanin :: fanins, p =>
    match resolveFanin fanin with
    | .error fault => .error fault
    | .ok e =>
      match visit e.node p with
      | .error fault => .error fault
      | .ok p => visitEach visit fanins p

/-- The recursive collection from `n`, which may go `depth` calls deep. -/
def visit (c : Collection) : (depth : Nat) → (atRoot : Bool) → (n : Nat) → Progress →
    Except Fault Progress
  | 0, _, _, _ => .error .exhausted
  | depth + 1, atRoot, n, p =>
    match c.meet atRoot n p with
    | .error fault => .error fault
    | .ok (false, p) => .ok p
    | .ok (true, p) =>
      match c.net.site n with
      | .error fault => .error fault
      | .ok site =>
        match visitEach (c.visit depth false) site.fanins p with
        | .error fault => .error fault
        | .ok p => .ok (p.emit n)

/-- A cone node gone below and the fanins it still has to look at. -/
structure Frame where
  node : Nat
  fanins : List (Option Edge)

/-- Meets the fanins of a list up to the first that is to be gone below. Returns that fanin and
the rest of the list. -/
def scan (c : Collection) : (fanins : List (Option Edge)) → Progress →
    Except Fault (Option (Nat × List (Option Edge)) × Progress)
  | [], p => .ok (none, p)
  | fanin :: fanins, p =>
    match resolveFanin fanin with
    | .error fault => .error fault
    | .ok e =>
      match c.meet false e.node p with
      | .error fault => .error fault
      | .ok (true, p) => .ok (some (e.node, fanins), p)
      | .ok (false, p) => c.scan fanins p

/-- The iterative collection over a stack of frames, in at most `steps` steps. Each step emits the
newest frame's node or puts a frame on top. -/
def unwind (c : Collection) : (steps : Nat) → List Frame → Progress → Except Fault Progress
  | _, [], p => .ok p
  | 0, _ :: _, _ => .error .exhausted
  | steps + 1, frame :: frames, p =>
    match c.scan frame.fanins p with
    | .error fault => .error fault
    | .ok (none, p) => c.unwind steps frames (p.emit frame.node)
    | .ok (some (n, rest), p) =>
      match c.net.site n with
      | .error fault => .error fault
      | .ok site => c.unwind steps (⟨n, site.fanins⟩ :: ⟨frame.node, rest⟩ :: frames) p

def unwindFrom (c : Collection) (root : Nat) (p : Progress) : Except Fault Progress :=
  let steps := 2 * p.marks.size + 1
  match c.meet true root p with
  | .error fault => .error fault
  | .ok (false, p) => .ok p
  | .ok (true, p) =>
    match c.net.site root with
    | .error fault => .error fault
    | .ok site => c.unwind steps [⟨root, site.fanins⟩] p

/-- Collects from `root` in a new generation of marks. -/
def run (c : Collection) (traversal : Traversal) (root : Nat) (marks : Marks) :
    Except Fault (Cone × Marks) :=
  let start : Progress := ⟨marks.advance, 0, [], []⟩
  let result : Except Fault Progress := match traversal with
    | .recursive => c.visit (start.marks.size + 1) true root start
    | .iterative => c.unwindFrom root start
  match result with
  | .error fault => .error fault
  | .ok ⟨marks, _, cone, support⟩ => .ok (⟨cone.reverse, support.reverse⟩, marks)

end Collection

/-- Collects from `root` over the counts as they are. -/
def collectFrom (boundaryUse : BoundaryUse) (limit : Option Nat) (traversal : Traversal)
    (net : Network) (root : Nat) (s : Stores) : Except Fault (Cone × Stores) :=
  match s with
  | ⟨counts, marks⟩ =>
    match Collection.run ⟨net, counts, boundaryUse, limit⟩ traversal root marks with
    | .error fault => .error fault
    | .ok (found, marks) => .ok (found, ⟨counts, marks⟩)

/-- Collects the cone and support of a dereferenced `root`. For a leaf both are empty, and the
marks stay as they are. -/
def collectCone (limit : Option Nat) (traversal : Traversal) (net : Network) (root : Nat)
    (s : Stores) : Except Fault (Cone × Stores) := do
  if ← net.isLeaf root then return (.empty, s)
  collectFrom .listed limit traversal net root s

end FanoutCone
