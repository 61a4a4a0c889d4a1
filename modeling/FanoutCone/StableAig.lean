import FanoutCone.Aig
import FanoutCone.Cone
import FanoutCone.Digraph

/-!
# And-inverter graphs that can shrink

Here the nodes are vertices of a directed graph whose arcs run from fanin to
consumer. A gate remembers the indices of its two fanin arcs. Nodes can be
removed and the handles of all others stay good; a slot that is used again keeps
its count and starts unmarked. Counts and marks are indexed by slot.

A handle to a removed node may come back. A gate cannot be built on one, since
no arc starts at a vacant slot, but an output only counts.
-/
namespace FanoutCone

/-- What a vertex is. -/
inductive StableNode where
  /-- The constant zero. -/
  | const
  /-- A combinational input, by position. -/
  | input (position : Nat)
  /-- An AND gate, with the indices of its fanin arcs. -/
  | and (left right : Nat)
deriving DecidableEq

namespace StableNode

/-- Inputs are leaves; the constant and gates are internal. -/
def kind : StableNode → NodeKind
  | .input _ => .leaf
  | .const | .and _ _ => .internal

/-- The indices of the fanin arcs. -/
def fanins : StableNode → List Nat
  | .and left right => [left, right]
  | .const | .input _ => []

def isAnd : StableNode → Bool
  | .and _ _ => true
  | .const | .input _ => false

/-- A gate that is not connected yet: no arc has the largest 32-bit number as its index. -/
def unconnected : StableNode := .and 4294967295 4294967295

end StableNode

/-- An and-inverter graph on stable indices, with its stores. -/
structure StableAig where
  graph : Digraph StableNode
  outputs : Array Edge
  /-- How many inputs have been added. -/
  inputs : Nat
  stores : Stores
deriving DecidableEq

namespace StableAig

/-- The fanin edge that an arc stands for, if the arc is present. -/
def edgeOf? (graph : Digraph StableNode) (arc : Nat) : Option Edge :=
  (graph.arcs.get? arc).map fun a => ⟨a.source, a.inverted⟩

/-- The structure that a directed graph describes. -/
def networkOf (graph : Digraph StableNode) : Network where
  site? n := (graph.label? n).map fun node => ⟨node.kind, node.fanins.map (edgeOf? graph)⟩

def network (g : StableAig) : Network := networkOf g.graph

def zero : Edge := ⟨0, false⟩

/-- Adds a node, unmarked. A slot used again keeps its count. -/
def addNode (g : StableAig) (node : StableNode) : Nat × StableAig :=
  match g with
  | ⟨graph, outputs, inputs, stores⟩ =>
    let (n, graph) := graph.addVertex node
    match stores.grow (n + 1) with
    | ⟨counts, marks⟩ => (n, ⟨graph, outputs, inputs, ⟨counts, marks.clear n⟩⟩)

/-- The graph that holds only the constant. -/
def empty : StableAig := (addNode ⟨.empty, #[], 0, .empty⟩ .const).2

def addInput (g : StableAig) : Edge × StableAig :=
  let (n, g) := g.addNode (.input g.inputs)
  (.ofNode n, { g with inputs := g.inputs + 1 })

/-- Adds a parent to the node that an edge comes from. -/
def consume (g : StableAig) (e : Edge) : Except Fault StableAig :=
  match g with
  | ⟨graph, outputs, inputs, ⟨counts, marks⟩⟩ =>
    match counts.increment e.node with
    | .error fault => .error fault
    | .ok (_, counts) => .ok ⟨graph, outputs, inputs, ⟨counts, marks⟩⟩

/-- Draws the arc for one fanin of gate `n` and returns its index. -/
def connectFanin (g : StableAig) (n : Nat) (e : Edge) : Except Fault (Nat × StableAig) := do
  match ← g.consume e with
  | ⟨graph, outputs, inputs, stores⟩ =>
    match graph.addArc e.node n e.complement with
    | .error fault => .error fault
    | .ok (arc, graph) => .ok (arc, ⟨graph, outputs, inputs, stores⟩)

/-- Makes node `n` the gate of two fanins. -/
def connect (g : StableAig) (n : Nat) (left right : Edge) : Except Fault StableAig := do
  let (leftArc, g) ← g.connectFanin n left
  let (rightArc, g) ← g.connectFanin n right
  match g with
  | ⟨graph, outputs, inputs, stores⟩ =>
    return ⟨graph.setLabel n (.and leftArc rightArc), outputs, inputs, stores⟩

def addAnd (g : StableAig) (left right : Edge) : Except Fault (Edge × StableAig) := do
  let (n, g) := g.addNode .unconnected
  let g ← g.connect n left right
  return (.ofNode n, g)

def addOutput (g : StableAig) (e : Edge) : Except Fault (Nat × StableAig) := do
  let g ← g.consume e
  return (g.outputs.size, { g with outputs := g.outputs.push e })

def presentCount (g : StableAig) : Nat := g.graph.vertices.count

/-- The node at an index, if it is present. -/
def node? (g : StableAig) (n : Nat) : Option StableNode := g.graph.label? n

def fanin (g : StableAig) (n position : Nat) : Except Fault Edge :=
  match g.node? n with
  | none => .error (.absentNode n)
  | some .const | some (.input _) => .error (.noFanin n position)
  | some (.and left right) =>
    match [left, right][position]? with
    | none => .error (.absentFanin n position)
    | some arc => resolveFanin (edgeOf? g.graph arc)

def isDead (g : StableAig) (n : Nat) : Bool :=
  ((g.node? n).map StableNode.isAnd).getD false && g.stores.counts.parents n == 0

/-- Dereferences the gate `root` and removes its cone. The constant stays. Returns how many nodes
were removed. -/
def removeCone (g : StableAig) (root : Nat) : Except Fault (Nat × StableAig) :=
  match g with
  | ⟨graph, outputs, inputs, stores⟩ => do
    let w : CountingWalk := { traversal := .iterative }
    let (_, stores) ← w.dereference (networkOf graph) root stores
    let (found, stores) ← collectCone none .iterative (networkOf graph) root stores
    let doomed := found.nodes.filter (· ≠ 0)
    return (doomed.length, ⟨doomed.foldl Digraph.removeVertex graph, outputs, inputs, stores⟩)

/-- Removes every gate that nothing consumes, with its cone. Returns how many nodes were removed. -/
def sweep (g : StableAig) : Except Fault (Nat × StableAig) :=
  let dead := g.graph.vertexIndices.filter g.isDead
  dead.foldlM
    (fun (removed, g) root => do
      let (k, g) ← g.removeCone root
      return (removed + k, g))
    (0, g)

/-- Adds the node of an and-inverter graph, gates still without fanins. -/
def addAigNode (g : StableAig) (n : Nat) : AigNode → Except Fault StableAig
  | .input _ | .latch _ => .ok g.addInput.2
  | .and _ _ => .ok (g.addNode .unconnected).2
  | .const => .error (.strayConstant n)

/-- Connects the gate at index `n`; other nodes have no fanins. -/
def connectAigNode (g : StableAig) (n : Nat) : AigNode → Except Fault StableAig
  | .and left right => g.connect n left right
  | .const | .input _ | .latch _ => .ok g

/-- The same graph on stable indices: every node keeps its index. Inputs and latches are numbered
together in index order, and the next states of latches follow the outputs. -/
def ofAig (aig : Aig) : Except Fault StableAig := do
  let nodes := aig.nodes.toList.zipIdx
  let g ← (nodes.drop 1).foldlM (fun g (node, n) => g.addAigNode n node) empty
  let g ← nodes.foldlM (fun g (node, n) => g.connectAigNode n node) g
  let sinks := aig.outputs.toList ++ aig.latches.toList.map Latch.next
  sinks.foldlM (fun g e => (g.addOutput e).map Prod.snd) g

instance : Container StableAig where
  nodeCount g := g.stores.counts.size
  contains g n := g.graph.contains n
  fanin := fanin
  network := network
  stores g := g.stores
  query f g :=
    match g with
    | ⟨graph, outputs, inputs, stores⟩ =>
      match f (networkOf graph) stores with
      | .error fault => .error fault
      | .ok (a, stores) => .ok (a, ⟨graph, outputs, inputs, stores⟩)

end StableAig

end FanoutCone
