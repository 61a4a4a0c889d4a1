import Std.Data.ExtTreeMap
import FanoutCone.Network
import FanoutCone.NetworkError

/-!
# And-inverter graphs

Nodes lie in an array, the constant zero at index 0. Every edge held by an AND
gate, by the next state of a latch or by a primary output counts as one parent
of the node it comes from; `consumers` lists these edges. A latch is seen
combinationally: its output is a leaf and its next state a consumer.

Building never looks for equal gates. A gate can only be added on nodes that
exist, so the fanins of an added gate have smaller indices.
-/
namespace FanoutCone

inductive AigNode where
  /-- The constant zero, an internal node without fanins. -/
  | const
  /-- A primary input, by position. -/
  | input (position : Nat)
  /-- The current state of a latch, by position. -/
  | latch (position : Nat)
  /-- An AND gate. -/
  | and (left right : Edge)
deriving DecidableEq

namespace AigNode

/-- Inputs and latches are leaves; the constant and gates are internal. -/
def kind : AigNode → NodeKind
  | .input _ | .latch _ => .leaf
  | .const | .and _ _ => .internal

/-- The fanin edges: two at a gate, none elsewhere. -/
def fanins : AigNode → List Edge
  | .and left right => [left, right]
  | .const | .input _ | .latch _ => []

def isAnd : AigNode → Bool
  | .and _ _ => true
  | .const | .input _ | .latch _ => false

def site (node : AigNode) : Site := Site.ofEdges node.kind node.fanins

end AigNode

/-- A latch: the node of its output and its next-state function. -/
structure Latch where
  node : Nat
  next : Edge
deriving DecidableEq

abbrev NameTable := Std.ExtTreeMap Nat String compare

structure Aig where
  nodes : Array AigNode
  /-- The nodes of the primary inputs, in order. -/
  inputs : Array Nat
  latches : Array Latch
  outputs : Array Edge
  /-- The names of nodes. -/
  names : NameTable
  /-- The names of outputs, by position. -/
  outputNames : NameTable
  stores : Stores
deriving DecidableEq

namespace Aig

/-- The structure that an array of nodes describes. -/
def networkOf (nodes : Array AigNode) : Network := ⟨fun n => nodes[n]?.map AigNode.site⟩

def network (aig : Aig) : Network := networkOf aig.nodes

/-- The constant zero. Its complement is constant one. -/
def zero : Edge := ⟨0, false⟩

/-- Appends a node, unconsumed and unmarked, and returns its handle. -/
def addNode (aig : Aig) (node : AigNode) : Nat × Aig :=
  match aig with
  | ⟨nodes, inputs, latches, outputs, names, outputNames, stores⟩ =>
    let n := nodes.size
    (n, ⟨nodes.push node, inputs, latches, outputs, names, outputNames, stores.grow (n + 1)⟩)

/-- The graph that holds only the constant. -/
def empty : Aig := (addNode ⟨#[], #[], #[], #[], ∅, ∅, .empty⟩ .const).2

/-- Adds a parent to the node that an edge comes from. -/
def consume (aig : Aig) (e : Edge) : Except Fault Aig :=
  match aig with
  | ⟨nodes, inputs, latches, outputs, names, outputNames, ⟨counts, marks⟩⟩ =>
    match counts.increment e.node with
    | .error fault => .error fault
    | .ok (_, counts) =>
      .ok ⟨nodes, inputs, latches, outputs, names, outputNames, ⟨counts, marks⟩⟩

/-- Takes a parent from the node that an edge comes from. -/
def release (aig : Aig) (e : Edge) : Except Fault Aig :=
  match aig with
  | ⟨nodes, inputs, latches, outputs, names, outputNames, ⟨counts, marks⟩⟩ =>
    match counts.decrement e.node with
    | .error fault => .error fault
    | .ok (_, counts) =>
      .ok ⟨nodes, inputs, latches, outputs, names, outputNames, ⟨counts, marks⟩⟩

def addInput (aig : Aig) : Edge × Aig :=
  let (n, aig) := aig.addNode (.input aig.inputs.size)
  (.ofNode n, { aig with inputs := aig.inputs.push n })

/-- Appends a latch whose next state is constant zero. -/
def addLatch (aig : Aig) : Except Fault (Edge × Aig) := do
  let (n, aig) := aig.addNode (.latch aig.latches.size)
  let aig ← aig.consume zero
  return (.ofNode n, { aig with latches := aig.latches.push ⟨n, zero⟩ })

/-- Gives the latch at a position a new next state. -/
def setNextState (aig : Aig) (position : Nat) (next : Edge) : Except Fault Aig := do
  let aig ← aig.consume next
  match aig.latches[position]? with
  | none => .error (.absentLatch position)
  | some latch =>
    let latches := aig.latches.setIfInBounds position { latch with next := next }
    { aig with latches := latches }.release latch.next

def addAnd (aig : Aig) (left right : Edge) : Except Fault (Edge × Aig) := do
  let aig ← aig.consume left
  let aig ← aig.consume right
  let (n, aig) := aig.addNode (.and left right)
  return (.ofNode n, aig)

def addOutput (aig : Aig) (e : Edge) : Except Fault (Nat × Aig) := do
  let aig ← aig.consume e
  return (aig.outputs.size, { aig with outputs := aig.outputs.push e })

def setName (aig : Aig) (n : Nat) (name : String) : Aig :=
  { aig with names := aig.names.insert n name }

def name? (aig : Aig) (n : Nat) : Option String := aig.names[n]?

def outputName? (aig : Aig) (position : Nat) : Option String := aig.outputNames[position]?

/-- The node at an index, which has to exist. -/
def node (aig : Aig) (n : Nat) : Except Fault AigNode :=
  match aig.nodes[n]? with
  | some node => .ok node
  | none => .error (.absentNode n)

/-- The fanin edge of node `n` at `position`. -/
def fanin (aig : Aig) (n position : Nat) : Except Fault Edge := do
  let node ← aig.node n
  match node.fanins[position]? with
  | some e => .ok e
  | none => .error (.noFanin n position)

/-- The gates, in index order. -/
def ands (aig : Aig) : List Nat :=
  (List.range aig.nodes.size).filter fun n => (aig.nodes[n]?.map AigNode.isAnd).getD false

/-- The edges that each count as one parent: fanins of gates, next states and outputs. -/
def consumers (aig : Aig) : List Edge :=
  aig.nodes.toList.flatMap AigNode.fanins ++ aig.latches.toList.map Latch.next
    ++ aig.outputs.toList

/-- The parents of every node, counted anew from the structure. -/
def recount (aig : Aig) : Except Fault FanoutCounts :=
  (FanoutCounts.empty.grow aig.nodes.size).incrementAll (aig.consumers.map Edge.node)

/-- Whether every stored count is the number of parents. The first that is not is reported. The
audit breaks off where there are more counts than nodes or fewer. -/
def auditCounts (aig : Aig) : Except LoadFailure Unit := do
  let expected ← aig.recount.mapError .broken
  let found := aig.stores.counts
  match (List.range (min expected.size found.size)).find? fun n =>
      expected.parents n != found.parents n with
  | some n => .error (.rejected (.fanoutMismatch n (expected.parents n) (found.parents n)))
  | none =>
    if expected.size = found.size then .ok ()
    else .error (.broken (.unevenCounts expected.size found.size))

instance : Container Aig where
  nodeCount aig := aig.nodes.size
  contains aig n := decide (n < aig.nodes.size)
  fanin := fanin
  network := network
  stores aig := aig.stores
  query f aig :=
    match aig with
    | ⟨nodes, inputs, latches, outputs, names, outputNames, stores⟩ =>
      match f (networkOf nodes) stores with
      | .error fault => .error fault
      | .ok (a, stores) =>
        .ok (a, ⟨nodes, inputs, latches, outputs, names, outputNames, stores⟩)

end Aig

end FanoutCone
