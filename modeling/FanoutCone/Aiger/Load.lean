import FanoutCone.Aiger.Record
import FanoutCone.Acyclic

/-!
# Loading AIGER text

Records are taken in order into a draft, and the first that cannot be taken
decides the outcome. When all are in, every variable must have a definition and
no gate may depend on itself. Then the parents of every node are counted and the
symbols are resolved. A node's index is its variable.
-/
namespace FanoutCone.Aiger

/-- A graph under construction: the definition of each variable, if it has come. -/
structure Draft where
  slots : Array (Option AigNode)
  inputs : Array Nat
  latches : Array Latch
  outputs : Array Edge
  symbols : Array Symbol

namespace Draft

/-- Variables 0 to `maximum`, of which 0 is the constant and the others wait. -/
def start (maximum : Nat) : Draft :=
  ⟨(Array.replicate (maximum + 1) none).setIfInBounds 0 (some .const), #[], #[], #[], #[]⟩

/-- Defines a variable that has no definition yet. -/
def define (d : Draft) (var : Nat) (node : AigNode) : Except LoadFailure Draft :=
  match d with
  | ⟨slots, inputs, latches, outputs, symbols⟩ =>
    match slots[var]? with
    | some none => .ok ⟨slots.setIfInBounds var (some node), inputs, latches, outputs, symbols⟩
    | some (some _) => .error (.rejected (.redefined var))
    | none => .error (.rejected (.outOfRange var (slots.size - 1)))

def take (d : Draft) : Record → Except LoadFailure Draft
  | .input literal => do
    let var := literal / 2
    let d ← d.define var (.input d.inputs.size)
    return { d with inputs := d.inputs.push var }
  | .latch state next => do
    let var := state / 2
    let d ← d.define var (.latch d.latches.size)
    return { d with latches := d.latches.push ⟨var, .ofLiteral next⟩ }
  | .output literal => return { d with outputs := d.outputs.push (.ofLiteral literal) }
  | .gate literal left right => d.define (literal / 2) (.and (.ofLiteral left) (.ofLiteral right))
  | .symbol symbol => return { d with symbols := d.symbols.push symbol }

/-- The node that an input or latch symbol names, if its position exists. -/
def symbolNode? (d : Draft) (s : Symbol) : Option Nat :=
  match s.kind with
  | .input => d.inputs[s.position]?
  | .latch => d.latches[s.position]?.map Latch.node
  | .output => none

/-- The names of nodes: of two symbols for one node the later counts. -/
def names (d : Draft) : NameTable :=
  d.symbols.foldl
    (fun names s =>
      match d.symbolNode? s with
      | some n => names.insert n s.name
      | none => names)
    ∅

/-- The names of outputs, at whatever positions symbols give. -/
def outputNames (d : Draft) : NameTable :=
  d.symbols.foldl
    (fun names s => if s.kind = .output then names.insert s.position s.name else names) ∅

def finish (d : Draft) : Except LoadFailure Aig := do
  match d.slots.findIdx? Option.isNone with
  | some var => .error (.rejected (.undefined var))
  | none =>
    let nodes := d.slots.filterMap id
    requireAcyclic nodes
    let aig : Aig :=
      ⟨nodes, d.inputs, d.latches, d.outputs, d.names, d.outputNames,
        Stores.empty.grow nodes.size⟩
    match aig.stores.counts.incrementAll (aig.consumers.map Edge.node) with
    | .error fault => .error (.broken fault)
    | .ok counts => return { aig with stores := ⟨counts, aig.stores.marks⟩ }

end Draft

/-- Takes the lines after the header, of which the first is line `k`. -/
def takeLines (h : Header) : (k : Nat) → (lines : List (List UInt8)) → Draft →
    Except LoadFailure Draft
  | _, [], d => .ok d
  | k, line :: lines, d =>
    match decodeLine line with
    | none => .error ReadError.ioError.failure
    | some ('c' :: _) => .ok d
    | some line =>
      match Record.read h.maximum (h.part k) line with
      | .error failure => .error failure
      | .ok record =>
        match d.take record with
        | .error failure => .error failure
        | .ok d => takeLines h (k + 1) lines d

/-- Reads the header from the first line, and returns the lines after it. -/
def readHeader : (lines : List (List UInt8)) → Except ReadError (Header × List (List UInt8))
  | [] => .error .invalidHeader
  | first :: lines =>
    match decodeLine first with
    | none => .error .ioError
    | some first => (Header.read first).map fun h => (h, lines)

/-- The graph that a text describes. -/
def load (bytes : List UInt8) : Except LoadFailure Aig := do
  let (h, rest) ← (readHeader (lines bytes)).mapError ReadError.failure
  if Node.maxIndex < h.maximum then .error (.broken (.arenaTooLarge h.maximum))
  else
    let d ← takeLines h 0 rest (Draft.start h.maximum)
    d.finish

inductive FileContent where
  /-- The file could not be opened, for the given reason. -/
  | unopened (reason : String)
  /-- The file was opened, but not even its first line could be read. -/
  | unreadable
  | bytes (content : List UInt8)

def loadFile : FileContent → Except LoadFailure Aig
  | .unopened reason => .error (.rejected (.io reason))
  | .unreadable => .error ReadError.ioError.failure
  | .bytes content => load content

end FanoutCone.Aiger
