import FanoutCone.Fault
import FanoutCone.SlotArena

/-!
# Directed graphs with stable indices

Vertices and arcs lie in slots of their own. Removing a vertex removes its arcs
and nothing else, and every index left keeps naming what it named. Each vertex
lists its outgoing and its incoming arcs, newest first. That order decides in
which order a removal frees slots, and so which slots are taken next.
-/
namespace FanoutCone

/-- A vertex: its label and the arcs at it, newest first. -/
structure Vertex (α : Type) where
  label : α
  outgoing : List Nat
  incoming : List Nat
deriving DecidableEq

/-- An arc between two vertices, inverted or not. -/
structure Arc where
  source : Nat
  target : Nat
  inverted : Bool
deriving DecidableEq

/-- A directed graph whose vertices carry labels. -/
structure Digraph (α : Type) where
  vertices : SlotArena (Vertex α)
  arcs : SlotArena Arc
deriving DecidableEq

namespace Digraph

variable {α : Type}

def empty : Digraph α := ⟨.empty, .empty⟩

def label? (g : Digraph α) (n : Nat) : Option α := (g.vertices.get? n).map Vertex.label

def contains (g : Digraph α) (n : Nat) : Bool := (g.vertices.get? n).isSome

def addVertex (g : Digraph α) (label : α) : Nat × Digraph α :=
  match g with
  | ⟨vertices, arcs⟩ =>
    let (n, vertices) := vertices.insert ⟨label, [], []⟩
    (n, ⟨vertices, arcs⟩)

def setLabel (g : Digraph α) (n : Nat) (label : α) : Digraph α :=
  match g with
  | ⟨vertices, arcs⟩ => ⟨vertices.modify n fun v => { v with label := label }, arcs⟩

/-- Draws an arc between two vertices, which have to be present, and returns its index. -/
def addArc (g : Digraph α) (source target : Nat) (inverted : Bool) :
    Except Fault (Nat × Digraph α) :=
  if !g.contains source then .error (.vacantEndpoint source)
  else if !g.contains target then .error (.vacantEndpoint target)
  else
    match g with
    | ⟨vertices, arcs⟩ =>
      let (arc, arcs) := arcs.insert ⟨source, target, inverted⟩
      let vertices := vertices.modify source fun v => { v with outgoing := arc :: v.outgoing }
      let vertices := vertices.modify target fun v => { v with incoming := arc :: v.incoming }
      .ok (arc, ⟨vertices, arcs⟩)

/-- Removes an arc, if it is present. -/
def removeArc (g : Digraph α) (arc : Nat) : Digraph α :=
  match g with
  | ⟨vertices, arcs⟩ =>
    match arcs.get? arc with
    | none => ⟨vertices, arcs⟩
    | some ⟨source, target, _⟩ =>
      let vertices := vertices.modify source fun v => { v with outgoing := v.outgoing.erase arc }
      let vertices := vertices.modify target fun v => { v with incoming := v.incoming.erase arc }
      ⟨vertices, arcs.erase arc⟩

/-- Removes a vertex, if it is present, with its outgoing arcs and then its incoming arcs. -/
def removeVertex (g : Digraph α) (n : Nat) : Digraph α :=
  match g.vertices.get? n with
  | none => g
  | some v =>
    match v.incoming.foldl removeArc (v.outgoing.foldl removeArc g) with
    | ⟨vertices, arcs⟩ => ⟨vertices.erase n, arcs⟩

/-- The vertices present, in index order. -/
def vertexIndices (g : Digraph α) : List Nat := g.vertices.occupied

/-- The arcs present with their indices, in index order. -/
def indexedArcs (g : Digraph α) : List (Nat × Arc) :=
  g.arcs.occupied.filterMap fun i => (g.arcs.get? i).map (Prod.mk i)

end Digraph

end FanoutCone
