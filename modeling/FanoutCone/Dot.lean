import FanoutCone.StableAig

/-!
# Graphs in graphviz format

One line for each node present, in index order, then one for each arc, in index
order, then two for each output. An arrow with a circle at its tail is an
inversion. Highlighted nodes are filled.
-/
namespace FanoutCone.Dot

/-- The attributes that fill a highlighted node. -/
def fill (highlight : List Nat) (n : Nat) : String :=
  if highlight.contains n then ",style=filled,fillcolor=orange" else ""

def inversion (inverted : Bool) : String :=
  if inverted then " [dir=both,arrowtail=odot]" else ""

def nodeLine (highlight : List Nat) (n : Nat) (node : StableNode) : String :=
  match node with
  | .const => toString n ++ " [shape=point" ++ fill highlight n ++ "];"
  | .input position =>
    toString n ++ " [shape=box,color=blue,label=\"Input " ++ toString position ++ "\""
      ++ fill highlight n ++ "];"
  | .and _ _ =>
    toString n ++ " [label=\"AND " ++ toString n ++ "\"" ++ fill highlight n ++ "];"

def arcLine (arc : Arc) : String :=
  toString arc.source ++ " -> " ++ toString arc.target ++ inversion arc.inverted ++ ";"

/-- The lines that declare an output and draw its arrow. -/
def outputLines (position : Nat) (e : Edge) : List String :=
  ["o" ++ toString position ++ " [shape=box,color=green,label=\"Output " ++ toString position
      ++ "\"];",
    toString e.node ++ " -> o" ++ toString position ++ inversion e.complement ++ ";"]

def lines (g : StableAig) (highlight : List Nat) : List String :=
  let nodes := g.graph.vertexIndices.filterMap fun n => (g.node? n).map (nodeLine highlight n)
  let arcs := g.graph.indexedArcs.map fun (_, arc) => arcLine arc
  let outputs := g.outputs.toList.zipIdx.flatMap fun (e, position) => outputLines position e
  ["digraph \x7b"] ++ nodes ++ arcs ++ outputs ++ ["\x7d"]

/-- The text of a graph with the given nodes highlighted. -/
def render (g : StableAig) (highlight : List Nat) : String :=
  String.join ((lines g highlight).map (· ++ "\n"))

end FanoutCone.Dot
