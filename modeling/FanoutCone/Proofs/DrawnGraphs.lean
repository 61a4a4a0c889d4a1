import FanoutCone.Proofs.Drawings
import FanoutCone.Proofs.StableRuns

/-!
# Drawn graphs

Between its braces a drawing is a list of statements, one on each line, and a
statement can be told from its line. A statement declares a name or draws an
arrow between two names.

In the arena of arcs slots are used again, and two arcs may run between the same
nodes. But each arc is held by one gate at one position, and each gate holds an
arc at either position. So the arrows between nodes are the fanins of the gates,
each drawn once.
-/
namespace FanoutCone.Dot

/-- What a drawing can declare: a node, by index, or an output, by position. -/
inductive Name where
  | node (n : Nat)
  | output (position : Nat)
deriving DecidableEq

/-- What a line between the braces says. -/
inductive Statement where
  | declare (name : Name) (attributes : String)
  | arrow (source target : Name) (inverted : Bool)
deriving DecidableEq

def Name.text : Name → String
  | .node n => toString n
  | .output position => "o" ++ toString position

namespace Statement

/-- The line of a statement. An inverted arrow has a circle at its tail. -/
def text : Statement → String
  | .declare name attributes => name.text ++ " [" ++ attributes ++ "];"
  | .arrow source target false => source.text ++ " -> " ++ target.text ++ ";"
  | .arrow source target true =>
    source.text ++ " -> " ++ target.text ++ " [dir=both,arrowtail=odot];"

def declares? : Statement → Option Name
  | .declare name _ => some name
  | .arrow _ _ _ => none

end Statement

/-- The declaration of a node, which is filled if it is highlighted. -/
def declaration (highlight : List Nat) (n : Nat) (node : StableNode) : Statement :=
  .declare (.node n) (shape n node ++ if n ∈ highlight then filling else "")

/-- The declaration of an output and its arrow. -/
def outputStatements (position : Nat) (e : Edge) : List Statement :=
  [.declare (.output position)
      ("shape=box,color=green,label=\"Output " ++ toString position ++ "\""),
    .arrow (.node e.node) (.output position) e.complement]

/-- Whether statements declare each node present once, in index order. -/
def DeclaresNodes (g : StableAig) (highlight : List Nat) (statements : List Statement) : Prop :=
  ∃ present : List (Nat × StableNode), present.Pairwise (fun a b => a.1 < b.1) ∧
    (∀ n node, (n, node) ∈ present ↔ g.node? n = some node) ∧
    statements = present.map fun (n, node) => declaration highlight n node

/-- Whether statements draw the fanin at each position of each gate once. -/
def DrawsFanins (g : StableAig) (statements : List Statement) : Prop :=
  ∃ positions : List (Nat × Nat), positions.Nodup ∧
    (∀ n k, (n, k) ∈ positions ↔
      k < 2 ∧ ∃ leftArc rightArc, g.node? n = some (.and leftArc rightArc)) ∧
    List.Forall₂ (fun (n, k) statement => ∃ e, g.fanin n k = .ok e ∧
      statement = .arrow (.node e.node) (.node n) e.complement) positions statements

def outputsStatements (g : StableAig) : List Statement :=
  g.outputs.toList.zipIdx.flatMap fun (e, position) => outputStatements position e

def declared (statements : List Statement) : List Name := statements.filterMap Statement.declares?

/-- The lines of a drawing with the given statements. -/
def framed (statements : List Statement) : List String :=
  ["digraph \x7b"] ++ statements.map Statement.text ++ ["\x7d"]

/-- Whether statements depict a graph: each node present is declared, then each fanin is drawn, and
then each output is declared and drawn. -/
structure Depicts (g : StableAig) (highlight : List Nat) (statements : List Statement) : Prop where
  parts : ∃ nodes arrows, DeclaresNodes g highlight nodes ∧ DrawsFanins g arrows ∧
    statements = nodes ++ arrows ++ outputsStatements g
  /-- No name is declared twice. -/
  nodup_declared : (declared statements).Nodup
  /-- Both ends of an arrow are declared. -/
  ends_declared : ∀ {source target inverted}, .arrow source target inverted ∈ statements →
    source ∈ declared statements ∧ target ∈ declared statements

section Text

variable {name name' : Name} {cs cs' : List Char}

theorem toList_text (name : Name) : name.text.toList =
    match name with
    | .node n => Aiger.numeral n
    | .output position => 'o' :: Aiger.numeral position := by
  cases name <;> simp [Name.text, Aiger.numeral]

theorem notMem_text {c : Char} (hdigit : c.isDigit = false) (ho : c ≠ 'o') :
    c ∉ name.text.toList := by
  rw [toList_text]
  cases name with
  | node n => exact Aiger.notMem_numeral hdigit n
  | output position =>
    rw [List.mem_cons, not_or]
    exact ⟨ho, Aiger.notMem_numeral hdigit position⟩

theorem Name.text_injective : Function.Injective Name.text := by
  intro name name' h
  have hlist := congrArg String.toList h
  rw [toList_text, toList_text] at hlist
  have ho : ∀ n position, Aiger.numeral n ≠ 'o' :: Aiger.numeral position := fun n position heq =>
    Aiger.notMem_numeral (c := 'o') rfl n (heq ▸ List.mem_cons_self)
  cases name with
  | node n =>
    cases name' with
    | node m => rw [Aiger.numeral_injective hlist]
    | output position => exact absurd hlist (ho n position)
  | output position =>
    cases name' with
    | node m => exact absurd hlist.symm (ho m position)
    | output position' => rw [Aiger.numeral_injective (List.cons.inj hlist).2]

/-- A name ends at the first space after it. -/
theorem eq_of_text_append (h : name.text.toList ++ ' ' :: cs = name'.text.toList ++ ' ' :: cs') :
    name = name' ∧ cs = cs' := by
  have hspace : ∀ name : Name, ' ' ∉ name.text.toList := fun _ => notMem_text rfl (by decide)
  have hsplit := congrArg (Aiger.splitAt ' ') h
  rw [Aiger.splitAt_append (hspace name), Aiger.splitAt_append (hspace name')] at hsplit
  obtain rfl := Name.text_injective (String.toList_injective (List.cons.inj hsplit).1)
  exact ⟨rfl, (List.cons.inj (List.append_cancel_left h)).2⟩

theorem Statement.text_arrow (source target : Name) (inverted : Bool) :
    (arrow source target inverted).text =
      source.text ++ " -> " ++ target.text ++ inversion inverted ++ ";" := by
  apply String.toList_injective
  cases inverted <;> simp [text, inversion]

/-- A statement is told by its line. -/
theorem Statement.text_injective : Function.Injective Statement.text := by
  have hdeclare : ∀ name attributes, (declare name attributes).text.toList =
      name.text.toList ++ ' ' :: '[' :: (attributes.toList ++ [']', ';']) := by
    intro name attributes
    simp [text]
  have harrow : ∀ source target inverted, (arrow source target inverted).text.toList =
      source.text.toList ++ ' ' :: '-' :: '>' :: ' ' ::
        (target.text.toList ++ (inversion inverted).toList ++ [';']) := by
    intro source target inverted
    simp [text_arrow]
  have hspace : ∀ (target : Name) inverted,
      ' ' ∈ target.text.toList ++ (inversion inverted).toList ↔ inverted = true := by
    intro target inverted
    have htarget : ' ' ∉ target.text.toList := notMem_text rfl (by decide)
    cases inverted <;> simp [inversion, htarget]
  intro a b h
  have hlist := congrArg String.toList h
  cases a with
  | declare name attributes =>
    cases b with
    | declare name' attributes' =>
      rw [hdeclare, hdeclare] at hlist
      obtain ⟨rfl, hrest⟩ := eq_of_text_append hlist
      have hattributes := List.append_cancel_right (List.cons.inj hrest).2
      rw [String.toList_injective hattributes]
    | arrow source target inverted =>
      rw [hdeclare, harrow] at hlist
      cases (eq_of_text_append hlist).2
  | arrow source target inverted =>
    cases b with
    | declare name attributes =>
      rw [hdeclare, harrow] at hlist
      cases (eq_of_text_append hlist).2
    | arrow source' target' inverted' =>
      rw [harrow, harrow] at hlist
      obtain ⟨rfl, hrest⟩ := eq_of_text_append hlist
      have htarget := List.append_cancel_right
        (List.cons.inj (List.cons.inj (List.cons.inj hrest).2).2).2
      obtain rfl : inverted = inverted' := by
        rw [Bool.eq_iff_iff, ← hspace target, htarget, hspace target']
      have htext := List.append_cancel_right htarget
      rw [Name.text_injective (String.toList_injective htext)]

theorem eq_of_framed {statements statements' : List Statement}
    (h : (framed statements).map String.toList = (framed statements').map String.toList) :
    statements = statements' := by
  have hframed := List.map_injective_iff.2 (fun _ _ => String.toList_injective) h
  have htexts := List.append_cancel_left (List.append_cancel_right hframed)
  exact List.map_injective_iff.2 Statement.text_injective htexts

end Text

variable {g : StableAig} {made : GateTable} {highlight : List Nat} {n arc arc' : Nat} {x x' : Arc}

section Lines

theorem text_declaration (highlight : List Nat) (n : Nat) (node : StableNode) :
    (declaration highlight n node).text = nodeLine highlight n node := by
  have hfill : (if n ∈ highlight then filling else "") = fill highlight n := by
    simp only [fill, filling, List.contains_iff_mem]
  apply String.toList_injective
  rw [toList_nodeLine]
  simp [declaration, Statement.text, Name.text, Aiger.numeral, hfill]

theorem map_text_outputStatements (position : Nat) (e : Edge) :
    (outputStatements position e).map Statement.text = outputLines position e := by
  simp only [outputStatements, outputLines, List.map_cons, List.map_nil, List.cons.injEq, and_true]
  constructor
  · apply String.toList_injective
    simp [Statement.text, Name.text]
  · apply String.toList_injective
    simp [Statement.text_arrow, Name.text]

/-- The nodes present, in index order. -/
def presentNodes (g : StableAig) : List (Nat × StableNode) :=
  g.graph.vertexIndices.filterMap fun n => (g.node? n).map (Prod.mk n)

def arcStatement (x : Arc) : Statement := .arrow (.node x.source) (.node x.target) x.inverted

def arcStatements (g : StableAig) : List Statement :=
  g.graph.indexedArcs.map fun (_, x) => arcStatement x

def statements (g : StableAig) (highlight : List Nat) : List Statement :=
  (presentNodes g).map (fun (n, node) => declaration highlight n node) ++
    arcStatements g ++ outputsStatements g

theorem lines_eq (g : StableAig) (highlight : List Nat) :
    lines g highlight = framed (statements g highlight) := by
  have hnodes : ((presentNodes g).map fun (n, node) => declaration highlight n node).map
      Statement.text =
        g.graph.vertexIndices.filterMap fun n => (g.node? n).map (nodeLine highlight n) := by
    rw [presentNodes, List.map_map, List.map_filterMap]
    refine List.filterMap_congr fun n _ => ?_
    rw [Option.map_map]
    refine congrArg (fun f => (g.node? n).map f) (funext fun node => ?_)
    exact text_declaration highlight n node
  have houtputs : (outputsStatements g).map Statement.text =
      g.outputs.toList.zipIdx.flatMap fun (e, position) => outputLines position e := by
    rw [outputsStatements, List.map_flatMap]
    exact List.flatMap_congr fun (e, position) _ => map_text_outputStatements position e
  have harcs : (arcStatements g).map Statement.text =
      g.graph.indexedArcs.map fun (_, x) => arcLine x := by
    rw [arcStatements, List.map_map]
    exact List.map_congr_left fun (_, x) _ => Statement.text_arrow _ _ x.inverted
  rw [framed, statements, List.map_append, List.map_append, hnodes, harcs, houtputs]
  simp only [lines, List.append_assoc]

end Lines

theorem mem_presentNodes {node : StableNode} :
    (n, node) ∈ presentNodes g ↔ g.node? n = some node := by
  simp only [presentNodes, List.mem_filterMap, Option.map_eq_some_iff, Prod.mk.injEq]
  constructor
  · rintro ⟨m, -, node', hnode, rfl, rfl⟩
    exact hnode
  · intro hnode
    exact ⟨n, Digraph.mem_vertexIndices.2 ⟨node, hnode⟩, node, hnode, rfl, rfl⟩

theorem pairwise_presentNodes (g : StableAig) :
    (presentNodes g).Pairwise fun a b => a.1 < b.1 := by
  have hsorted : g.graph.vertexIndices.Pairwise (· < ·) := List.pairwise_lt_range.filter _
  refine hsorted.filterMap _ fun n m hlt a ha b hb => ?_
  obtain ⟨-, -, rfl⟩ := Option.map_eq_some_iff.1 ha
  obtain ⟨-, -, rfl⟩ := Option.map_eq_some_iff.1 hb
  exact hlt

theorem declaresNodes (g : StableAig) (highlight : List Nat) :
    DeclaresNodes g highlight
      ((presentNodes g).map fun (n, node) => declaration highlight n node) :=
  ⟨presentNodes g, pairwise_presentNodes g, fun _ _ => mem_presentNodes, rfl⟩

theorem mem_indexedArcs : (arc, x) ∈ g.graph.indexedArcs ↔ g.graph.arcs.get? arc = some x := by
  simp only [Digraph.indexedArcs, List.mem_filterMap, Option.map_eq_some_iff, Prod.mk.injEq]
  constructor
  · rintro ⟨i, -, y, hy, rfl, rfl⟩
    exact hy
  · intro hx
    exact ⟨arc, SlotArena.mem_occupied.2 (by rw [hx]; rfl), x, hx, rfl, rfl⟩

theorem nodup_indexedArcs (g : StableAig) : g.graph.indexedArcs.Nodup := by
  refine (SlotArena.nodup_occupied g.graph.arcs).filterMap fun i j a ha hb => ?_
  obtain ⟨x, -, rfl⟩ := Option.map_eq_some_iff.1 ha
  obtain ⟨y, -, heq⟩ := Option.map_eq_some_iff.1 hb
  exact (congrArg Prod.fst heq).symm

/-- The position at which gate `n` holds an arc. -/
def holdingPosition (g : StableAig) (n arc : Nat) : Nat :=
  match g.node? n with
  | some (.and leftArc _) => if arc = leftArc then 0 else 1
  | _ => 0

section Fanins

variable (hstored : StableAig.Stored made g) {leftArc rightArc : Nat}

theorem holdingPosition_of_gate (hnode : g.node? n = some (.and leftArc rightArc)) (arc : Nat) :
    holdingPosition g n arc = if arc = leftArc then 0 else 1 := by
  rw [holdingPosition, hnode]

include hstored

/-- An arc is the fanin of the gate where it ends, at the position at which that gate holds it. -/
theorem fanin_holdingPosition (hx : g.graph.arcs.get? arc = some x) :
    ∃ e, g.fanin x.target (holdingPosition g x.target arc) = .ok e ∧
      arcStatement x = .arrow (.node e.node) (.node x.target) e.complement := by
  obtain ⟨leftArc, rightArc, hnode, hor⟩ := hstored.arc hx
  obtain ⟨left, right, -, hne, hleft, hright, hfanin, hfanin'⟩ := hstored.gate hnode
  rw [holdingPosition_of_gate hnode]
  rcases hor with rfl | rfl
  · have hx' := Option.some.inj (hx.symm.trans hleft)
    refine ⟨left, by rwa [if_pos rfl], ?_⟩
    rw [arcStatement, hx']
  · have hx' := Option.some.inj (hx.symm.trans hright)
    refine ⟨right, by rwa [if_neg (Ne.symm hne)], ?_⟩
    rw [arcStatement, hx']

/-- An arc is told by the gate that holds it and the position. -/
theorem eq_of_holdingPosition (hx : g.graph.arcs.get? arc = some x)
    (hx' : g.graph.arcs.get? arc' = some x') (htarget : x.target = x'.target)
    (hposition : holdingPosition g x.target arc = holdingPosition g x'.target arc') :
    arc = arc' := by
  obtain ⟨leftArc, rightArc, hnode, hor⟩ := hstored.arc hx
  obtain ⟨leftArc', rightArc', hnode', hor'⟩ := hstored.arc hx'
  rw [← htarget] at hnode' hposition
  cases hnode.symm.trans hnode'
  rw [holdingPosition_of_gate hnode, holdingPosition_of_gate hnode] at hposition
  rcases hor with rfl | rfl <;> rcases hor' with rfl | rfl <;> grind

/-- The arrows between nodes are the fanins of the gates. -/
theorem drawsFanins : DrawsFanins g (arcStatements g) := by
  let positions := g.graph.indexedArcs.map fun (arc, x) =>
    (x.target, holdingPosition g x.target arc)
  refine ⟨positions, ?_, fun n k => ⟨fun hmem => ?_, ?_⟩, ?_⟩
  · refine (nodup_indexedArcs g).map_on ?_
    rintro ⟨arc, x⟩ hx ⟨arc', x'⟩ hx' heq
    obtain ⟨htarget, hposition⟩ := Prod.mk.inj heq
    rw [mem_indexedArcs] at hx hx'
    obtain rfl := eq_of_holdingPosition hstored hx hx' htarget hposition
    cases hx.symm.trans hx'
    rfl
  · obtain ⟨⟨arc, x⟩, hx, heq⟩ := List.mem_map.1 hmem
    obtain ⟨leftArc, rightArc, hnode, -⟩ := hstored.arc (mem_indexedArcs.1 hx)
    cases heq
    refine ⟨?_, leftArc, rightArc, hnode⟩
    rw [holdingPosition_of_gate hnode]
    split <;> omega
  · rintro ⟨hk, leftArc, rightArc, hnode⟩
    obtain ⟨left, right, -, hne, hleft, hright, -, -⟩ := hstored.gate hnode
    have hat : ∀ {arc x}, g.graph.arcs.get? arc = some x → x.target = n →
        (n, if arc = leftArc then 0 else 1) ∈ positions := by
      rintro arc x hx rfl
      exact List.mem_map.2 ⟨(arc, x), mem_indexedArcs.2 hx,
        congrArg (Prod.mk x.target) (holdingPosition_of_gate hnode arc)⟩
    obtain rfl | rfl : k = 0 ∨ k = 1 := by omega
    · simpa using hat hleft rfl
    · simpa [hne.symm] using hat hright rfl
  · rw [arcStatements, List.forall₂_map_left_iff, List.forall₂_map_right_iff, List.forall₂_same]
    exact fun (arc, x) hx => fanin_holdingPosition hstored (mem_indexedArcs.1 hx)

end Fanins

section Names

theorem declared_append (statements statements' : List Statement) :
    declared (statements ++ statements') = declared statements ++ declared statements' :=
  List.filterMap_append

theorem declared_declarations (nodes : List (Nat × StableNode)) :
    declared (nodes.map fun (n, node) => declaration highlight n node) =
      nodes.map fun (n, _) => .node n := by
  rw [declared, List.filterMap_map, ← List.filterMap_eq_map]
  rfl

theorem declared_arcStatements (g : StableAig) : declared (arcStatements g) = [] := by
  rw [declared, arcStatements, List.filterMap_map]
  exact List.filterMap_eq_nil_iff.2 fun _ _ => rfl

theorem declared_outputsStatements (g : StableAig) :
    declared (outputsStatements g) = (List.range g.outputs.size).map .output := by
  have hdeclared : ∀ outputs : List (Edge × Nat),
      declared (outputs.flatMap fun (e, position) => outputStatements position e) =
        (outputs.map Prod.snd).map .output := by
    intro outputs
    induction outputs with
    | nil => rfl
    | cons output outputs ih =>
      rw [List.flatMap_cons, declared_append, ih]
      rfl
  rw [outputsStatements, hdeclared, List.zipIdx_map_snd, Array.length_toList, List.range_eq_range']

theorem declared_statements (g : StableAig) (highlight : List Nat) :
    declared (statements g highlight) =
      (presentNodes g).map (fun (n, _) => .node n) ++ (List.range g.outputs.size).map .output := by
  rw [statements, declared_append, declared_append, declared_declarations, declared_arcStatements,
    declared_outputsStatements, List.append_nil]

theorem node_mem_declared : .node n ∈ declared (statements g highlight) ↔ g.Present n := by
  rw [declared_statements]
  constructor
  · intro hmem
    have hdeclared := (List.mem_append.1 hmem).resolve_right (by simp)
    obtain ⟨⟨m, node⟩, hnode, heq⟩ := List.mem_map.1 hdeclared
    cases heq
    exact ⟨node, mem_presentNodes.1 hnode⟩
  · rintro ⟨node, hnode⟩
    exact List.mem_append_left _ (List.mem_map.2 ⟨(n, node), mem_presentNodes.2 hnode, rfl⟩)

theorem output_mem_declared {position : Nat} :
    .output position ∈ declared (statements g highlight) ↔ position < g.outputs.size := by
  simp [declared_statements]

theorem nodup_declared (g : StableAig) (highlight : List Nat) :
    (declared (statements g highlight)).Nodup := by
  rw [declared_statements]
  have hnodes := (pairwise_presentNodes g).imp Nat.ne_of_lt
  refine List.Nodup.append ?_ ?_ ?_
  · exact List.pairwise_map.2 (hnodes.imp fun hne heq => hne (Name.node.inj heq))
  · exact List.nodup_range.map fun _ _ => Name.output.inj
  · intro name hnode houtput
    obtain ⟨p, -, rfl⟩ := List.mem_map.1 hnode
    obtain ⟨position, -, heq⟩ := List.mem_map.1 houtput
    cases heq

/-- The ends of an arc are present, as is the source of an output. -/
theorem ends_declared {source target : Name} {inverted : Bool} (hgraph : g.graph.Sound)
    (houtputs : ∀ e ∈ g.outputs, g.Present e.node)
    (h : .arrow source target inverted ∈ statements g highlight) :
    source ∈ declared (statements g highlight) ∧ target ∈ declared (statements g highlight) := by
  rw [statements, List.mem_append, List.mem_append] at h
  rcases h with (hdeclaration | harc) | houtput
  · obtain ⟨p, -, heq⟩ := List.mem_map.1 hdeclaration
    cases heq
  · obtain ⟨⟨arc, x⟩, hx, heq⟩ := List.mem_map.1 harc
    cases heq
    obtain ⟨hsource, htarget⟩ := hgraph.endpoints (mem_indexedArcs.1 hx)
    exact ⟨node_mem_declared.2 (StableAig.present_iff_contains.2 hsource),
      node_mem_declared.2 (StableAig.present_iff_contains.2 htarget)⟩
  · obtain ⟨⟨e, position⟩, hmem, hstatement⟩ := List.mem_flatMap.1 houtput
    simp only [outputStatements, List.mem_cons, reduceCtorEq, List.not_mem_nil, or_false,
      false_or] at hstatement
    cases hstatement
    have he : e ∈ g.outputs := Array.mem_toList_iff.1 (List.fst_mem_of_mem_zipIdx hmem)
    have hposition : position < g.outputs.toList.length := List.snd_lt_of_mem_zipIdx hmem
    rw [Array.length_toList] at hposition
    exact ⟨node_mem_declared.2 (houtputs e he), output_mem_declared.2 hposition⟩

end Names

/-- At every point of a run the drawing of a graph depicts it, and says nothing else. -/
theorem render_depicts (h : StableAig.Reached made g) (highlight : List Nat) :
    ∃ statements, Depicts g highlight statements ∧
      render g highlight = String.join ((framed statements).map (· ++ "\n")) ∧
      ∀ read, textLines (render g highlight) = (framed read).map String.toList ↔
        read = statements := by
  obtain ⟨T, hcomplete, -, hmade⟩ := h.exists_complete
  have hlines := textLines_render g highlight
  rw [lines_eq] at hlines
  refine ⟨statements g highlight, ⟨?_, nodup_declared g highlight, ?_⟩, ?_, fun read => ?_⟩
  · exact ⟨_, _, declaresNodes g highlight, drawsFanins (hcomplete.stored hmade), rfl⟩
  · exact ends_declared hcomplete.graph hcomplete.outputs
  · rw [render, lines_eq]
  · rw [hlines]
    exact ⟨fun heq => (eq_of_framed heq).symm, fun heq => by rw [heq]⟩

/-- Two parallel arcs in slots that a sweep had freed. -/
theorem render_depicts_reused :
    ∃ statements, Depicts StableAig.reused [2, 7] statements ∧
      render StableAig.reused [2, 7] = String.join ((framed statements).map (· ++ "\n")) ∧
      ∀ read, textLines (render StableAig.reused [2, 7]) = (framed read).map String.toList ↔
        read = statements :=
  render_depicts StableAig.reached_reused [2, 7]

end FanoutCone.Dot
