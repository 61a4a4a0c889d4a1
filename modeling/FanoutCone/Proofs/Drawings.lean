import FanoutCone.Dot
import FanoutCone.Proofs.TextLines
import FanoutCone.Proofs.Wiring

/-!
# What a drawing fills

The line that declares a node starts with its index, and only the attributes
that fill a node hold the letter y. So a drawing tells by its text alone which
nodes are filled: those that were highlighted, as long as they are drawn.
-/
namespace FanoutCone.Dot

def filling : String := ",style=filled,fillcolor=orange"

/-- Whether a line of a text declares a node and fills it. -/
def Fills (text : String) (n : Nat) : Prop :=
  ∃ line ∈ textLines text, (toString n ++ " [").toList <+: line ∧ filling.toList <:+: line

variable {g : StableAig} {highlight : List Nat} {m n : Nat}

/-- Text within a line that fills nothing. -/
def Plain (cs : List Char) : Prop := ∀ c ∈ cs, c ≠ 'y' ∧ c ≠ '\n'

section Plain

variable {c : Char} {cs cs' : List Char}

@[simp] theorem plain_nil : Plain [] := fun _ h => absurd h List.not_mem_nil

@[simp] theorem plain_cons : Plain (c :: cs) ↔ (c ≠ 'y' ∧ c ≠ '\n') ∧ Plain cs :=
  List.forall_mem_cons

@[simp] theorem plain_append : Plain (cs ++ cs') ↔ Plain cs ∧ Plain cs' := List.forall_mem_append

@[simp] theorem plain_toDigits (k : Nat) : Plain (Nat.toDigits 10 k) := fun c hc => by
  constructor <;> rintro rfl <;> exact Aiger.notMem_numeral rfl k hc

end Plain

def shape (n : Nat) : StableNode → String
  | .const => "shape=point"
  | .input position => "shape=box,color=blue,label=\"Input " ++ toString position ++ "\""
  | .and _ _ => "label=\"AND " ++ toString n ++ "\""

section Shape

variable (n : Nat) (node : StableNode)

@[simp] theorem shape_const : shape n .const = "shape=point" := rfl

@[simp] theorem shape_input (position : Nat) : shape n (.input position) =
    "shape=box,color=blue,label=\"Input " ++ toString position ++ "\"" := rfl

@[simp] theorem shape_and (left right : Nat) :
    shape n (.and left right) = "label=\"AND " ++ toString n ++ "\"" := rfl

theorem plain_shape : Plain (shape n node).toList := by
  cases node <;> simp

/-- The line of a node: its index, its shape, and what fills it. -/
theorem toList_nodeLine (highlight : List Nat) :
    (nodeLine highlight n node).toList = Aiger.numeral n ++
      ' ' :: '[' :: ((shape n node).toList ++ ((fill highlight n).toList ++ [']', ';'])) := by
  cases node <;> simp [nodeLine, Aiger.numeral]

end Shape

/-- A line that starts like that of a node is the line of no other node. -/
theorem eq_of_starts {node : StableNode}
    (h : (toString n ++ " [").toList <+: (nodeLine highlight m node).toList) : n = m := by
  obtain ⟨rest, hrest⟩ := h
  have hindex : (toString n ++ " [").toList ++ rest = Aiger.numeral n ++ ' ' :: ('[' :: rest) := by
    simp [Aiger.numeral]
  rw [hindex, toList_nodeLine] at hrest
  have hsplit := congrArg (Aiger.splitAt ' ') hrest
  rw [Aiger.splitAt_append (Aiger.notMem_numeral rfl n),
    Aiger.splitAt_append (Aiger.notMem_numeral rfl m)] at hsplit
  exact Aiger.numeral_injective (List.cons.inj hsplit).1

theorem plain_nodeLine {node : StableNode} (h : n ∉ highlight) :
    Plain (nodeLine highlight n node).toList := by
  have hfill : fill highlight n = "" := by simp [fill, h]
  rw [toList_nodeLine, hfill]
  simp [plain_shape, Aiger.numeral]

theorem plain_arcLine (arc : Arc) : Plain (arcLine arc).toList := by
  cases h : arc.inverted <;> simp [arcLine, inversion, h]

theorem plain_outputLines {position : Nat} {e : Edge} {line : String}
    (h : line ∈ outputLines position e) : Plain line.toList := by
  simp only [outputLines, List.mem_cons, List.not_mem_nil, or_false] at h
  rcases h with rfl | rfl
  · simp
  · cases e.complement <;> simp [inversion]

/-- A line of a drawing is plain, or that of a node that was highlighted. -/
theorem plain_or_exists_nodeLine {line : String} (h : line ∈ lines g highlight) :
    Plain line.toList ∨ ∃ n ∈ highlight, ∃ node, line = nodeLine highlight n node := by
  simp only [lines, List.mem_append, List.mem_singleton, List.mem_filterMap, List.mem_map,
    List.mem_flatMap, or_assoc] at h
  rcases h with rfl | ⟨n, -, hn⟩ | ⟨⟨k, arc⟩, -, rfl⟩ | ⟨⟨e, position⟩, -, hline⟩ | rfl
  · exact Or.inl (by simp)
  · obtain ⟨node, -, rfl⟩ := Option.map_eq_some_iff.1 hn
    by_cases hmem : n ∈ highlight
    · exact Or.inr ⟨n, hmem, node, rfl⟩
    · exact Or.inl (plain_nodeLine hmem)
  · exact Or.inl (plain_arcLine arc)
  · exact Or.inl (plain_outputLines hline)
  · exact Or.inl (by simp)

theorem newline_notMem_of_mem_lines {line : String} (h : line ∈ lines g highlight) :
    '\n' ∉ line.toList := by
  rcases plain_or_exists_nodeLine h with hplain | ⟨n, hn, node, rfl⟩
  · exact fun hmem => (hplain _ hmem).2 rfl
  · have hindex : '\n' ∉ Aiger.numeral n := Aiger.notMem_numeral rfl n
    have hfill : '\n' ∉ (fill highlight n).toList := by
      unfold fill
      split <;> decide
    have hshape : '\n' ∉ (shape n node).toList := fun hmem => (plain_shape n node _ hmem).2 rfl
    rw [toList_nodeLine]
    simp [hindex, hfill, hshape]

/-- The lines of a drawing are those that were written. -/
theorem textLines_render (g : StableAig) (highlight : List Nat) :
    textLines (render g highlight) = (lines g highlight).map String.toList :=
  textLines_join fun _ => newline_notMem_of_mem_lines

/-- The nodes that a drawing fills are those that were highlighted. -/
theorem fills_render_iff (hpresent : ∀ n ∈ highlight, g.Present n) :
    Fills (render g highlight) n ↔ n ∈ highlight := by
  unfold Fills
  rw [textLines_render]
  simp only [List.mem_map, exists_exists_and_eq_and]
  constructor
  · rintro ⟨line, hline, hstart, hfilling⟩
    rcases plain_or_exists_nodeLine hline with hplain | ⟨m, hm, node, rfl⟩
    · have hy : 'y' ∈ line.toList := hfilling.subset (by decide)
      exact absurd rfl (hplain _ hy).1
    · rwa [eq_of_starts hstart]
  · intro hn
    obtain ⟨node, hnode⟩ := hpresent n hn
    have hfill : fill highlight n = filling := by simp [fill, hn, filling]
    refine ⟨nodeLine highlight n node, ?_, ?_, ?_⟩
    · have hvertex : n ∈ g.graph.vertexIndices := Digraph.mem_vertexIndices.2 ⟨node, hnode⟩
      simp only [lines, List.mem_append, List.mem_filterMap]
      refine Or.inl (Or.inl (Or.inl (Or.inr ⟨n, hvertex, ?_⟩)))
      rw [hnode, Option.map_some]
    · rw [toList_nodeLine]
      simp [Aiger.numeral]
    · rw [toList_nodeLine, hfill]
      exact ⟨Aiger.numeral n ++ ' ' :: '[' :: (shape n node).toList, [']', ';'], by simp⟩

end FanoutCone.Dot
