import FanoutCone.StableAig
import FanoutCone.Proofs.Arcs
import FanoutCone.Proofs.Consistency
import FanoutCone.Proofs.GateTable

/-!
# Wiring of stable graphs

A stable graph is wired by a gate table when each gate of the table holds the
indices of two arcs that are its fanins, there are no other arcs, and every
count is the number of fanins and outputs that name the node. While gates are
being connected some are pending: they are present but have no arcs yet.

Each way of changing the graph is one change of the table. Adding a node leaves
the table alone, connecting a pending gate inserts it, and removing gates that
only removed gates read erases them.
-/
namespace FanoutCone.StableAig

def Present (g : StableAig) (n : Nat) : Prop := ∃ node, g.node? n = some node

/-- How many outputs name a node. -/
def exports (g : StableAig) (n : Nat) : Nat := (g.outputs.toList.map Edge.node).count n

/-- What ties a stable graph to the table of its connected gates. -/
structure Wired (T : GateTable) (pending : Nat → Prop) (g : StableAig) : Prop where
  graph : g.graph.Sound
  const_iff : ∀ n, g.node? n = some .const ↔ n = 0
  /-- A gate of the table holds two arcs, which end at it and come from its fanins. -/
  gate : ∀ {n left right}, T n = some (left, right) → ∃ leftArc rightArc,
    g.node? n = some (.and leftArc rightArc) ∧ leftArc ≠ rightArc ∧
      g.graph.arcs.get? leftArc = some ⟨left.node, n, left.complement⟩ ∧
      g.graph.arcs.get? rightArc = some ⟨right.node, n, right.complement⟩
  listed : ∀ {n leftArc rightArc}, g.node? n = some (.and leftArc rightArc) →
    pending n ∨ ∃ left right, T n = some (left, right)
  unlisted : ∀ {n}, pending n → T n = none ∧ g.node? n = some .unconnected
  /-- Every arc is held by a gate of the table. -/
  arc : ∀ {arc x}, g.graph.arcs.get? arc = some x → ∃ left right leftArc rightArc,
    T x.target = some (left, right) ∧ g.node? x.target = some (.and leftArc rightArc) ∧
      (arc = leftArc ∨ arc = rightArc)
  outputs : ∀ e ∈ g.outputs, g.Present e.node
  counts : ∀ v, g.stores.counts.parents v = T.uses g.stores.counts.size v + g.exports v
  lt_size : ∀ {n}, g.Present n → n < g.stores.counts.size
  marks_size : g.stores.marks.size = g.stores.counts.size
  bounded : g.stores.marks.Bounded
  generation_pos : 0 < g.stores.marks.generation

variable {T : GateTable} {pending : Nat → Prop} {g g' : StableAig} {n u v : Nat}
variable {left right e : Edge}

theorem present_iff_contains : g.Present n ↔ g.graph.contains n = true :=
  Digraph.contains_iff_label?.symm

namespace Wired

theorem present_of_gate (h : Wired T pending g) (hn : T n = some (left, right)) :
    g.Present n ∧ g.Present left.node ∧ g.Present right.node := by
  obtain ⟨leftArc, rightArc, hnode, -, hleft, hright⟩ := h.gate hn
  exact ⟨⟨_, hnode⟩, present_iff_contains.2 (h.graph.endpoints hleft).1,
    present_iff_contains.2 (h.graph.endpoints hright).1⟩

theorem present_of_reads (h : Wired T pending g) (huv : T.Reads u v) :
    g.Present u ∧ g.Present v := by
  obtain ⟨left, right, hu⟩ := huv.exists_gate
  obtain ⟨hpresent, hleft, hright⟩ := h.present_of_gate hu
  refine ⟨hpresent, ?_⟩
  unfold GateTable.Reads at huv
  rw [GateTable.sources_of_some hu] at huv
  rcases List.mem_pair.1 huv with rfl | rfl
  · exact hleft
  · exact hright

theorem table_eq_none (h : Wired T pending g) (hn : ¬ g.Present n) : T n = none := by
  cases hT : T n with
  | none => rfl
  | some p => exact absurd (h.present_of_gate hT).1 hn

theorem table_eq_none_of_le (h : Wired T pending g) (hn : g.stores.counts.size ≤ n) :
    T n = none :=
  h.table_eq_none fun hpresent => by
    have hlt := h.lt_size hpresent
    omega

/-- A slot that holds no node has no parents. -/
theorem parents_eq_zero (h : Wired T pending g) (hn : ¬ g.Present n) :
    g.stores.counts.parents n = 0 := by
  have huses : T.uses g.stores.counts.size n = 0 := by
    apply Nat.eq_zero_of_not_pos
    intro hpos
    obtain ⟨u, -, hread⟩ := GateTable.uses_pos_iff.1 hpos
    exact hn (h.present_of_reads hread).2
  have hexports : g.exports n = 0 := by
    unfold exports
    rw [List.count_eq_zero, List.mem_map]
    rintro ⟨e, he, rfl⟩
    exact hn (h.outputs e (Array.mem_toList_iff.1 he))
  rw [h.counts n, huses, hexports]

theorem congr_pending {pending' : Nat → Prop} (h : Wired T pending g)
    (hpending : ∀ m, pending m ↔ pending' m) : Wired T pending' g := by
  rwa [← funext fun m => propext (hpending m)]

theorem of_inputs (h : Wired T pending g) (inputs : Nat) :
    Wired T pending { g with inputs := inputs } :=
  ⟨h.graph, h.const_iff, h.gate, h.listed, h.unlisted, h.arc, h.outputs, h.counts, h.lt_size,
    h.marks_size, h.bounded, h.generation_pos⟩

/-- Every operation that keeps the counts, and what is known of the marks, keeps the wiring. -/
theorem of_kept {stores : Stores} (h : Wired T pending g) (hkept : g.stores.Kept stores) :
    Wired T pending { g with stores := stores } := by
  have hcounts : stores.counts = g.stores.counts := hkept.counts_eq
  refine ⟨h.graph, h.const_iff, h.gate, h.listed, h.unlisted, h.arc, h.outputs, ?_, ?_, ?_,
    hkept.evolves.bounded h.bounded, hkept.evolves.generation_pos h.generation_pos⟩
  · dsimp only
    rw [hcounts]
    exact h.counts
  · dsimp only
    rw [hcounts]
    exact h.lt_size
  · dsimp only
    rw [hcounts, hkept.evolves.size_eq]
    exact h.marks_size

end Wired

section addNode
variable {node : StableNode}

/-- What adding a node does to the parts of the graph. -/
theorem addNode_eq (g : StableAig) (node : StableNode) :
    g.addNode node = ((g.graph.addVertex node).1,
      ⟨(g.graph.addVertex node).2, g.outputs, g.inputs,
        ⟨g.stores.counts.grow ((g.graph.addVertex node).1 + 1),
          (g.stores.marks.grow ((g.graph.addVertex node).1 + 1)).clear
            (g.graph.addVertex node).1⟩⟩) := rfl

theorem node?_addNode (h : g.graph.Sound) (node : StableNode) :
    g.node? (g.addNode node).1 = none ∧ ∀ m, (g.addNode node).2.node? m =
      if m = (g.addNode node).1 then some node else g.node? m :=
  ⟨Digraph.label?_addVertex_fst h node, Digraph.label?_addVertex h node⟩

theorem size_counts_addNode (g : StableAig) (node : StableNode) :
    (g.addNode node).2.stores.counts.size =
      max g.stores.counts.size ((g.addNode node).1 + 1) := by
  rw [addNode_eq]
  exact FanoutCounts.size_grow _ _

theorem parents_addNode (g : StableAig) (node : StableNode) (v : Nat) :
    (g.addNode node).2.stores.counts.parents v = g.stores.counts.parents v := by
  rw [addNode_eq]
  exact FanoutCounts.parents_grow _ _ _

theorem roomFor_addNode (g : StableAig) (node : StableNode) (nodes : List Nat) :
    (g.addNode node).2.stores.counts.RoomFor nodes ↔ g.stores.counts.RoomFor nodes := by
  simp only [FanoutCounts.RoomFor, parents_addNode]

theorem marks_addNode (g : StableAig) (node : StableNode) :
    (g.addNode node).2.stores.marks =
      (g.stores.marks.grow ((g.addNode node).1 + 1)).clear (g.addNode node).1 := by
  rw [addNode_eq]

theorem present_addNode (h : g.graph.Sound) (node : StableNode) (m : Nat) :
    (g.addNode node).2.Present m ↔ m = (g.addNode node).1 ∨ g.Present m := by
  unfold Present
  rw [(node?_addNode h node).2]
  split
  · rename_i hm
    simp [hm]
  · rename_i hm
    simp [hm]

/-- Adding an input, or a gate that is to be connected. -/
theorem Wired.addNode (h : Wired T pending g)
    (hnode : (∃ position, node = .input position) ∨ node = .unconnected) :
    Wired T (fun m => pending m ∨ (m = (g.addNode node).1 ∧ node = .unconnected))
      (g.addNode node).2 := by
  obtain ⟨hfresh, hnodes⟩ := node?_addNode h.graph node
  have hpresent := present_addNode h.graph node
  have hsize := size_counts_addNode g node
  have hvacant : ¬ g.Present (g.addNode node).1 := fun ⟨_, hx⟩ => by simp [hfresh] at hx
  have hold : ∀ {m x}, g.node? m = some x → (g.addNode node).2.node? m = some x := by
    intro m x hm
    have hne : m ≠ (g.addNode node).1 := by
      rintro rfl
      exact hvacant ⟨x, hm⟩
    rw [hnodes, if_neg hne, hm]
  have hnew : ∀ {m x}, (g.addNode node).2.node? m = some x → m ≠ (g.addNode node).1 →
      g.node? m = some x := by
    intro m x hm hne
    rwa [hnodes, if_neg hne] at hm
  refine ⟨h.graph.addVertex node, fun m => ?_, fun hT => ?_, fun {m _ _} hm => ?_, fun {m} hm => ?_,
    fun hx => ?_, fun e he => (hpresent _).2 (Or.inr (h.outputs e he)), fun v => ?_,
    fun {m} hm => ?_, ?_, ?_, ?_⟩
  · constructor
    · intro hm
      by_cases heq : m = (g.addNode node).1
      · rw [hnodes, if_pos heq, Option.some.injEq] at hm
        rcases hnode with ⟨position, rfl⟩ | rfl <;> cases hm
      · exact (h.const_iff m).1 (hnew hm heq)
    · intro hm
      exact hold ((h.const_iff m).2 hm)
  · obtain ⟨leftArc, rightArc, hn, hne, hleft, hright⟩ := h.gate hT
    exact ⟨leftArc, rightArc, hold hn, hne, hleft, hright⟩
  · by_cases heq : m = (g.addNode node).1
    · refine Or.inl (Or.inr ⟨heq, ?_⟩)
      rw [hnodes, if_pos heq, Option.some.injEq] at hm
      rcases hnode with ⟨position, rfl⟩ | hunconnected
      · cases hm
      · exact hunconnected
    · rcases h.listed (hnew hm heq) with hpending | hgate
      · exact Or.inl (Or.inl hpending)
      · exact Or.inr hgate
  · rcases hm with hm | ⟨rfl, rfl⟩
    · obtain ⟨hT, hn⟩ := h.unlisted hm
      exact ⟨hT, hold hn⟩
    · exact ⟨h.table_eq_none hvacant, by rw [hnodes, if_pos rfl]⟩
  · obtain ⟨left, right, leftArc, rightArc, hT, hn, hor⟩ := h.arc hx
    exact ⟨left, right, leftArc, rightArc, hT, hold hn, hor⟩
  · rw [parents_addNode, h.counts v, hsize]
    have huses := GateTable.uses_of_le (T := T) (v := v)
      (Nat.le_max_left g.stores.counts.size ((g.addNode node).1 + 1))
      fun u hu => h.table_eq_none_of_le hu
    rw [huses]
    rfl
  · rw [hsize]
    rcases (hpresent m).1 hm with rfl | hm
    · omega
    · have hlt := h.lt_size hm
      omega
  · rw [marks_addNode, Marks.size_clear, Marks.size_grow, hsize, h.marks_size]
  · rw [marks_addNode]
    exact (h.bounded.grow _).clear _
  · rw [marks_addNode]
    exact h.generation_pos

theorem Wired.addInput (h : Wired T pending g) : Wired T pending g.addInput.2 := by
  have hadd : Wired T pending (g.addNode (.input g.inputs)).2 :=
    (h.addNode (Or.inl ⟨g.inputs, rfl⟩)).congr_pending fun m => by simp [StableNode.unconnected]
  exact hadd.of_inputs _

end addNode

section connect
variable {arc : Nat}

/-- What connecting one fanin does: it adds a parent to the source and draws the arc. -/
theorem connectFanin_eq_ok (h : g.connectFanin n e = .ok (arc, g')) :
    ∃ before counts graph, g.stores.counts.increment e.node = .ok (before, counts) ∧
      g.graph.addArc e.node n e.complement = .ok (arc, graph) ∧
      g' = ⟨graph, g.outputs, g.inputs, ⟨counts, g.stores.marks⟩⟩ := by
  obtain ⟨graph, outputs, inputs, counts, marks⟩ := g
  obtain ⟨g₁, hconsume, h⟩ := bind_eq_ok_iff.1 h
  unfold consume at hconsume
  dsimp only at hconsume ⊢
  cases hinc : counts.increment e.node with
  | error fault => simp [hinc] at hconsume
  | ok result =>
    obtain ⟨before, counts'⟩ := result
    rw [hinc] at hconsume
    cases hconsume
    dsimp only at h
    cases hadd : graph.addArc e.node n e.complement with
    | error fault => simp [hadd] at h
    | ok result =>
      obtain ⟨arc', graph'⟩ := result
      rw [hadd] at h
      cases h
      exact ⟨before, counts', graph', rfl, rfl, rfl⟩

theorem exists_connectFanin (he : g.graph.contains e.node = true) (hn : g.graph.contains n = true)
    (hlt : e.node < g.stores.counts.size)
    (hroom : g.stores.counts.parents e.node < FanoutCounts.maxCount) :
    ∃ arc g', g.connectFanin n e = .ok (arc, g') := by
  obtain ⟨graph, outputs, inputs, counts, marks⟩ := g
  obtain ⟨counts', hinc⟩ := FanoutCounts.exists_increment hlt hroom
  obtain ⟨arc, graph', hadd⟩ := Digraph.exists_addArc he hn e.complement
  dsimp only at hinc hadd
  refine ⟨arc, ⟨graph', outputs, inputs, ⟨counts', marks⟩⟩, ?_⟩
  simp only [connectFanin, consume, hinc, ok_bind, hadd]

/-- What connecting a gate does: it draws two arcs, keeps their indices in the gate, and adds a
parent to the node of each fanin. -/
theorem connect_eq_ok (h : g.connect n left right = .ok g') :
    ∃ leftArc rightArc graph₁ graph₂ counts,
      g.graph.addArc left.node n left.complement = .ok (leftArc, graph₁) ∧
      graph₁.addArc right.node n right.complement = .ok (rightArc, graph₂) ∧
      g.stores.counts.incrementAll [left.node, right.node] = .ok counts ∧
      g' = ⟨graph₂.setLabel n (.and leftArc rightArc), g.outputs, g.inputs,
        ⟨counts, g.stores.marks⟩⟩ := by
  obtain ⟨⟨leftArc, g₁⟩, hleft, h⟩ := bind_eq_ok_iff.1 h
  obtain ⟨⟨rightArc, g₂⟩, hright, h⟩ := bind_eq_ok_iff.1 h
  obtain ⟨before₁, counts₁, graph₁, hinc₁, hadd₁, rfl⟩ := connectFanin_eq_ok hleft
  obtain ⟨before₂, counts₂, graph₂, hinc₂, hadd₂, rfl⟩ := connectFanin_eq_ok hright
  cases h
  refine ⟨leftArc, rightArc, graph₁, graph₂, counts₂, hadd₁, hadd₂, ?_, rfl⟩
  dsimp only at hinc₂
  rw [FanoutCounts.incrementAll_cons, hinc₁, map_ok, ok_bind, FanoutCounts.incrementAll_cons,
    hinc₂, map_ok, ok_bind]
  rfl

/-- What connecting gate `n` by two new arcs does to a graph. -/
structure Drawn (g : StableAig) (n : Nat) (left right : Edge) (leftArc rightArc : Nat)
    (g' : StableAig) : Prop where
  sound : g'.graph.Sound
  arc_ne : leftArc ≠ rightArc
  left_vacant : g.graph.arcs.get? leftArc = none
  right_vacant : g.graph.arcs.get? rightArc = none
  get?_eq : ∀ b, g'.graph.arcs.get? b =
    if b = rightArc then some ⟨right.node, n, right.complement⟩
    else if b = leftArc then some ⟨left.node, n, left.complement⟩
    else g.graph.arcs.get? b
  node?_eq : ∀ m, g'.node? m = if m = n then some (.and leftArc rightArc) else g.node? m
  outputs_eq : g'.outputs = g.outputs
  size_eq : g'.stores.counts.size = g.stores.counts.size
  parents_eq : ∀ v, g'.stores.counts.parents v =
    g.stores.counts.parents v + [left.node, right.node].count v
  marks_eq : g'.stores.marks = g.stores.marks

theorem drawn_of_connect (h : g.graph.Sound) (hn : g.Present n)
    (hconnect : g.connect n left right = .ok g') :
    ∃ leftArc rightArc, Drawn g n left right leftArc rightArc g' := by
  obtain ⟨leftArc, rightArc, graph₁, graph₂, counts, hadd₁, hadd₂, hcounts, rfl⟩ :=
    connect_eq_ok hconnect
  have hsound₁ := h.addArc hadd₁
  obtain ⟨hvacant₁, hget₁⟩ := Digraph.get?_addArc h hadd₁
  obtain ⟨hvacant₂, hget₂⟩ := Digraph.get?_addArc hsound₁ hadd₂
  obtain ⟨hsize, hparents⟩ := FanoutCounts.incrementAll_eq_ok hcounts
  have hne : leftArc ≠ rightArc := by
    rintro rfl
    rw [hget₁, if_pos rfl] at hvacant₂
    cases hvacant₂
  have hlabel : ∀ m, graph₂.label? m = g.graph.label? m := fun m =>
    (Digraph.label?_addArc hadd₂ m).trans (Digraph.label?_addArc hadd₁ m)
  refine ⟨leftArc, rightArc, (hsound₁.addArc hadd₂).setLabel n _, hne, hvacant₁, ?_, fun b => ?_,
    fun m => ?_, rfl, hsize, hparents, rfl⟩
  · rwa [hget₁, if_neg hne.symm] at hvacant₂
  · show graph₂.arcs.get? b = _
    rw [hget₂, hget₁]
  · show (graph₂.setLabel n (.and leftArc rightArc)).label? m = _
    obtain ⟨node, hnode⟩ := hn
    rw [Digraph.label?_setLabel, hlabel]
    by_cases hm : m = n
    · rw [if_pos hm.symm, if_pos hm, hm]
      show (g.node? n).map _ = _
      rw [hnode, Option.map_some]
    · rw [if_neg (Ne.symm hm), if_neg hm]
      rfl

/-- A pending gate can be connected to nodes that are present and can get more parents. -/
theorem Wired.exists_connect (h : Wired T pending g) (hn : pending n)
    (hleft : g.Present left.node) (hright : g.Present right.node)
    (hroom : g.stores.counts.RoomFor [left.node, right.node]) :
    ∃ g' leftArc rightArc, g.connect n left right = .ok g' ∧
      Drawn g n left right leftArc rightArc g' := by
  have hpresent : g.Present n := ⟨_, (h.unlisted hn).2⟩
  have hcontains := present_iff_contains.1 hpresent
  obtain ⟨leftArc, g₁, h₁⟩ := exists_connectFanin (present_iff_contains.1 hleft) hcontains
    (h.lt_size hleft) hroom.parents_lt
  obtain ⟨before, counts, graph, hinc, hadd, rfl⟩ := connectFanin_eq_ok h₁
  have hlabel := Digraph.label?_addArc hadd
  obtain ⟨rightArc, g₂, h₂⟩ := exists_connectFanin
    (g := ⟨graph, g.outputs, g.inputs, ⟨counts, g.stores.marks⟩⟩) (n := n) (e := right)
    (by rw [Digraph.contains_eq_of_label?_eq (hlabel _)]; exact present_iff_contains.1 hright)
    (by rw [Digraph.contains_eq_of_label?_eq (hlabel _)]; exact hcontains)
    (by rw [FanoutCounts.size_increment hinc]; exact h.lt_size hright)
    (hroom.increment hinc).parents_lt
  obtain ⟨g', hconnect⟩ : ∃ g', g.connect n left right = .ok g' :=
    ⟨_, by simp only [connect, h₁, h₂, ok_bind]; rfl⟩
  obtain ⟨leftArc, rightArc, hdrawn⟩ := drawn_of_connect h.graph hpresent hconnect
  exact ⟨g', leftArc, rightArc, hconnect, hdrawn⟩

namespace Drawn

variable {leftArc rightArc : Nat} (h : Drawn g n left right leftArc rightArc g')
include h

theorem present_iff (hn : g.Present n) (m : Nat) : g'.Present m ↔ g.Present m := by
  unfold Present
  rw [h.node?_eq]
  by_cases hm : m = n
  · subst hm
    rw [if_pos rfl]
    exact ⟨fun _ => hn, fun _ => ⟨_, rfl⟩⟩
  · rw [if_neg hm]

/-- Arcs that were there before stay. -/
theorem get?_of_get? {b : Nat} {x : Arc} (hb : g.graph.arcs.get? b = some x) :
    g'.graph.arcs.get? b = some x := by
  have hleft : b ≠ leftArc := by
    rintro rfl
    rw [h.left_vacant] at hb
    cases hb
  have hright : b ≠ rightArc := by
    rintro rfl
    rw [h.right_vacant] at hb
    cases hb
  rw [h.get?_eq, if_neg hright, if_neg hleft, hb]

/-- An arc is one of the two new ones, or it was there before. -/
theorem get?_cases {b : Nat} {x : Arc} (hb : g'.graph.arcs.get? b = some x) :
    (x.target = n ∧ (b = leftArc ∨ b = rightArc)) ∨ g.graph.arcs.get? b = some x := by
  rw [h.get?_eq] at hb
  by_cases hright : b = rightArc
  · rw [if_pos hright] at hb
    cases hb
    exact Or.inl ⟨rfl, Or.inr hright⟩
  · rw [if_neg hright] at hb
    by_cases hleft : b = leftArc
    · rw [if_pos hleft] at hb
      cases hb
      exact Or.inl ⟨rfl, Or.inl hleft⟩
    · rw [if_neg hleft] at hb
      exact Or.inr hb

theorem node?_self : g'.node? n = some (.and leftArc rightArc) := by
  rw [h.node?_eq, if_pos rfl]

theorem node?_of_ne {m : Nat} (hm : m ≠ n) : g'.node? m = g.node? m := by
  rw [h.node?_eq, if_neg hm]

/-- Drawing the arcs of a pending gate inserts it into the table. -/
theorem wired (hg : Wired T pending g) (hn : pending n) :
    Wired (T.insert n left right) (fun m => pending m ∧ m ≠ n) g' := by
  obtain ⟨hTn, hnode⟩ := hg.unlisted hn
  have hpresent := h.present_iff ⟨_, hnode⟩
  refine ⟨h.sound, fun m => ?_, fun {m _ _} hT => ?_, fun {m _ _} hm => ?_, fun {m} hm => ?_,
    fun {b x} hx => ?_, fun e he => ?_, fun v => ?_, fun {m} hm => ?_, ?_, ?_, ?_⟩
  · by_cases hm : m = n
    · subst hm
      have hzero : m ≠ 0 := by
        rintro rfl
        rw [(hg.const_iff 0).2 rfl] at hnode
        cases hnode
      rw [h.node?_self]
      simp [hzero]
    · rw [h.node?_of_ne hm]
      exact hg.const_iff m
  · by_cases hm : m = n
    · subst hm
      rw [GateTable.insert_self] at hT
      cases hT
      refine ⟨leftArc, rightArc, h.node?_self, h.arc_ne, ?_, ?_⟩
      · rw [h.get?_eq, if_neg h.arc_ne, if_pos rfl]
      · rw [h.get?_eq, if_pos rfl]
    · rw [GateTable.insert_of_ne hm] at hT
      obtain ⟨leftArc', rightArc', hm', hne', hleft, hright⟩ := hg.gate hT
      exact ⟨leftArc', rightArc', (h.node?_of_ne hm).trans hm', hne', h.get?_of_get? hleft,
        h.get?_of_get? hright⟩
  · by_cases heq : m = n
    · subst heq
      exact Or.inr ⟨left, right, GateTable.insert_self T m left right⟩
    · rcases hg.listed ((h.node?_of_ne heq).symm.trans hm) with hpending | ⟨l, r, hT⟩
      · exact Or.inl ⟨hpending, heq⟩
      · exact Or.inr ⟨l, r, (GateTable.insert_of_ne heq).trans hT⟩
  · obtain ⟨hT, hm'⟩ := hg.unlisted hm.1
    exact ⟨(GateTable.insert_of_ne hm.2).trans hT, (h.node?_of_ne hm.2).trans hm'⟩
  · rcases h.get?_cases hx with ⟨htarget, hor⟩ | hold
    · rw [htarget]
      exact ⟨left, right, leftArc, rightArc, GateTable.insert_self T n left right, h.node?_self,
        hor⟩
    · obtain ⟨l, r, leftArc', rightArc', hT, hm, hor⟩ := hg.arc hold
      have htarget : x.target ≠ n := by
        intro heq
        rw [heq, hTn] at hT
        cases hT
      exact ⟨l, r, leftArc', rightArc', (GateTable.insert_of_ne htarget).trans hT,
        (h.node?_of_ne htarget).trans hm, hor⟩
  · rw [h.outputs_eq] at he
    exact (hpresent _).2 (hg.outputs e he)
  · have hlt := hg.lt_size ⟨_, hnode⟩
    have huses : (T.insert n left right).uses g.stores.counts.size v =
        T.uses g.stores.counts.size v + [left.node, right.node].count v :=
      GateTable.uses_insert hTn hlt
    have hv := hg.counts v
    have hexports : g'.exports v = g.exports v := by
      unfold exports
      rw [h.outputs_eq]
    rw [h.parents_eq, h.size_eq, huses, hexports]
    omega
  · rw [h.size_eq]
    exact hg.lt_size ((hpresent m).1 hm)
  · rw [h.marks_eq, h.size_eq, hg.marks_size]
  · rw [h.marks_eq]
    exact hg.bounded
  · rw [h.marks_eq]
    exact hg.generation_pos

end Drawn

end connect

/-- What adding an output does: it adds a parent to the node and lists the edge last. -/
theorem addOutput_eq_ok {position : Nat} (h : g.addOutput e = .ok (position, g')) :
    ∃ before counts, g.stores.counts.increment e.node = .ok (before, counts) ∧
      g' = ⟨g.graph, g.outputs.push e, g.inputs, ⟨counts, g.stores.marks⟩⟩ := by
  obtain ⟨graph, outputs, inputs, counts, marks⟩ := g
  obtain ⟨g₁, hconsume, h⟩ := bind_eq_ok_iff.1 h
  unfold consume at hconsume
  dsimp only at hconsume ⊢
  cases hinc : counts.increment e.node with
  | error fault => simp [hinc] at hconsume
  | ok result =>
    obtain ⟨before, counts'⟩ := result
    rw [hinc] at hconsume
    cases hconsume
    cases h
    exact ⟨before, counts', rfl, rfl⟩

theorem Wired.exists_addOutput (h : Wired T pending g) (he : g.Present e.node)
    (hroom : g.stores.counts.parents e.node < FanoutCounts.maxCount) :
    ∃ position g', g.addOutput e = .ok (position, g') := by
  obtain ⟨counts, hinc⟩ := FanoutCounts.exists_increment (h.lt_size he) hroom
  exact ⟨_, _, by simp only [addOutput, consume, hinc, ok_bind]; rfl⟩

/-- Adding an output leaves the gates as they are. -/
theorem Wired.addOutput (h : Wired T pending g) (he : g.Present e.node) {position : Nat}
    (hadd : g.addOutput e = .ok (position, g')) : Wired T pending g' := by
  obtain ⟨before, counts, hinc, rfl⟩ := addOutput_eq_ok hadd
  have hsize := FanoutCounts.size_increment hinc
  have hexports : ∀ v, exports ⟨g.graph, g.outputs.push e, g.inputs, ⟨counts, g.stores.marks⟩⟩ v =
      g.exports v + if e.node = v then 1 else 0 := by
    intro v
    simp [exports, List.count_append, List.count_singleton]
  refine ⟨h.graph, h.const_iff, h.gate, h.listed, h.unlisted, h.arc, fun e' he' => ?_, fun v => ?_,
    fun hm => ?_, ?_, h.bounded, h.generation_pos⟩
  · rcases Array.mem_push.1 he' with hold | rfl
    · exact h.outputs e' hold
    · exact he
  · rw [hexports]
    show counts.parents v = T.uses counts.size v + _
    have hv := h.counts v
    rw [FanoutCounts.parents_increment hinc v, hsize]
    split <;> omega
  · show _ < counts.size
    rw [hsize]
    exact h.lt_size hm
  · show g.stores.marks.size = counts.size
    rw [hsize, h.marks_size]

section remove
variable {doomed : List Nat} {stores : Stores}

/-- The graph without some of its nodes, and with other stores. -/
def without (g : StableAig) (doomed : List Nat) (stores : Stores) : StableAig :=
  ⟨doomed.foldl Digraph.removeVertex g.graph, g.outputs, g.inputs, stores⟩

theorem node?_without (g : StableAig) (doomed : List Nat) (stores : Stores) (m : Nat) :
    (g.without doomed stores).node? m = if m ∈ doomed then none else g.node? m :=
  Digraph.label?_removeVertices g.graph doomed m

theorem present_without (g : StableAig) (doomed : List Nat) (stores : Stores) (m : Nat) :
    (g.without doomed stores).Present m ↔ m ∉ doomed ∧ g.Present m := by
  unfold Present
  rw [node?_without]
  split
  · rename_i hm
    simp [hm]
  · rename_i hm
    simp [hm]

theorem node?_without_eq_some {x : StableNode} :
    (g.without doomed stores).node? n = some x ↔ n ∉ doomed ∧ g.node? n = some x := by
  rw [node?_without]
  split
  · rename_i hn
    simp [hn]
  · rename_i hn
    simp [hn]

theorem get?_without_eq_some (h : g.graph.Sound) {b : Nat} {x : Arc} :
    (g.without doomed stores).graph.arcs.get? b = some x ↔
      g.graph.arcs.get? b = some x ∧ x.source ∉ doomed ∧ x.target ∉ doomed := by
  have hget : (g.without doomed stores).graph.arcs.get? b = _ :=
    Digraph.get?_removeVertices h doomed b
  rw [hget, Option.filter_eq_some_iff]
  simp only [Bool.and_eq_true, decide_eq_true_eq]

/-- Gates of which only each other are consumers, and no output. -/
structure Unneeded (T : GateTable) (g : StableAig) (doomed : List Nat) : Prop where
  gates : ∀ v ∈ doomed, ∃ left right, T v = some (left, right)
  consumers : ∀ v ∈ doomed, ∀ u, T.Reads u v → u ∈ doomed
  exports : ∀ v ∈ doomed, g.exports v = 0

namespace Unneeded

theorem not_mem_of_eq_none (h : Unneeded T g doomed) (hT : T n = none) : n ∉ doomed := by
  intro hmem
  obtain ⟨left, right, hgate⟩ := h.gates n hmem
  rw [hT] at hgate
  cases hgate

/-- The fanins of a gate that stays come from nodes that stay. -/
theorem fanins_stay (h : Unneeded T g doomed) (hn : n ∉ doomed) (hT : T n = some (left, right)) :
    left.node ∉ doomed ∧ right.node ∉ doomed := by
  have hsources := GateTable.sources_of_some hT
  have hstays : ∀ v, T.Reads n v → v ∉ doomed := fun v hread hmem =>
    hn (h.consumers v hmem n hread)
  constructor
  · apply hstays
    show left.node ∈ T.sources n
    rw [hsources]
    exact List.mem_cons_self
  · apply hstays
    show right.node ∈ T.sources n
    rw [hsources]
    exact List.mem_cons_of_mem _ List.mem_cons_self

theorem output_stays (h : Unneeded T g doomed) (he : e ∈ g.outputs) : e.node ∉ doomed := by
  intro hmem
  have hzero := h.exports e.node hmem
  unfold StableAig.exports at hzero
  rw [List.count_eq_zero] at hzero
  exact hzero (List.mem_map_of_mem (Array.mem_toList_iff.2 he))

end Unneeded

/-- Removing unneeded gates, and taking what they used off the counts, erases them from the
table. -/
theorem Wired.without (h : Wired T pending g) (hdoomed : Unneeded T g doomed)
    (hsize : stores.counts.size = g.stores.counts.size)
    (hcounts : ∀ v, stores.counts.parents v + ∑ u ∈ doomed.toFinset, (T.sources u).count v =
      g.stores.counts.parents v)
    (hmarks : g.stores.marks.Evolves stores.marks) :
    Wired (T.erase doomed) pending (g.without doomed stores) := by
  have hpresent := present_without g doomed stores
  refine ⟨h.graph.removeVertices doomed, fun m => ?_, fun {m left right} hT => ?_,
    fun {m _ _} hm => ?_, fun {m} hm => ?_, fun {b x} hx => ?_,
    fun e he => (hpresent _).2 ⟨hdoomed.output_stays he, h.outputs e he⟩, fun v => ?_,
    fun {m} hm => ?_, ?_, hmarks.bounded h.bounded, hmarks.generation_pos h.generation_pos⟩
  · rw [node?_without_eq_some, h.const_iff]
    apply and_iff_right_of_imp
    intro hzero hmem
    obtain ⟨left, right, hgate⟩ := hdoomed.gates m hmem
    obtain ⟨leftArc, rightArc, hnode, -⟩ := h.gate hgate
    rw [(h.const_iff m).2 hzero] at hnode
    cases hnode
  · have hnot : m ∉ doomed := by
      intro hmem
      rw [GateTable.erase_of_mem hmem] at hT
      cases hT
    rw [GateTable.erase_of_not_mem hnot] at hT
    obtain ⟨leftArc, rightArc, hm, hne, hleft, hright⟩ := h.gate hT
    obtain ⟨hleft', hright'⟩ := hdoomed.fanins_stay hnot hT
    exact ⟨leftArc, rightArc, node?_without_eq_some.2 ⟨hnot, hm⟩, hne,
      (get?_without_eq_some h.graph).2 ⟨hleft, hleft', hnot⟩,
      (get?_without_eq_some h.graph).2 ⟨hright, hright', hnot⟩⟩
  · obtain ⟨hnot, hm⟩ := node?_without_eq_some.1 hm
    rw [GateTable.erase_of_not_mem hnot]
    exact h.listed hm
  · obtain ⟨hT, hm⟩ := h.unlisted hm
    have hnot := hdoomed.not_mem_of_eq_none hT
    exact ⟨(GateTable.erase_of_not_mem hnot).trans hT, node?_without_eq_some.2 ⟨hnot, hm⟩⟩
  · obtain ⟨hx, -, hnot⟩ := (get?_without_eq_some h.graph).1 hx
    obtain ⟨left, right, leftArc, rightArc, hT, hnode, hor⟩ := h.arc hx
    exact ⟨left, right, leftArc, rightArc, (GateTable.erase_of_not_mem hnot).trans hT,
      node?_without_eq_some.2 ⟨hnot, hnode⟩, hor⟩
  · have hlt : ∀ u ∈ doomed, u < g.stores.counts.size := by
      intro u hu
      obtain ⟨left, right, hT⟩ := hdoomed.gates u hu
      exact h.lt_size (h.present_of_gate hT).1
    have huses := GateTable.uses_erase (T := T) (v := v) hlt
    have hv := h.counts v
    have hv' := hcounts v
    show stores.counts.parents v = (T.erase doomed).uses stores.counts.size v + g.exports v
    rw [hsize]
    omega
  · show m < stores.counts.size
    rw [hsize]
    exact h.lt_size ((hpresent m).1 hm).2
  · show stores.marks.size = stores.counts.size
    rw [hsize, hmarks.size_eq, h.marks_size]

end remove

end FanoutCone.StableAig
