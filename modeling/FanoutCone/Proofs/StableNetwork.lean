import FanoutCone.Proofs.MaximumCone
import FanoutCone.Proofs.Wiring

/-!
# The network of a wired graph

When no gate is pending, the network of a wired graph is its gate table: a gate
has the two fanins of its row, and no other node has any. So the network is
closed, its counts are consistent with the outputs as further parents, and it is
acyclic when the table is.
-/
namespace FanoutCone.StableAig

/-- How many fanin edges of the nodes present come from a node. -/
def readings (g : StableAig) (n : Nat) : Nat :=
  (g.graph.vertexIndices.flatMap (g.network.sources .all)).count n

/-- What ties a stable graph without pending gates to its gate table. -/
abbrev Complete (T : GateTable) (g : StableAig) : Prop := Wired T (fun _ => False) g

variable {T : GateTable} {g : StableAig} {n u v : Nat} {left right : Edge}

/-- The graph that holds only the constant holds no gates. -/
theorem complete_empty : Complete .empty .empty := by
  have hsound : (Digraph.empty : Digraph StableNode).Sound := Digraph.sound_empty
  have hnode : ∀ m, StableAig.empty.node? m = if m = 0 then some .const else none := by
    intro m
    exact (Digraph.label?_addVertex hsound .const m).trans (by rw [Digraph.label?_empty]; rfl)
  have hnot : ∀ {m leftArc rightArc},
      ¬ StableAig.empty.node? m = some (.and leftArc rightArc) := by
    intro m leftArc rightArc hm
    rw [hnode] at hm
    split at hm <;> cases hm
  refine ⟨hsound.addVertex .const, fun m => ?_, fun hT => (nomatch hT),
    fun hm => absurd hm hnot, fun hm => hm.elim, fun {b x} hx => ?_, fun e he => ?_, fun v => ?_,
    fun {m} hm => ?_, rfl, ?_, Nat.one_pos⟩
  · rw [hnode]
    by_cases hm : m = 0 <;> simp [hm]
  · change SlotArena.empty.get? b = some x at hx
    simp at hx
  · simp [StableAig.empty, addNode_eq] at he
  · rw [GateTable.uses_empty]
    have hzero : StableAig.empty.stores.counts.parents v = FanoutCounts.empty.parents v :=
      FanoutCounts.parents_grow _ _ _
    rw [hzero]
    rfl
  · obtain ⟨x, hx⟩ := hm
    rw [hnode] at hx
    split at hx
    · rename_i hm
      rw [hm]
      exact Nat.one_pos
    · cases hx
  · exact (Marks.bounded_empty.grow _).clear _

namespace Wired

theorem edgeOf?_left (h : Complete T g) (hT : T n = some (left, right)) :
    ∃ leftArc rightArc, g.node? n = some (.and leftArc rightArc) ∧
      edgeOf? g.graph leftArc = some left ∧ edgeOf? g.graph rightArc = some right := by
  obtain ⟨leftArc, rightArc, hn, -, hleft, hright⟩ := h.gate hT
  exact ⟨leftArc, rightArc, hn, by rw [edgeOf?, hleft]; rfl, by rw [edgeOf?, hright]; rfl⟩

/-- The site of a gate holds the fanins of its row. -/
theorem site?_of_gate (h : Complete T g) (hT : T n = some (left, right)) :
    g.network.site? n = some ⟨.internal, [some left, some right]⟩ := by
  obtain ⟨leftArc, rightArc, hn, hleft, hright⟩ := h.edgeOf?_left hT
  show (g.node? n).map _ = _
  rw [hn, Option.map_some]
  simp only [StableNode.kind, StableNode.fanins, List.map_cons, List.map_nil, hleft, hright]

/-- The site of a node that is no gate holds no fanins. -/
theorem site?_of_not_gate (h : Complete T g) (hT : T n = none) {site : Site}
    (hsite : g.network.site? n = some site) : site.fanins = [] := by
  obtain ⟨node, hn, rfl⟩ := Option.map_eq_some_iff.1 hsite
  cases node with
  | const => rfl
  | input position => rfl
  | and leftArc rightArc =>
    rcases h.listed hn with hpending | ⟨left, right, hgate⟩
    · exact hpending.elim
    · rw [hT] at hgate
      cases hgate

theorem present_iff (g : StableAig) (n : Nat) : g.network.Present n ↔ g.Present n := by
  constructor
  · rintro ⟨site, hsite⟩
    obtain ⟨node, hn, -⟩ := Option.map_eq_some_iff.1 hsite
    exact ⟨node, hn⟩
  · rintro ⟨node, hn⟩
    refine ⟨⟨node.kind, node.fanins.map (edgeOf? g.graph)⟩, ?_⟩
    show (g.node? n).map _ = _
    rw [hn]
    rfl

theorem sources_eq (h : Complete T g) (n : Nat) : g.network.sources .all n = T.sources n := by
  cases hT : T n with
  | some p =>
    obtain ⟨left, right⟩ := p
    rw [GateTable.sources_of_some hT, Network.sources_of_internal (h.site?_of_gate hT) rfl]
    rfl
  | none =>
    rw [GateTable.sources_of_none hT, List.eq_nil_iff_forall_not_mem]
    intro v hv
    obtain ⟨site, hsite, hkind⟩ := Network.internal_of_mem_sources hv
    rw [Network.sources_of_internal hsite hkind, h.site?_of_not_gate hT hsite] at hv
    cases hv

theorem reads_iff (h : Complete T g) : g.network.Reads u v ↔ T.Reads u v := by
  unfold Network.Reads GateTable.Reads
  rw [h.sources_eq]

theorem uses_eq (h : Complete T g) (bound v : Nat) :
    g.network.uses .all (Multiset.range bound) v = T.uses bound v := by
  rw [Network.uses_range_eq_sum, GateTable.uses]
  apply Finset.sum_congr rfl
  intro u _
  rw [h.sources_eq]

theorem acyclic (h : Complete T g) (hT : T.Acyclic) : g.network.Acyclic := fun v hv =>
  hT v (Relation.TransGen.mono (fun _ _ => h.reads_iff.1) v v hv)

theorem closed (h : Complete T g) : g.network.Closed g.stores.counts.size := by
  refine ⟨fun {m site} hsite => h.lt_size ((present_iff g m).1 ⟨site, hsite⟩),
    fun {m site fanin} hsite hfanin => ?_⟩
  cases hT : T m with
  | some p =>
    obtain ⟨left, right⟩ := p
    obtain ⟨-, hleft, hright⟩ := h.present_of_gate hT
    rw [h.site?_of_gate hT] at hsite
    cases hsite
    rcases List.mem_pair.1 hfanin with rfl | rfl
    · exact ⟨left, rfl, (present_iff g _).2 hleft⟩
    · exact ⟨right, rfl, (present_iff g _).2 hright⟩
  | none =>
    rw [h.site?_of_not_gate hT hsite] at hfanin
    cases hfanin

theorem closed_marks (h : Complete T g) : g.network.Closed g.stores.marks.size := by
  rw [h.marks_size]
  exact h.closed

/-- Each node has its fanin edges and its outputs as parents, and no others. -/
theorem consistent (h : Complete T g) : g.network.Consistent g.stores.counts g.exports := by
  intro v _
  rw [h.uses_eq]
  exact h.counts v

/-- The count of a node is the number of fanins of nodes present and of outputs that name it. -/
theorem parents_eq (h : Complete T g) (v : Nat) :
    g.stores.counts.parents v = g.readings v + g.exports v := by
  have hsub : g.graph.vertexIndices.toFinset ⊆ Finset.range g.stores.counts.size := by
    intro u hu
    exact Finset.mem_range.2 (h.lt_size (Digraph.mem_vertexIndices.1 (List.mem_toFinset.1 hu)))
  have hreadings : g.readings v = g.network.uses .all g.graph.vertexIndices v := by
    rw [readings, Network.uses, Multiset.coe_bind, Multiset.coe_count]
  rw [h.counts, ← h.uses_eq, hreadings, Network.uses_range_eq_sum,
    Network.uses_eq_sum g.graph.nodup_vertexIndices]
  congr 1
  refine (Finset.sum_subset hsub fun u _ hu => ?_).symm
  rw [List.count_eq_zero]
  intro hv
  obtain ⟨site, hsite, -⟩ := Network.internal_of_mem_sources hv
  exact hu (List.mem_toFinset.2 (Digraph.mem_vertexIndices.2 ((present_iff g u).1 ⟨site, hsite⟩)))

/-- Reading a fanin of a gate gives the edge of its row. -/
theorem fanin_eq (h : Complete T g) (hT : T n = some (left, right)) :
    g.fanin n 0 = .ok left ∧ g.fanin n 1 = .ok right := by
  obtain ⟨leftArc, rightArc, hn, hleft, hright⟩ := h.edgeOf?_left hT
  constructor
  · simp [fanin, hn, hleft, resolveFanin]
  · simp [fanin, hn, hright, resolveFanin]

theorem internal_of_gate (h : Complete T g) (hT : T n = some (left, right)) :
    g.network.Internal n :=
  ⟨_, h.site?_of_gate hT, rfl⟩

/-- An internal node other than the constant is a gate. -/
theorem gate_of_internal (h : Complete T g) (hn : g.network.Internal n) (hzero : n ≠ 0) :
    ∃ left right, T n = some (left, right) := by
  obtain ⟨site, hsite, hkind⟩ := hn
  obtain ⟨node, hn, rfl⟩ := Option.map_eq_some_iff.1 hsite
  cases node with
  | const => exact absurd ((h.const_iff n).1 hn) hzero
  | input position => cases hkind
  | and leftArc rightArc => exact (h.listed hn).resolve_left id

end Wired

end FanoutCone.StableAig
