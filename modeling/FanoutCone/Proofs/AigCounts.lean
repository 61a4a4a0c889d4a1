import FanoutCone.Proofs.AigShape
import FanoutCone.Proofs.MaximumCone

/-!
# Counts of and-inverter graphs

Building an operation's edges into a graph moves the counts first and the edges
after, so in between the counts are ahead of the structure. `Ahead` lists by how
much: consuming an edge adds its source to the list, and storing the edge takes
it off again. At rest nothing is ahead, and each node has as many parents as
there are consumers of it.

A recount finds the same numbers, and so does the engine, which sees the fanins
of gates as uses and all other consumers as parents from outside. That makes
every query on nodes of the graph return.
-/
namespace FanoutCone

namespace Aig

variable {aig aig' : Aig} {node : AigNode} {e : Edge} {v : Nat} {ahead : List Nat}

/-- How many consumers name a node. -/
def demand (aig : Aig) (v : Nat) : Nat := (aig.consumers.map Edge.node).count v

/-- How many fanins of gates come from a node. -/
def gateDemand (nodes : Array AigNode) (v : Nat) : Nat :=
  ((nodes.toList.flatMap AigNode.fanins).map Edge.node).count v

/-- How many next states and outputs come from a node. -/
def exports (aig : Aig) (v : Nat) : Nat :=
  ((aig.latches.toList.map Latch.next).map Edge.node).count v +
    (aig.outputs.toList.map Edge.node).count v

theorem demand_eq (aig : Aig) (v : Nat) :
    aig.demand v = gateDemand aig.nodes v + aig.exports v := by
  simp only [demand, consumers, gateDemand, exports, List.map_append, List.count_append]
  omega

theorem gateDemand_push (nodes : Array AigNode) (node : AigNode) (v : Nat) :
    gateDemand (nodes.push node) v =
      gateDemand nodes v + (node.fanins.map Edge.node).count v := by
  simp only [gateDemand, Array.toList_push, List.flatMap_append, List.flatMap_cons,
    List.flatMap_nil, List.append_nil, List.map_append, List.count_append]

/-- What an element that is replaced contributes goes, and what the new one contributes comes. -/
theorem count_flatMap_set {α : Type} {l : List α} {i : Nat} {old : α} (h : l[i]? = some old)
    (new : α) (f : α → List Nat) (v : Nat) :
    ((l.set i new).flatMap f).count v + (f old).count v =
      (l.flatMap f).count v + (f new).count v := by
  induction l generalizing i with
  | nil => simp at h
  | cons x l ih =>
    cases i with
    | zero =>
      obtain rfl : x = old := by simpa using h
      simp only [List.set_cons_zero, List.flatMap_cons, List.count_append]
      omega
    | succ i =>
      have hrest := ih h
      simp only [List.set_cons_succ, List.flatMap_cons, List.count_append]
      omega

theorem exists_consume (h : e.node < aig.stores.counts.size)
    (hlt : aig.stores.counts.parents e.node < FanoutCounts.maxCount) :
    ∃ aig', aig.consume e = .ok aig' := by
  obtain ⟨nodes, inputs, latches, outputs, names, outputNames, counts, marks⟩ := aig
  obtain ⟨counts', hinc⟩ := FanoutCounts.exists_increment h hlt
  exact ⟨⟨nodes, inputs, latches, outputs, names, outputNames, counts', marks⟩,
    by simp [consume, hinc]⟩

/-- The counts, less the nodes that they are ahead by, are the numbers of consumers. -/
def Ahead (aig : Aig) (ahead : List Nat) : Prop :=
  ∀ v, aig.stores.counts.parents v = aig.demand v + ahead.count v

namespace Ahead

theorem consume (h : aig.Ahead ahead) (hconsume : aig.consume e = .ok aig') :
    aig'.Ahead (e.node :: ahead) := by
  obtain ⟨before, counts, hinc, rfl⟩ := consume_eq_ok hconsume
  intro v
  show counts.parents v = aig.demand v + _
  have hv := h v
  rw [FanoutCounts.parents_increment hinc v, List.count_cons]
  simp only [beq_iff_eq]
  split <;> omega

theorem release (h : aig.Ahead (e.node :: ahead)) (hrelease : aig.release e = .ok aig') :
    aig'.Ahead ahead := by
  obtain ⟨after, counts, hdec, rfl⟩ := release_eq_ok hrelease
  intro v
  show counts.parents v = aig.demand v + _
  have hv := h v
  rw [List.count_cons] at hv
  rw [FanoutCounts.parents_decrement hdec v]
  simp only [beq_iff_eq] at hv
  split <;> rename_i hnode
  · rw [if_pos hnode] at hv
    omega
  · rw [if_neg hnode] at hv
    omega

/-- A node that the counts are ahead by has a parent to give. -/
theorem exists_release (h : aig.Ahead (e.node :: ahead)) : ∃ aig', aig.release e = .ok aig' := by
  have hpos : 0 < aig.stores.counts.parents e.node := by
    rw [h e.node, List.count_cons_self]
    omega
  have hlt : e.node < aig.stores.counts.size := by
    apply Nat.lt_of_not_le
    intro hle
    rw [FanoutCounts.parents_eq_zero_of_le hle] at hpos
    omega
  obtain ⟨nodes, inputs, latches, outputs, names, outputNames, counts, marks⟩ := aig
  obtain ⟨counts', hdec⟩ := FanoutCounts.exists_decrement hlt hpos
  exact ⟨⟨nodes, inputs, latches, outputs, names, outputNames, counts', marks⟩,
    by simp [Aig.release, hdec]⟩

/-- Adding a node uses up what its fanins were ahead by. -/
theorem addNode (h : aig.Ahead ahead) (hfanins : (node.fanins.map Edge.node).Perm ahead) :
    (aig.addNode node).2.Ahead [] := by
  intro v
  show (aig.stores.counts.grow _).parents v = (aig.addNode node).2.demand v + _
  have hdemand : (aig.addNode node).2.demand v = gateDemand (aig.nodes.push node) v +
      aig.exports v := demand_eq _ v
  rw [FanoutCounts.parents_grow, h v, hdemand, gateDemand_push, hfanins.count_eq, demand_eq,
    List.count_nil]
  omega

theorem addLatch (h : aig.Ahead [e.node]) (n : Nat) :
    Ahead { aig with latches := aig.latches.push ⟨n, e⟩ } [] := by
  intro v
  have hv := h v
  rw [demand_eq, exports] at hv ⊢
  simp only [Array.toList_push, List.map_append, List.map_cons, List.map_nil, List.count_append,
    List.count_nil] at hv ⊢
  omega

/-- A new next state uses up what it was ahead by, and leaves the old one in excess. -/
theorem setLatch {position : Nat} {latch : Latch} (h : aig.Ahead [e.node])
    (hlatch : aig.latches[position]? = some latch) :
    Ahead { aig with latches := aig.latches.setIfInBounds position { latch with next := e } }
      [latch.next.node] := by
  have hold : aig.latches.toList[position]? = some latch := by
    rwa [Array.getElem?_toList]
  have hmap : ∀ latches : List Latch,
      (latches.map Latch.next).map Edge.node = latches.flatMap fun l => [l.next.node] := by
    intro latches
    rw [List.map_map, ← List.flatMap_pure_eq_map]
    rfl
  intro v
  have hv := h v
  have hset := count_flatMap_set hold { latch with next := e } (fun l => [l.next.node]) v
  rw [demand_eq, exports, hmap] at hv ⊢
  simp only [Array.toList_setIfInBounds]
  dsimp only at hset
  omega

theorem addOutput (h : aig.Ahead [e.node]) :
    Ahead { aig with outputs := aig.outputs.push e } [] := by
  intro v
  have hv := h v
  rw [demand_eq, exports] at hv ⊢
  simp only [Array.toList_push, List.map_append, List.map_cons, List.map_nil, List.count_append,
    List.count_nil] at hv ⊢
  omega

end Ahead

/-- An audit passes where counting anew gives the stored counts, and nowhere else. -/
theorem auditCounts_eq_ok_iff :
    aig.auditCounts = .ok () ↔ aig.recount = .ok aig.stores.counts := by
  rw [auditCounts]
  cases aig.recount with
  | error fault => simp
  | ok expected =>
    simp only [mapError_ok, ok_bind, Except.ok.injEq]
    split
    · rename_i n hfind
      refine iff_of_false nofun ?_
      rintro rfl
      simpa using List.find?_some hfind
    · rename_i hfind
      rw [List.find?_eq_none] at hfind
      split
      · rename_i hsize
        refine iff_of_true rfl (FanoutCounts.ext_parents hsize fun v => ?_)
        by_cases hv : v < expected.size
        · simpa using hfind v (List.mem_range.2 (by rwa [← hsize, Nat.min_self]))
        · have hle := Nat.not_lt.1 hv
          rw [FanoutCounts.parents_eq_zero_of_le hle,
            FanoutCounts.parents_eq_zero_of_le (hsize ▸ hle)]
      · rename_i hsize
        refine iff_of_false nofun ?_
        rintro rfl
        exact hsize rfl

/-- Where nothing is ahead, counting anew gives the stored counts. -/
theorem recount_of_ahead (h : aig.Ahead []) (hshaped : aig.Shaped) :
    aig.recount = .ok aig.stores.counts := by
  have hdemand : ∀ v, aig.stores.counts.parents v = aig.demand v := h
  have hgrow : (FanoutCounts.empty.grow aig.nodes.size).size = aig.nodes.size := by simp
  have hlt : ∀ n ∈ aig.consumers.map Edge.node,
      n < (FanoutCounts.empty.grow aig.nodes.size).size := by
    rw [hgrow]
    intro n hn
    obtain ⟨e, he, rfl⟩ := List.mem_map.1 hn
    exact hshaped.consumers e he
  have hzero : ∀ v, (FanoutCounts.empty.grow aig.nodes.size).parents v = 0 := fun v =>
    FanoutCounts.parents_grow _ _ _
  have hroom : (FanoutCounts.empty.grow aig.nodes.size).RoomFor (aig.consumers.map Edge.node) := by
    intro v _
    rw [hzero, Nat.zero_add]
    exact (hdemand v).symm.trans_le (FanoutCounts.parents_le _ v)
  obtain ⟨expected, hall⟩ := FanoutCounts.exists_incrementAll hlt hroom
  obtain ⟨hsize, hparents⟩ := FanoutCounts.incrementAll_eq_ok hall
  rw [recount, hall, Except.ok.injEq]
  refine FanoutCounts.ext_parents ?_ fun v => ?_
  · rw [hsize, hgrow, hshaped.counts_size]
  · rw [hparents v, hzero, Nat.zero_add, hdemand v]
    rfl

/-- The fanins of gates are the uses that the gate table counts. -/
theorem gateDemand_eq_uses (nodes : Array AigNode) (v : Nat) :
    gateDemand nodes v = (gatesOf nodes).uses nodes.size v := by
  induction hlist : nodes.toList using List.reverseRecOn generalizing nodes with
  | nil =>
    obtain rfl : nodes = #[] := Array.toList_eq_nil_iff.1 hlist
    rfl
  | append_singleton front node ih =>
    obtain rfl : nodes = front.toArray.push node := Array.toList_inj.1 (by simpa using hlist)
    have hnone : ∀ u, front.toArray.size ≤ u → gatesOf front.toArray u = none := fun u hu => by
      rw [gatesOf, Array.getElem?_eq_none hu]
    have hgrow := GateTable.uses_of_le (v := v) (Nat.le_succ front.toArray.size) hnone
    rw [gateDemand_push, ih front.toArray rfl, Array.size_push, ← hgrow]
    cases node with
    | const | input position | latch position =>
      rw [gatesOf_push_of_not_and _ rfl]
      rfl
    | and left right =>
      rw [gatesOf_push_and, GateTable.uses_insert (hnone _ (Nat.le_refl _)) (Nat.lt_succ_self _)]
      rfl

theorem sources_network (aig : Aig) (n : Nat) :
    aig.network.sources .all n = (gatesOf aig.nodes).sources n := by
  rw [CycleSearch.sources_gatesOf]
  cases hn : aig.nodes[n]? with
  | none => simp [Network.sources, network, networkOf, CycleSearch.faninNodes, hn]
  | some node =>
    cases node <;> simp [Network.sources, network, networkOf, CycleSearch.faninNodes, hn,
      AigNode.site, Site.ofEdges, AigNode.kind, AigNode.fanins]

theorem acyclic_network (h : (gatesOf aig.nodes).Acyclic) : aig.network.Acyclic := by
  intro v hv
  refine h v (Relation.TransGen.mono (fun u w hread => ?_) v v hv)
  unfold Network.Reads at hread
  rwa [sources_network] at hread

/-- Each node has its fanin edges, next states and outputs as parents, and no others. -/
theorem Ahead.consistent (h : aig.Ahead []) (hsize : aig.stores.counts.size = aig.nodes.size) :
    aig.network.Consistent aig.stores.counts aig.exports := by
  intro v _
  rw [h v, List.count_nil, Nat.add_zero, demand_eq, gateDemand_eq_uses, hsize,
    Network.uses_range_eq_sum, GateTable.uses]
  simp only [sources_network]

end Aig

/-- Where the counts account for an acyclic network, every query on nodes of the network returns. -/
theorem ConeQuery.exists_run_of_accounted (q : ConeQuery) {net : Network} {root : Nat} {s : Stores}
    (haccounted : net.Accounted s.counts) (hcounts : net.Closed s.counts.size)
    (hmarks : net.Closed s.marks.size) (hacyclic : net.Acyclic) (hroot : net.Present root)
    (hleaves : ∀ v ∈ q.leaves, v < s.counts.size) (hroom : s.counts.RoomFor q.leaves) :
    ∃ a s', q.run net root s = .ok (a, s') ∧ s.Kept s' := by
  obtain ⟨raised, hraised⟩ := FanoutCounts.exists_incrementAll hleaves hroom
  obtain ⟨hsize, hparents⟩ := FanoutCounts.incrementAll_eq_ok hraised
  have haccounted' : net.Accounted raised := by
    intro v
    rw [hsize, hparents]
    exact Nat.le_add_right_of_le (haccounted v)
  obtain ⟨t, hwalk⟩ := exists_walk_of_accounted haccounted' (by rwa [hsize]) hacyclic hroot
    q.walk.filter q.walk.traversal
  exact q.exists_run hcounts hmarks hroot hraised hwalk

end FanoutCone
