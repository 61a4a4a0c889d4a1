import FanoutCone.Proofs.AigRuns
import FanoutCone.Proofs.StableNetwork

/-!
# Copies on stable indices

A copy goes through the nodes twice. First every node takes the next slot, the
gates still without fanins: no slot was ever freed, so the slot of a node is its
index. Then the gates are connected in index order, and at any time those
connected are the ones below the current index. At last the outputs and the next
states become outputs. No step fails on a graph whose edges come from its nodes.
-/
namespace FanoutCone.StableAig

variable {aig : Aig} {nodes : Array AigNode} {node : AigNode} {g : StableAig} {k n : Nat}

def IsGate (nodes : Array AigNode) (n : Nat) : Prop :=
  ∃ left right, Aig.gatesOf nodes n = some (left, right)

theorem isGate_iff_of_getElem? (h : nodes[n]? = some node) :
    IsGate nodes n ↔ node.isAnd = true := by
  unfold IsGate
  simp only [Aig.gatesOf_eq_some_iff, h, Option.some.injEq]
  cases node <;> simp [AigNode.isAnd]

/-- No slot was ever freed, so the first `k` slots hold the nodes, one each. -/
structure Packed (k : Nat) (g : StableAig) : Prop where
  free_eq_nil : g.graph.vertices.free = []
  slots_size : g.graph.vertices.slots.size = k
  counts_size : g.stores.counts.size = k
  present_iff : ∀ n, g.Present n ↔ n < k

theorem packed_empty : Packed 1 empty := by
  refine ⟨rfl, rfl, rfl, fun n => ?_⟩
  have hpresent := present_addNode (g := ⟨.empty, #[], 0, .empty⟩) Digraph.sound_empty .const n
  have hold : ¬ Present ⟨.empty, #[], 0, .empty⟩ n := by
    rintro ⟨x, hx⟩
    cases hx.symm.trans (Digraph.label?_empty n)
  change Present empty n ↔ n = 0 ∨ _ at hpresent
  rw [hpresent]
  constructor
  · rintro (hn | hn)
    · omega
    · exact absurd hn hold
  · intro hn
    exact Or.inl (by omega)

namespace Packed

variable {left right e : Edge} {g' : StableAig}

/-- A new node takes the next slot. -/
theorem addNode (h : Packed k g) (hsound : g.graph.Sound) (label : StableNode) :
    (g.addNode label).1 = k ∧ Packed (k + 1) (g.addNode label).2 := by
  obtain ⟨hfst, hfree, hsize⟩ :=
    SlotArena.insert_of_free_eq_nil h.free_eq_nil (⟨label, [], []⟩ : Vertex StableNode)
  rw [h.slots_size] at hfst hsize
  have hnew : (g.addNode label).1 = k := hfst
  refine ⟨hnew, hfree, hsize, ?_, fun n => ?_⟩
  · rw [size_counts_addNode, hnew, h.counts_size]
    omega
  · rw [present_addNode hsound, hnew, h.present_iff]
    omega

/-- Connecting a gate takes no slot of a node. -/
theorem connect (h : Packed k g) (hsound : g.graph.Sound) (hn : g.Present n)
    (hconnect : g.connect n left right = .ok g') : Packed k g' := by
  obtain ⟨leftArc, rightArc, hdrawn⟩ := drawn_of_connect hsound hn hconnect
  obtain ⟨leftArc', rightArc', graph₁, graph₂, counts, hadd₁, hadd₂, -, rfl⟩ :=
    connect_eq_ok hconnect
  obtain ⟨-, -, -, hvertices₁⟩ := Digraph.addArc_eq_ok hadd₁
  obtain ⟨-, -, -, hvertices₂⟩ := Digraph.addArc_eq_ok hadd₂
  refine ⟨?_, ?_, hdrawn.size_eq.trans h.counts_size,
    fun m => (hdrawn.present_iff hn m).trans (h.present_iff m)⟩
  · show graph₂.vertices.free = []
    rw [hvertices₂, hvertices₁]
    exact h.free_eq_nil
  · show (graph₂.vertices.modify _ _).slots.size = k
    rw [SlotArena.size_modify, hvertices₂, SlotArena.size_modify, SlotArena.size_modify,
      hvertices₁, SlotArena.size_modify, SlotArena.size_modify, h.slots_size]

theorem addOutput (h : Packed k g) {position : Nat} (hadd : g.addOutput e = .ok (position, g')) :
    Packed k g' := by
  obtain ⟨before, counts, hinc, rfl⟩ := addOutput_eq_ok hadd
  exact ⟨h.free_eq_nil, h.slots_size, (FanoutCounts.size_increment hinc).trans h.counts_size,
    h.present_iff⟩

end Packed

/-- The nodes below `k` were copied, each to the slot of its index, and no gate is connected. -/
structure Copied (nodes : Array AigNode) (k : Nat) (g : StableAig) : Prop where
  wired : Wired .empty (fun n => n < k ∧ IsGate nodes n) g
  packed : Packed k g
  outputs_eq : g.outputs = #[]

theorem copied_empty (h : nodes[0]? = some .const) : Copied nodes 1 empty := by
  have hgate : ¬ IsGate nodes 0 := by
    rw [isGate_iff_of_getElem? h]
    exact Bool.false_ne_true
  refine ⟨complete_empty.congr_pending fun m => ?_, packed_empty, rfl⟩
  rw [false_iff]
  rintro ⟨hlt, hm⟩
  obtain rfl : m = 0 := by omega
  exact hgate hm

namespace Copied

/-- The next node takes the next slot. -/
theorem addNode (h : Copied nodes k g) {label : StableNode}
    (hlabel : (∃ position, label = .input position) ∨ label = .unconnected)
    (hgate : label = .unconnected ↔ IsGate nodes k) :
    Copied nodes (k + 1) (g.addNode label).2 := by
  obtain ⟨hnew, hpacked⟩ := h.packed.addNode h.wired.graph label
  refine ⟨(h.wired.addNode hlabel).congr_pending fun m => ?_, hpacked, h.outputs_eq⟩
  rw [hnew, hgate]
  constructor
  · rintro (⟨hlt, hm⟩ | ⟨rfl, hm⟩)
    · exact ⟨by omega, hm⟩
    · exact ⟨by omega, hm⟩
  · rintro ⟨hlt, hm⟩
    by_cases hmk : m = k
    · exact Or.inr ⟨hmk, hmk ▸ hm⟩
    · exact Or.inl ⟨by omega, hm⟩

theorem addAigNode (h : Copied nodes k g) (hnode : nodes[k]? = some node) (hconst : node ≠ .const) :
    ∃ g', g.addAigNode k node = .ok g' ∧ Copied nodes (k + 1) g' := by
  have hgate := isGate_iff_of_getElem? hnode
  have hinput : node.isAnd = false → Copied nodes (k + 1) g.addInput.2 := by
    intro hand
    have hadd : Copied nodes (k + 1) (g.addNode (.input g.inputs)).2 :=
      h.addNode (Or.inl ⟨_, rfl⟩) (by rw [hgate, hand]; simp [StableNode.unconnected])
    obtain ⟨hfree, hslots, hcounts, hpresent⟩ := hadd.packed
    exact ⟨hadd.wired.of_inputs _, ⟨hfree, hslots, hcounts, hpresent⟩, hadd.outputs_eq⟩
  cases node with
  | const => exact absurd rfl hconst
  | input position => exact ⟨_, rfl, hinput rfl⟩
  | latch position => exact ⟨_, rfl, hinput rfl⟩
  | and left right =>
    exact ⟨_, rfl, h.addNode (Or.inr rfl) ⟨fun _ => hgate.2 rfl, fun _ => rfl⟩⟩

end Copied

/-- The gates below `k` are connected, and those from `k` on are pending. -/
structure Connected (nodes : Array AigNode) (k : Nat) (g : StableAig) : Prop where
  wired : Wired ((Aig.gatesOf nodes).below k) (fun n => k ≤ n ∧ IsGate nodes n) g
  packed : Packed nodes.size g
  outputs_eq : g.outputs = #[]

theorem IsGate.lt_size (h : IsGate nodes n) : n < nodes.size := by
  obtain ⟨left, right, hn⟩ := h
  rw [Aig.gatesOf_eq_some_iff] at hn
  exact (Array.getElem?_eq_some_iff.1 hn).1

theorem gatesOf_eq_none_of_le (h : nodes.size ≤ n) : Aig.gatesOf nodes n = none := by
  rw [Aig.gatesOf, Array.getElem?_eq_none h]

theorem Copied.connected (h : Copied nodes nodes.size g) : Connected nodes 0 g := by
  refine ⟨?_, h.packed, h.outputs_eq⟩
  rw [GateTable.below_zero]
  exact h.wired.congr_pending fun m =>
    ⟨fun hm => ⟨Nat.zero_le m, hm.2⟩, fun hm => ⟨hm.2.lt_size, hm.2⟩⟩

/-- Where no gate stands, there is nothing to connect. -/
theorem Connected.skip (h : Connected nodes k g) (hgate : ¬ IsGate nodes k) :
    Connected nodes (k + 1) g := by
  have hnone : Aig.gatesOf nodes k = none := by
    cases hk : Aig.gatesOf nodes k with
    | none => rfl
    | some p => exact absurd ⟨p.1, p.2, hk⟩ hgate
  refine ⟨?_, h.packed, h.outputs_eq⟩
  rw [GateTable.below_succ_of_none hnone]
  refine h.wired.congr_pending fun m => and_congr_left fun hm => ?_
  have hne : m ≠ k := by
    rintro rfl
    exact hgate hm
  omega

/-- There is room for the fanins of the gate at `k`, as there is for those of all gates. -/
theorem Connected.roomFor (h : Connected nodes k g) {left right : Edge}
    (hk : Aig.gatesOf nodes k = some (left, right))
    (hfew : ∀ v, (Aig.gatesOf nodes).uses nodes.size v ≤ FanoutCounts.maxCount) :
    g.stores.counts.RoomFor [left.node, right.node] := by
  have hgate : IsGate nodes k := ⟨left, right, hk⟩
  intro v _
  have hexports : g.exports v = 0 := by simp [exports, h.outputs_eq]
  have hinsert : (((Aig.gatesOf nodes).below k).insert k left right).uses nodes.size v = _ + _ :=
    GateTable.uses_insert (h.wired.unlisted ⟨Nat.le_refl k, hgate⟩).1 hgate.lt_size
  have hle := (Aig.gatesOf nodes).uses_below_le (k + 1) nodes.size v
  rw [GateTable.below_succ_of_some hk, hinsert] at hle
  rw [h.wired.counts v, h.packed.counts_size, hexports]
  exact hle.trans (hfew v)

/-- The gate at `k` is connected to nodes that were copied. -/
theorem Connected.connectAigNode (h : Connected nodes k g) (hnode : nodes[k]? = some node)
    (hfanins : ∀ e ∈ node.fanins, e.node < nodes.size)
    (hfew : ∀ v, (Aig.gatesOf nodes).uses nodes.size v ≤ FanoutCounts.maxCount) :
    ∃ g', g.connectAigNode k node = .ok g' ∧ Connected nodes (k + 1) g' := by
  have hgate := isGate_iff_of_getElem? hnode
  cases node with
  | const | input position | latch position =>
    exact ⟨g, rfl, h.skip (by rw [hgate]; exact Bool.false_ne_true)⟩
  | and left right =>
    have hk := Aig.gatesOf_eq_some_iff.2 hnode
    have hpending : k ≤ k ∧ IsGate nodes k := ⟨Nat.le_refl k, hgate.2 rfl⟩
    have hleft := (h.packed.present_iff left.node).2 (hfanins left (by simp [AigNode.fanins]))
    have hright := (h.packed.present_iff right.node).2 (hfanins right (by simp [AigNode.fanins]))
    have hpresent : g.Present k := ⟨_, (h.wired.unlisted hpending).2⟩
    obtain ⟨g', leftArc, rightArc, hconnect, hdrawn⟩ :=
      h.wired.exists_connect hpending hleft hright (h.roomFor hk hfew)
    refine ⟨g', hconnect, ?_, h.packed.connect h.wired.graph hpresent hconnect,
      hdrawn.outputs_eq.trans h.outputs_eq⟩
    rw [GateTable.below_succ_of_some hk]
    apply (hdrawn.wired h.wired hpending).congr_pending
    intro m
    constructor
    · rintro ⟨⟨hle, hm⟩, hne⟩
      exact ⟨by omega, hm⟩
    · rintro ⟨hle, hm⟩
      exact ⟨⟨by omega, hm⟩, by omega⟩

theorem Connected.complete (h : Connected nodes nodes.size g) : Complete (Aig.gatesOf nodes) g := by
  have hwired := h.wired
  rw [GateTable.below_eq_self fun n hn => gatesOf_eq_none_of_le hn] at hwired
  apply hwired.congr_pending
  intro m
  rw [iff_false]
  rintro ⟨hle, hm⟩
  have hlt := hm.lt_size
  omega

/-- Outputs that name nodes present can be added, and are listed in order. -/
theorem exists_addOutputs {T : GateTable} (edges : List Edge) (h : Complete T g)
    (hpacked : Packed k g) (hlt : ∀ e ∈ edges, e.node < k)
    (hroom : g.stores.counts.RoomFor (edges.map Edge.node)) :
    ∃ g', edges.foldlM (fun g e => (addOutput g e).map Prod.snd) g = .ok g' ∧ Complete T g' ∧
      Packed k g' ∧ g'.outputs.toList = g.outputs.toList ++ edges := by
  induction edges generalizing g with
  | nil => exact ⟨g, rfl, h, hpacked, (List.append_nil _).symm⟩
  | cons e edges ih =>
    have hpresent := (hpacked.present_iff e.node).2 (hlt e List.mem_cons_self)
    obtain ⟨position, g₁, hadd⟩ := h.exists_addOutput hpresent hroom.parents_lt
    have hcomplete₁ := h.addOutput hpresent hadd
    have hpacked₁ := hpacked.addOutput hadd
    obtain ⟨before, counts, hinc, rfl⟩ := addOutput_eq_ok hadd
    obtain ⟨g', hrest, hcomplete, hpacked', houtputs⟩ := ih hcomplete₁ hpacked₁
      (fun e' he' => hlt e' (List.mem_cons_of_mem e he')) (hroom.increment hinc)
    refine ⟨g', ?_, hcomplete, hpacked', ?_⟩
    · rw [List.foldlM_cons, hadd]
      exact hrest
    · rw [houtputs, Array.toList_push, List.append_assoc]
      rfl

/-- How a copy stands to its original: the same gates at the same indices, every node in its slot,
and the next states of latches after the outputs. -/
structure Copies (aig : Aig) (g : StableAig) : Prop where
  complete : Complete (Aig.gatesOf aig.nodes) g
  packed : Packed aig.nodes.size g
  outputs_eq : g.outputs.toList = aig.outputs.toList ++ aig.latches.toList.map Latch.next

section
variable (h : aig.Shaped) (hfew : ∀ v, aig.demand v ≤ FanoutCounts.maxCount)
include h

/-- Every node but the constant, which is there already, is added. -/
theorem exists_copied :
    ∃ g, (aig.nodes.toList.zipIdx.drop 1).foldlM (fun g (node, n) => addAigNode g n node) empty =
      .ok g ∧ Copied aig.nodes aig.nodes.size g := by
  have hfirst : aig.nodes[0]? = some .const := (h.const_iff 0).2 rfl
  obtain ⟨rest, hrest⟩ : ∃ rest, aig.nodes.toList = .const :: rest := by
    cases hlist : aig.nodes.toList with
    | nil => simp [← Array.getElem?_toList, hlist] at hfirst
    | cons node rest =>
      rw [← Array.getElem?_toList, hlist] at hfirst
      cases hfirst
      exact ⟨rest, rfl⟩
  have hsize : 1 + rest.length = aig.nodes.size := by
    rw [← Array.length_toList, hrest, List.length_cons, Nat.add_comm]
  have hget : ∀ i, aig.nodes[1 + i]? = rest[i]? := by
    intro i
    rw [← Array.getElem?_toList, hrest, Nat.add_comm, List.getElem?_cons_succ]
  obtain ⟨g, hadd, hcopied⟩ := exists_foldlM_zipIdx (I := Copied aig.nodes)
    (f := fun g (node, n) => addAigNode g n node) (copied_empty hfirst) fun i node g hi hg => by
      rw [← hget] at hi
      apply hg.addAigNode hi
      intro hconst
      subst hconst
      have hzero := (h.const_iff (1 + i)).1 hi
      omega
  rw [hsize] at hcopied
  rw [hrest]
  exact ⟨g, hadd, hcopied⟩

include hfew

theorem exists_connected (hg : Copied aig.nodes aig.nodes.size g) :
    ∃ g', aig.nodes.toList.zipIdx.foldlM (fun g (node, n) => connectAigNode g n node) g = .ok g' ∧
      Connected aig.nodes aig.nodes.size g' := by
  have hgates : ∀ v, (Aig.gatesOf aig.nodes).uses aig.nodes.size v ≤ FanoutCounts.maxCount := by
    intro v
    have hv := hfew v
    rw [Aig.demand_eq, Aig.gateDemand_eq_uses] at hv
    exact Nat.le_of_add_right_le hv
  obtain ⟨g', hconnect, hconnected⟩ := exists_foldlM_zipIdx (I := Connected aig.nodes)
    (f := fun g (node, n) => connectAigNode g n node) (l := aig.nodes.toList) hg.connected
    fun i node g hi hg => by
      rw [Array.getElem?_toList, ← Nat.zero_add i] at hi
      have hmem := Array.mem_of_getElem? hi
      exact hg.connectAigNode hi
        (fun e he => h.consumers e (Aig.mem_consumers.2 (Or.inl ⟨node, hmem, he⟩))) hgates
  rw [Array.length_toList, Nat.zero_add] at hconnected
  exact ⟨g', hconnect, hconnected⟩

theorem exists_exported (hg : Connected aig.nodes aig.nodes.size g) :
    ∃ g', (aig.outputs.toList ++ aig.latches.toList.map Latch.next).foldlM
        (fun g e => (addOutput g e).map Prod.snd) g = .ok g' ∧ Copies aig g' := by
  have hlt : ∀ e ∈ aig.outputs.toList ++ aig.latches.toList.map Latch.next,
      e.node < aig.nodes.size := by
    intro e he
    refine h.consumers e (Aig.mem_consumers.2 (Or.inr ?_))
    rcases List.mem_append.1 he with he | he
    · exact Or.inr (Array.mem_toList_iff.1 he)
    · obtain ⟨latch, hlatch, rfl⟩ := List.mem_map.1 he
      exact Or.inl ⟨latch, Array.mem_toList_iff.1 hlatch, rfl⟩
  have hroom : g.stores.counts.RoomFor
      ((aig.outputs.toList ++ aig.latches.toList.map Latch.next).map Edge.node) := by
    intro v _
    have hexports : g.exports v = 0 := by simp [exports, hg.outputs_eq]
    have hv := hfew v
    rw [Aig.demand_eq, Aig.gateDemand_eq_uses, Aig.exports] at hv
    rw [hg.complete.counts v, hg.packed.counts_size, hexports, List.map_append, List.count_append]
    omega
  obtain ⟨g', hexport, hcomplete, hpacked, houtputs⟩ :=
    exists_addOutputs _ hg.complete hg.packed hlt hroom
  rw [hg.outputs_eq] at houtputs
  exact ⟨g', hexport, hcomplete, hpacked, houtputs⟩

end

/-- A graph whose counts are right can be copied. -/
theorem exists_ofAig (h : aig.Sound) : ∃ g, ofAig aig = .ok g ∧ Copies aig g := by
  obtain ⟨g₁, hadd, hcopied⟩ := exists_copied h.shaped
  obtain ⟨g₂, hconnect, hconnected⟩ := exists_connected h.shaped h.demand_le hcopied
  obtain ⟨g, hexport, hcopies⟩ := exists_exported h.shaped h.demand_le hconnected
  refine ⟨g, ?_, hcopies⟩
  unfold ofAig
  dsimp only
  rw [hadd, ok_bind, hconnect, ok_bind]
  exact hexport

end FanoutCone.StableAig
