import FanoutCone.Aiger.Load
import FanoutCone.Proofs.CycleReports
import FanoutCone.Proofs.Queries

/-!
# Reachable and-inverter graphs

An and-inverter graph comes from the empty one or from a text, and from then on
grows by one node, edge or name at a time, with queries in between. At every
step its edges come from nodes that exist, its gates form no cycle, and node 0
is the only constant: a gate that is added reads older nodes only, and a text
whose gates form a cycle is not loaded.
-/
namespace FanoutCone

namespace Aig

variable {aig aig' : Aig} {node : AigNode} {left right e : Edge} {nodes : Array AigNode} {n : Nat}

theorem gatesOf_push_and (nodes : Array AigNode) (left right : Edge) :
    gatesOf (nodes.push (.and left right)) = (gatesOf nodes).insert nodes.size left right := by
  funext n
  by_cases hn : n = nodes.size
  · rw [hn, GateTable.insert_self, gatesOf_eq_some_iff, Array.getElem?_push, if_pos rfl]
  · rw [GateTable.insert_of_ne hn, gatesOf, gatesOf, Array.getElem?_push, if_neg hn]

theorem gatesOf_push_of_not_and (nodes : Array AigNode) (h : node.fanins = []) :
    gatesOf (nodes.push node) = gatesOf nodes := by
  funext n
  rw [gatesOf, gatesOf, Array.getElem?_push]
  by_cases hn : n = nodes.size
  · rw [if_pos hn, hn, Array.getElem?_eq_none (Nat.le_refl _)]
    cases node with
    | const => rfl
    | input position => rfl
    | latch position => rfl
    | and left right => cases h
  · rw [if_neg hn]

/-- What building keeps. -/
structure Shaped (aig : Aig) : Prop where
  const_iff : ∀ n : Nat, aig.nodes[n]? = some .const ↔ n = 0
  /-- Every edge comes from a node that exists. -/
  consumers : ∀ e ∈ aig.consumers, e.node < aig.nodes.size
  acyclic : (gatesOf aig.nodes).Acyclic
  counts_size : aig.stores.counts.size = aig.nodes.size
  marks_size : aig.stores.marks.size = aig.nodes.size

theorem mem_consumers :
    e ∈ aig.consumers ↔ (∃ node ∈ aig.nodes, e ∈ node.fanins) ∨
      (∃ latch ∈ aig.latches, latch.next = e) ∨ e ∈ aig.outputs := by
  simp [consumers]

theorem mem_ands :
    n ∈ aig.ands ↔ ∃ left right, aig.nodes[n]? = some (.and left right) := by
  simp only [ands, List.mem_filter, List.mem_range]
  constructor
  · rintro ⟨-, hand⟩
    cases hn : aig.nodes[n]? with
    | none => simp [hn] at hand
    | some node => cases node <;> simp [hn, AigNode.isAnd] at hand ⊢
  · rintro ⟨left, right, hn⟩
    exact ⟨(Array.getElem?_eq_some_iff.1 hn).1, by simp [hn, AigNode.isAnd]⟩

namespace Shaped

theorem size_pos (h : Shaped aig) : 0 < aig.nodes.size :=
  (Array.getElem?_eq_some_iff.1 ((h.const_iff 0).2 rfl)).1

theorem lt_of_gate (h : Shaped aig) (hn : gatesOf aig.nodes n = some (left, right)) :
    n < aig.nodes.size ∧ left.node < aig.nodes.size ∧ right.node < aig.nodes.size := by
  rw [gatesOf_eq_some_iff] at hn
  have hmem := Array.mem_of_getElem? hn
  refine ⟨(Array.getElem?_eq_some_iff.1 hn).1, ?_, ?_⟩
  · exact h.consumers left (mem_consumers.2 (Or.inl ⟨_, hmem, by simp [AigNode.fanins]⟩))
  · exact h.consumers right (mem_consumers.2 (Or.inl ⟨_, hmem, by simp [AigNode.fanins]⟩))

/-- Changes that leave the nodes alone and add no edge from a node that does not exist. -/
theorem of_nodes_eq (h : Shaped aig) (hnodes : aig'.nodes = aig.nodes)
    (hcounts : aig'.stores.counts.size = aig.stores.counts.size)
    (hmarks : aig'.stores.marks.size = aig.stores.marks.size)
    (hconsumers : ∀ e ∈ aig'.consumers, e ∈ aig.consumers ∨ e.node < aig.nodes.size) :
    Shaped aig' := by
  refine ⟨?_, fun e he => ?_, ?_, ?_, ?_⟩
  · rw [hnodes]
    exact h.const_iff
  · rw [hnodes]
    rcases hconsumers e he with hold | hlt
    · exact h.consumers e hold
    · exact hlt
  · rw [hnodes]
    exact h.acyclic
  · rw [hnodes, hcounts, h.counts_size]
  · rw [hnodes, hmarks, h.marks_size]

end Shaped

theorem consume_eq_ok (h : aig.consume e = .ok aig') :
    ∃ before counts, aig.stores.counts.increment e.node = .ok (before, counts) ∧
      aig' = { aig with stores := ⟨counts, aig.stores.marks⟩ } := by
  obtain ⟨nodes, inputs, latches, outputs, names, outputNames, counts, marks⟩ := aig
  unfold consume at h
  dsimp only at h ⊢
  cases hinc : counts.increment e.node with
  | error fault => simp [hinc] at h
  | ok result =>
    obtain ⟨before, counts'⟩ := result
    rw [hinc] at h
    cases h
    exact ⟨before, counts', rfl, rfl⟩

theorem release_eq_ok (h : aig.release e = .ok aig') :
    ∃ after counts, aig.stores.counts.decrement e.node = .ok (after, counts) ∧
      aig' = { aig with stores := ⟨counts, aig.stores.marks⟩ } := by
  obtain ⟨nodes, inputs, latches, outputs, names, outputNames, counts, marks⟩ := aig
  unfold release at h
  dsimp only at h ⊢
  cases hdec : counts.decrement e.node with
  | error fault => simp [hdec] at h
  | ok result =>
    obtain ⟨after, counts'⟩ := result
    rw [hdec] at h
    cases h
    exact ⟨after, counts', rfl, rfl⟩

theorem addLatch_eq_ok (h : aig.addLatch = .ok (e, aig')) :
    ∃ aig₁, (aig.addNode (.latch aig.latches.size)).2.consume zero = .ok aig₁ ∧
      aig' = { aig₁ with latches := aig₁.latches.push ⟨aig.nodes.size, zero⟩ } := by
  obtain ⟨aig₁, hconsume, h⟩ := bind_eq_ok_iff.1 h
  cases h
  exact ⟨aig₁, hconsume, rfl⟩

theorem setNextState_eq_ok {position : Nat} (h : aig.setNextState position e = .ok aig') :
    ∃ aig₁ latch, aig.consume e = .ok aig₁ ∧ aig₁.latches[position]? = some latch ∧
      release { aig₁ with
        latches := aig₁.latches.setIfInBounds position { latch with next := e } } latch.next =
          .ok aig' := by
  obtain ⟨aig₁, hconsume, h⟩ := bind_eq_ok_iff.1 h
  cases hlatch : aig₁.latches[position]? with
  | none => simp [hlatch] at h
  | some latch =>
    rw [hlatch] at h
    exact ⟨aig₁, latch, hconsume, hlatch, h⟩

theorem addAnd_eq_ok (h : aig.addAnd left right = .ok (e, aig')) :
    ∃ aig₁ aig₂, aig.consume left = .ok aig₁ ∧ aig₁.consume right = .ok aig₂ ∧
      e = .ofNode aig₂.nodes.size ∧ aig' = (aig₂.addNode (.and left right)).2 := by
  obtain ⟨aig₁, hleft, h⟩ := bind_eq_ok_iff.1 h
  obtain ⟨aig₂, hright, h⟩ := bind_eq_ok_iff.1 h
  cases h
  exact ⟨aig₁, aig₂, hleft, hright, rfl, rfl⟩

theorem addOutput_eq_ok {position : Nat} (h : aig.addOutput e = .ok (position, aig')) :
    ∃ aig₁, aig.consume e = .ok aig₁ ∧
      aig' = { aig₁ with outputs := aig₁.outputs.push e } := by
  obtain ⟨aig₁, hconsume, h⟩ := bind_eq_ok_iff.1 h
  cases h
  exact ⟨aig₁, hconsume, rfl⟩

theorem shaped_empty : Shaped empty := by
  refine ⟨fun n => ?_, fun e he => ?_, ?_, rfl, rfl⟩
  · show (#[AigNode.const])[n]? = _ ↔ _
    cases n <;> simp
  · change e ∈ ([] : List Edge) at he
    cases he
  · show (gatesOf (#[].push .const)).Acyclic
    rw [gatesOf_push_of_not_and _ rfl]
    exact GateTable.acyclic_empty

namespace Shaped

/-- A gate that is added depends on older nodes, and none of them depends on it. -/
theorem acyclic_push (h : Shaped aig) (hnode : node ≠ .const)
    (hfanins : ∀ e ∈ node.fanins, e.node < aig.nodes.size) :
    (gatesOf (aig.nodes.push node)).Acyclic := by
  cases node with
  | const => exact absurd rfl hnode
  | input position | latch position =>
    rw [gatesOf_push_of_not_and _ rfl]
    exact h.acyclic
  | and left right =>
    rw [gatesOf_push_and]
    have hleft := hfanins left (by simp [AigNode.fanins])
    have hright := hfanins right (by simp [AigNode.fanins])
    refine h.acyclic.insert (fun u hu => ?_) (by omega) (by omega)
    obtain ⟨l, r, hgate⟩ := hu.exists_gate
    obtain ⟨-, hl, hr⟩ := h.lt_of_gate hgate
    unfold GateTable.Reads at hu
    rw [GateTable.sources_of_some hgate] at hu
    rcases List.mem_pair.1 hu with hu | hu <;> omega

/-- Adding a node whose fanins come from older nodes. -/
theorem addNode (h : Shaped aig) (hnode : node ≠ .const)
    (hfanins : ∀ e ∈ node.fanins, e.node < aig.nodes.size) : Shaped (aig.addNode node).2 := by
  show Shaped { aig with
    nodes := aig.nodes.push node, stores := aig.stores.grow (aig.nodes.size + 1) }
  have hpos := h.size_pos
  refine ⟨fun n => ?_, fun e he => ?_, h.acyclic_push hnode hfanins, ?_, ?_⟩
  · dsimp only
    rw [Array.getElem?_push]
    by_cases hn : n = aig.nodes.size
    · rw [if_pos hn, Option.some.injEq]
      exact ⟨fun heq => absurd heq hnode, fun hzero => by omega⟩
    · rw [if_neg hn]
      exact h.const_iff n
  · dsimp only
    rw [Array.size_push]
    rcases mem_consumers.1 he with ⟨x, hx, hfanin⟩ | hold
    · rcases Array.mem_push.1 hx with hx | rfl
      · exact Nat.lt_succ_of_lt (h.consumers e (mem_consumers.2 (Or.inl ⟨x, hx, hfanin⟩)))
      · exact Nat.lt_succ_of_lt (hfanins e hfanin)
    · exact Nat.lt_succ_of_lt (h.consumers e (mem_consumers.2 (Or.inr hold)))
  · dsimp only
    show (aig.stores.counts.grow _).size = _
    rw [FanoutCounts.size_grow, h.counts_size, Array.size_push]
    omega
  · dsimp only
    show (aig.stores.marks.grow _).size = _
    rw [Marks.size_grow, h.marks_size, Array.size_push]
    omega

theorem consume (h : Shaped aig) (hconsume : aig.consume e = .ok aig') :
    e.node < aig.nodes.size ∧ aig'.nodes = aig.nodes ∧ aig'.consumers = aig.consumers ∧
      Shaped aig' := by
  obtain ⟨before, counts, hinc, rfl⟩ := consume_eq_ok hconsume
  have hlt : e.node < aig.stores.counts.size := (FanoutCounts.increment_eq_ok_iff.1 hinc).1
  have hsize : counts.size = aig.stores.counts.size := FanoutCounts.size_increment hinc
  rw [h.counts_size] at hlt
  exact ⟨hlt, rfl, rfl, h.of_nodes_eq rfl hsize rfl fun e he => Or.inl he⟩

theorem addInput (h : Shaped aig) : Shaped aig.addInput.2 :=
  (h.addNode AigNode.noConfusion (fun _ he => absurd he List.not_mem_nil)).of_nodes_eq rfl rfl rfl
    fun _ he => Or.inl he

theorem addLatch (h : Shaped aig) (hadd : aig.addLatch = .ok (e, aig')) : Shaped aig' := by
  obtain ⟨aig₁, hconsume, rfl⟩ := addLatch_eq_ok hadd
  have hnode : Shaped (aig.addNode (.latch aig.latches.size)).2 :=
    h.addNode AigNode.noConfusion fun _ he => absurd he List.not_mem_nil
  obtain ⟨hlt, hnodes, -, h₁⟩ := hnode.consume hconsume
  refine h₁.of_nodes_eq rfl rfl rfl fun e he => ?_
  rcases mem_consumers.1 he with hold | ⟨latch, hmem, rfl⟩ | hold
  · exact Or.inl (mem_consumers.2 (Or.inl hold))
  · rcases Array.mem_push.1 hmem with hmem | rfl
    · exact Or.inl (mem_consumers.2 (Or.inr (Or.inl ⟨latch, hmem, rfl⟩)))
    · exact Or.inr h₁.size_pos
  · exact Or.inl (mem_consumers.2 (Or.inr (Or.inr hold)))

theorem setNextState (h : Shaped aig) {position : Nat}
    (hset : aig.setNextState position e = .ok aig') : Shaped aig' := by
  obtain ⟨aig₁, latch, hconsume, hlatch, hrelease⟩ := setNextState_eq_ok hset
  obtain ⟨hlt, hnodes, hconsumers, h₁⟩ := h.consume hconsume
  obtain ⟨after, counts, hdec, rfl⟩ := release_eq_ok hrelease
  refine h₁.of_nodes_eq rfl (FanoutCounts.size_decrement hdec) rfl fun e' he' => ?_
  rcases mem_consumers.1 he' with hold | ⟨latch', hmem, rfl⟩ | hold
  · exact Or.inl (mem_consumers.2 (Or.inl hold))
  · rcases Array.mem_or_eq_of_mem_setIfInBounds hmem with hmem | rfl
    · exact Or.inl (mem_consumers.2 (Or.inr (Or.inl ⟨latch', hmem, rfl⟩)))
    · rw [← hnodes] at hlt
      exact Or.inr hlt
  · exact Or.inl (mem_consumers.2 (Or.inr (Or.inr hold)))

theorem addAnd (h : Shaped aig) (hadd : aig.addAnd left right = .ok (e, aig')) :
    Shaped aig' := by
  obtain ⟨aig₁, aig₂, hleft, hright, -, rfl⟩ := addAnd_eq_ok hadd
  obtain ⟨hleft, hnodes₁, -, h₁⟩ := h.consume hleft
  obtain ⟨hright, hnodes₂, -, h₂⟩ := h₁.consume hright
  apply h₂.addNode AigNode.noConfusion
  intro e he
  rw [hnodes₂]
  rcases List.mem_pair.1 he with rfl | rfl
  · rwa [hnodes₁]
  · exact hright

theorem addOutput (h : Shaped aig) {position : Nat}
    (hadd : aig.addOutput e = .ok (position, aig')) : Shaped aig' := by
  obtain ⟨aig₁, hconsume, rfl⟩ := addOutput_eq_ok hadd
  obtain ⟨hlt, hnodes, -, h₁⟩ := h.consume hconsume
  refine h₁.of_nodes_eq rfl rfl rfl fun e' he' => ?_
  rcases mem_consumers.1 he' with hold | hold | hmem
  · exact Or.inl (mem_consumers.2 (Or.inl hold))
  · exact Or.inl (mem_consumers.2 (Or.inr (Or.inl hold)))
  · rcases Array.mem_push.1 hmem with hmem | rfl
    · exact Or.inl (mem_consumers.2 (Or.inr (Or.inr hmem)))
    · rw [hnodes]
      exact Or.inr hlt

theorem setName (h : Shaped aig) (n : Nat) (name : String) : Shaped (aig.setName n name) :=
  h.of_nodes_eq rfl rfl rfl fun _ he => Or.inl he

end Shaped

end Aig

namespace Aiger

namespace Draft

variable {d d' : Draft} {var : Nat} {node : AigNode}

/-- Variable 0 is the constant, and no other variable is. -/
def OneConstant (d : Draft) : Prop := ∀ n : Nat, d.slots[n]? = some (some .const) ↔ n = 0

theorem oneConstant_start (maximum : Nat) : (start maximum).OneConstant := by
  intro n
  rw [start, Array.getElem?_setIfInBounds, Array.getElem?_replicate, Array.size_replicate]
  by_cases hn : n = 0
  · simp [hn]
  · rw [if_neg (Ne.symm hn)]
    split <;> simp [hn]

theorem OneConstant.define (h : d.OneConstant) (hnode : node ≠ .const)
    (hdefine : d.define var node = .ok d') : d'.OneConstant := by
  obtain ⟨slots, inputs, latches, outputs, symbols⟩ := d
  unfold Draft.define at hdefine
  dsimp only at hdefine
  split at hdefine
  · rename_i hvar
    cases hdefine
    intro n
    rw [Array.getElem?_setIfInBounds]
    by_cases hn : var = n
    · subst hn
      have hzero : var ≠ 0 := by
        intro hzero
        have hconst := (h var).2 hzero
        dsimp only at hconst
        rw [hvar] at hconst
        cases hconst
      rw [if_pos rfl]
      split <;> simp [hnode, hzero]
    · rw [if_neg hn]
      exact h n
  · cases hdefine
  · cases hdefine

theorem OneConstant.take (h : d.OneConstant) {record : Record}
    (htake : d.take record = .ok d') : d'.OneConstant := by
  cases record with
  | input literal =>
    obtain ⟨d₁, hdefine, htake⟩ := bind_eq_ok_iff.1 htake
    have h₁ : d₁.OneConstant := h.define AigNode.noConfusion hdefine
    cases htake
    exact h₁
  | latch state next =>
    obtain ⟨d₁, hdefine, htake⟩ := bind_eq_ok_iff.1 htake
    have h₁ : d₁.OneConstant := h.define AigNode.noConfusion hdefine
    cases htake
    exact h₁
  | output literal =>
    cases htake
    exact h
  | gate literal left right => exact h.define AigNode.noConfusion htake
  | symbol symbol =>
    cases htake
    exact h

/-- When every variable is defined, the nodes are the definitions. -/
theorem getElem?_filterMap_id {slots : Array (Option AigNode)}
    (h : slots.findIdx? Option.isNone = none) (n : Nat) :
    slots[n]? = (slots.filterMap id)[n]?.map some := by
  have hall : ∀ x ∈ slots.toList, x.isNone = false := by
    intro x hx
    exact Array.findIdx?_eq_none_iff.1 h x (Array.mem_toList_iff.1 hx)
  have hlist : slots.toList = (slots.toList.filterMap id).map some := by
    generalize slots.toList = list at hall
    induction list with
    | nil => rfl
    | cons x list ih =>
      cases x with
      | none => exact absurd (hall none List.mem_cons_self) (by simp)
      | some node =>
        have hrest := ih fun y hy => hall y (List.mem_cons_of_mem _ hy)
        simpa using hrest
  rw [← Array.getElem?_toList, ← Array.getElem?_toList, Array.toList_filterMap, ← List.getElem?_map,
    ← hlist]

/-- What finishing a draft makes of it. -/
structure Finished (d : Draft) (aig : Aig) : Prop where
  defined : d.slots.findIdx? Option.isNone = none
  nodes_eq : aig.nodes = d.slots.filterMap id
  acyclic : requireAcyclic aig.nodes = .ok ()
  inputs_eq : aig.inputs = d.inputs
  latches_eq : aig.latches = d.latches
  counted : (FanoutCounts.empty.grow aig.nodes.size).incrementAll (aig.consumers.map Edge.node) =
    .ok aig.stores.counts
  marks_eq : aig.stores.marks = Marks.empty.grow aig.nodes.size

theorem finish_eq_ok {aig : Aig} (h : d.finish = .ok aig) : Finished d aig := by
  unfold Draft.finish at h
  cases hfind : d.slots.findIdx? Option.isNone with
  | some var => simp [hfind] at h
  | none =>
    rw [hfind] at h
    obtain ⟨⟨⟩, hacyclic, h⟩ := bind_eq_ok_iff.1 h
    dsimp only at h
    split at h
    · cases h
    · rename_i counts hcounts
      cases h
      exact ⟨hfind, rfl, hacyclic, rfl, rfl, hcounts, rfl⟩

/-- The nodes of a finished graph are the definitions of the draft. -/
theorem Finished.slot_eq {aig : Aig} (h : Finished d aig) (n : Nat) :
    d.slots[n]? = aig.nodes[n]?.map some := by
  rw [h.nodes_eq]
  exact getElem?_filterMap_id h.defined n

theorem Finished.parents_eq {aig : Aig} (h : Finished d aig) (v : Nat) :
    aig.stores.counts.parents v = (aig.consumers.map Edge.node).count v := by
  have hparents := (FanoutCounts.incrementAll_eq_ok h.counted).2 v
  rw [FanoutCounts.parents_grow] at hparents
  exact hparents.trans (Nat.zero_add _)

/-- A draft that can be finished holds a graph in which every edge comes from a node. -/
theorem Finished.shaped {aig : Aig} (h : Finished d aig) (hconst : d.OneConstant) :
    aig.Shaped := by
  have hsize : aig.stores.counts.size = aig.nodes.size := by
    rw [(FanoutCounts.incrementAll_eq_ok h.counted).1, FanoutCounts.size_grow]
    exact Nat.zero_max _
  have hconsumers : ∀ e ∈ aig.consumers, e.node < aig.nodes.size := by
    intro e he
    apply Nat.lt_of_not_le
    intro hle
    have hzero : aig.stores.counts.parents e.node = 0 :=
      FanoutCounts.parents_eq_zero_of_le (by rw [hsize]; exact hle)
    rw [h.parents_eq] at hzero
    exact List.count_eq_zero.1 hzero (List.mem_map_of_mem he)
  have hfanins : Aig.FaninsExist aig.nodes := fun node hnode e he =>
    hconsumers e (Aig.mem_consumers.2 (Or.inl ⟨node, hnode, he⟩))
  refine ⟨fun n => ?_, hconsumers, acyclic_of_requireAcyclic hfanins h.acyclic, hsize, ?_⟩
  · rw [← hconst n, h.slot_eq n]
    simp
  · rw [h.marks_eq, Marks.size_grow]
    exact Nat.zero_max _

end Draft

/-- What every record keeps, all lines together keep. -/
theorem takeLines_keeps {P : Draft → Prop} {header : Header} {k : Nat} {lines : List (List UInt8)}
    {d d' : Draft} (hstep : ∀ d d' record, P d → d.take record = .ok d' → P d') (h : P d)
    (htake : takeLines header k lines d = .ok d') : P d' := by
  induction lines generalizing k d with
  | nil =>
    cases htake
    exact h
  | cons line lines ih =>
    unfold takeLines at htake
    split at htake
    · cases htake
    · cases htake
      exact h
    · split at htake
      · cases htake
      · split at htake
        · cases htake
        · rename_i hrecord
          exact ih (hstep _ _ _ h hrecord) htake

/-- What holds of an empty draft and is kept by every record holds of the draft that a loaded graph
was finished from. -/
theorem load_eq_ok {P : Draft → Prop} {bytes : List UInt8} {aig : Aig}
    (hstart : ∀ maximum, P (Draft.start maximum))
    (hstep : ∀ d d' record, P d → d.take record = .ok d' → P d') (h : load bytes = .ok aig) :
    ∃ d, P d ∧ Draft.Finished d aig := by
  obtain ⟨⟨header, rest⟩, -, h⟩ := bind_eq_ok_iff.1 h
  dsimp only at h
  split at h
  · cases h
  · obtain ⟨d, htake, h⟩ := bind_eq_ok_iff.1 h
    exact ⟨d, takeLines_keeps hstep (hstart _) htake, Draft.finish_eq_ok h⟩

/-- A loaded graph has the shape of one that was built. -/
theorem shaped_of_load {bytes : List UInt8} {aig : Aig} (h : load bytes = .ok aig) :
    aig.Shaped := by
  obtain ⟨d, hconst, hfinished⟩ :=
    load_eq_ok Draft.oneConstant_start (fun _ _ _ h htake => h.take htake) h
  exact hfinished.shaped hconst

end Aiger

namespace Aig

/-- The graphs that are made by building, loading and asking about cones. -/
inductive Reached : Aig → Prop
  | empty : Reached empty
  | load {bytes : List UInt8} {aig : Aig} : Aiger.load bytes = .ok aig → Reached aig
  | addInput {aig : Aig} : Reached aig → Reached aig.addInput.2
  | addLatch {aig aig' : Aig} {e : Edge} :
      Reached aig → aig.addLatch = .ok (e, aig') → Reached aig'
  | setNextState {aig aig' : Aig} {position : Nat} {e : Edge} :
      Reached aig → aig.setNextState position e = .ok aig' → Reached aig'
  | addAnd {aig aig' : Aig} {left right e : Edge} :
      Reached aig → aig.addAnd left right = .ok (e, aig') → Reached aig'
  | addOutput {aig aig' : Aig} {e : Edge} {position : Nat} :
      Reached aig → aig.addOutput e = .ok (position, aig') → Reached aig'
  | setName {aig : Aig} (n : Nat) (name : String) : Reached aig → Reached (aig.setName n name)
  | query {aig aig' : Aig} {q : ConeQuery} {root : Nat} {a : ConeAnswer} : Reached aig →
      Container.query (fun net s => q.run net root s) aig = .ok (a, aig') → Reached aig'

variable {aig aig' : Aig} {root : Nat}

theorem Shaped.closed (h : Shaped aig) {bound : Nat} (hbound : aig.nodes.size = bound) :
    aig.network.Closed bound := by
  subst hbound
  refine ⟨fun {n site} hsite => ?_, fun {n site fanin} hsite hfanin => ?_⟩
  · obtain ⟨node, hnode, -⟩ := Option.map_eq_some_iff.1 hsite
    exact (Array.getElem?_eq_some_iff.1 hnode).1
  · obtain ⟨node, hnode, rfl⟩ := Option.map_eq_some_iff.1 hsite
    obtain ⟨e, he, rfl⟩ := List.mem_map.1 hfanin
    have hlt := h.consumers e (mem_consumers.2 (Or.inl ⟨node, Array.mem_of_getElem? hnode, he⟩))
    exact ⟨e, rfl, aig.nodes[e.node].site, by simp [network, networkOf, hlt]⟩

theorem query_eq_map {α : Type} (f : Network → Stores → Except Fault (α × Stores)) (aig : Aig) :
    Container.query f aig =
      (f aig.network aig.stores).map fun r => (r.1, { aig with stores := r.2 }) := by
  obtain ⟨nodes, inputs, latches, outputs, names, outputNames, stores⟩ := aig
  simp only [Container.query, network]
  cases f (networkOf nodes) stores <;> rfl

theorem query_eq_ok {α : Type} {f : Network → Stores → Except Fault (α × Stores)} {a : α}
    (h : Container.query f aig = .ok (a, aig')) :
    ∃ stores, f aig.network aig.stores = .ok (a, stores) ∧
      aig' = { aig with stores := stores } := by
  rw [query_eq_map] at h
  obtain ⟨⟨b, stores⟩, hf, heq⟩ := map_eq_ok_iff.1 h
  cases heq
  exact ⟨stores, hf, rfl⟩

theorem Shaped.query (h : Shaped aig) {q : ConeQuery} {a : ConeAnswer}
    (hquery : Container.query (fun net s => q.run net root s) aig = .ok (a, aig')) :
    Shaped aig' := by
  obtain ⟨stores, hrun, rfl⟩ := query_eq_ok hquery
  have hkept := q.run_kept (h.closed h.counts_size.symm) (h.closed h.marks_size.symm) hrun
  refine h.of_nodes_eq rfl ?_ hkept.evolves.size_eq fun _ he => Or.inl he
  dsimp only
  rw [hkept.counts_eq]

theorem Reached.shaped (h : Reached aig) : Shaped aig := by
  induction h with
  | empty => exact shaped_empty
  | load h => exact Aiger.shaped_of_load h
  | addInput _ ih => exact ih.addInput
  | addLatch _ h ih => exact ih.addLatch h
  | setNextState _ h ih => exact ih.setNextState h
  | addAnd _ h ih => exact ih.addAnd h
  | addOutput _ h ih => exact ih.addOutput h
  | setName n name _ ih => exact ih.setName n name
  | query _ h ih => exact ih.query h

end Aig

end FanoutCone
