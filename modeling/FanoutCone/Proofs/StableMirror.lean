import FanoutCone.Proofs.AigRuns
import FanoutCone.Proofs.StableRuns
import FanoutCone.Proofs.Traversals

/-!
# Two containers of one graph

One container stores fanins in its nodes, the other as arcs of a graph that is
drawn in a later pass. A copy holds the same gates at the same indices, so the
engine sees the same network: a gate has the two fanins of its row, the constant
has none, and inputs and latches are leaves. The counts agree because each is
determined by gates, outputs and next states.

The stores of the two containers have different pasts, but no query can tell.
Where the two are built by the same calls the same holds, call by call.
-/
namespace FanoutCone.StableAig

variable {aig aig' : Aig} {g g' : StableAig} {n position : Nat} {left right : Edge}

namespace Copies

theorem present_iff (h : Copies aig g) (n : Nat) : g.Present n ↔ n < aig.nodes.size :=
  h.packed.present_iff n

/-- A node that is no gate is the constant at index 0 and an input elsewhere. -/
theorem node?_of_not_gate (h : Copies aig g) (hT : Aig.gatesOf aig.nodes n = none)
    (hn : n < aig.nodes.size) :
    n = 0 ∧ g.node? n = some .const ∨ n ≠ 0 ∧ ∃ position, g.node? n = some (.input position) := by
  obtain ⟨node, hnode⟩ := (h.present_iff n).2 hn
  cases node with
  | const => exact Or.inl ⟨(h.complete.const_iff n).1 hnode, hnode⟩
  | input position =>
    refine Or.inr ⟨fun hzero => ?_, position, hnode⟩
    rw [(h.complete.const_iff n).2 hzero] at hnode
    cases hnode
  | and leftArc rightArc =>
    rcases h.complete.listed hnode with hpending | ⟨left, right, hgate⟩
    · exact hpending.elim
    · rw [hT] at hgate
      cases hgate

/-- The engine sees the same node at an index. -/
theorem site?_eq (h : Copies aig g) (hshaped : aig.Shaped) {node : AigNode}
    (hnode : aig.nodes[n]? = some node) : g.network.site? n = some node.site := by
  have hn : n < aig.nodes.size := (Array.getElem?_eq_some_iff.1 hnode).1
  have hsite : ∀ x, g.node? n = some x →
      g.network.site? n = some ⟨x.kind, x.fanins.map (edgeOf? g.graph)⟩ := fun x hx =>
    Option.map_eq_some_iff.2 ⟨x, hx, rfl⟩
  have hconst := hshaped.const_iff n
  rw [hnode, Option.some.injEq] at hconst
  have hleaf : node ≠ .const → Aig.gatesOf aig.nodes n = none →
      g.network.site? n = some ⟨.leaf, []⟩ := by
    intro hne hT
    rcases h.node?_of_not_gate hT hn with ⟨hzero, -⟩ | ⟨-, position, hinput⟩
    · exact absurd (hconst.2 hzero) hne
    · exact hsite _ hinput
  cases node with
  | const => exact hsite _ ((h.complete.const_iff n).2 (hconst.1 rfl))
  | input position => exact hleaf AigNode.noConfusion (by rw [Aig.gatesOf, hnode])
  | latch position => exact hleaf AigNode.noConfusion (by rw [Aig.gatesOf, hnode])
  | and left right => exact h.complete.site?_of_gate (Aig.gatesOf_eq_some_iff.2 hnode)

/-- The engine sees the same network. -/
theorem network_eq (h : Copies aig g) (hshaped : aig.Shaped) : g.network = aig.network := by
  refine congrArg Network.mk (funext fun n => ?_)
  cases hnode : aig.nodes[n]? with
  | some node => exact h.site?_eq hshaped hnode
  | none =>
    have hle : aig.nodes.size ≤ n := Array.getElem?_eq_none_iff.1 hnode
    cases hsite : g.network.site? n with
    | none => exact hsite
    | some site =>
      have hlt := (h.present_iff n).1 ((Wired.present_iff g n).1 ⟨site, hsite⟩)
      omega

/-- Every node has as many parents. -/
theorem counts_eq (h : Copies aig g) (hsound : aig.Sound) :
    g.stores.counts = aig.stores.counts := by
  apply FanoutCounts.ext_parents
  · rw [h.packed.counts_size, hsound.shaped.counts_size]
  · intro v
    have hexports : g.exports v = aig.exports v := by
      rw [exports, Aig.exports, h.outputs_eq, List.map_append, List.count_append, Nat.add_comm]
    rw [h.complete.counts v, h.packed.counts_size, hexports, hsound.counts v, Aig.demand_eq,
      Aig.gateDemand_eq_uses, List.count_nil, Nat.add_zero]

/-- A node that is no gate has no fanin to read. -/
theorem fanin_of_not_gate (h : Copies aig g) (hT : Aig.gatesOf aig.nodes n = none)
    (hn : n < aig.nodes.size) : g.fanin n position = .error (.noFanin n position) := by
  rcases h.node?_of_not_gate hT hn with ⟨-, hconst⟩ | ⟨-, k, hinput⟩
  · simp [fanin, hconst]
  · simp [fanin, hinput]

/-- A vacant index has no fanin to read. -/
theorem fanin_of_le (h : Copies aig g) (hn : aig.nodes.size ≤ n) :
    g.fanin n position = .error (.absentNode n) := by
  cases hx : g.node? n with
  | none => simp [fanin, hx]
  | some x =>
    have hlt := (h.present_iff n).1 ⟨x, hx⟩
    omega

/-- A gate has the two fanins of its row. -/
theorem fanin_agree_of_gate (h : Copies aig g)
    (hnode : aig.nodes[n]? = some (.and left right)) (position : Nat) :
    Agree (fun e e' => e' = e) (aig.fanin n position) (g.fanin n position) := by
  have hT := Aig.gatesOf_eq_some_iff.2 hnode
  obtain ⟨hleft, hright⟩ := h.complete.fanin_eq hT
  simp only [Aig.fanin, Aig.node, hnode, ok_bind]
  match position with
  | 0 =>
    rw [hleft]
    exact .ok rfl
  | 1 =>
    rw [hright]
    exact .ok rfl
  | position + 2 =>
    obtain ⟨leftArc, rightArc, hgate, -⟩ := h.complete.gate hT
    have hfault : g.fanin n (position + 2) = .error (.absentFanin n (position + 2)) := by
      simp [fanin, hgate]
    rw [hfault]
    exact .error Fault.noConfusion Fault.noConfusion

/-- Reading a fanin gives the same edge, or is a fault on both sides. -/
theorem fanin_agree (h : Copies aig g) (n position : Nat) :
    Agree (fun e e' => e' = e) (aig.fanin n position) (g.fanin n position) := by
  cases hnode : aig.nodes[n]? with
  | none =>
    have hfault : aig.fanin n position = .error (.absentNode n) := by
      simp [Aig.fanin, Aig.node, hnode]
    rw [hfault, h.fanin_of_le (Array.getElem?_eq_none_iff.1 hnode)]
    exact .error Fault.noConfusion Fault.noConfusion
  | some node =>
    have hn : n < aig.nodes.size := (Array.getElem?_eq_some_iff.1 hnode).1
    cases node with
    | and left right => exact h.fanin_agree_of_gate hnode position
    | const | input k | latch k =>
      have hfault : aig.fanin n position = .error (.noFanin n position) := by
        simp [Aig.fanin, Aig.node, hnode, AigNode.fanins]
      rw [hfault, h.fanin_of_not_gate (by rw [Aig.gatesOf, hnode]) hn]
      exact .error Fault.noConfusion Fault.noConfusion

theorem related (h : Copies aig g) (hsound : aig.Sound) :
    aig.stores.Related Marks.Peers g.stores where
  counts_eq := h.counts_eq hsound
  marks := by
    refine ⟨?_, hsound.marks_bounded, h.complete.bounded⟩
    rw [h.complete.marks_size, h.packed.counts_size, hsound.shaped.marks_size]

/-- No query can tell the two containers apart. -/
theorem query_agree (h : Copies aig g) (hsound : aig.Sound) (q : ConeQuery) (root : Nat) :
    Agree (fun r r' => r'.1 = r.1 ∧ (Container.stores r'.2).counts = (Container.stores r.2).counts)
      (Container.query (fun net s => q.run net root s) aig)
      (Container.query (fun net s => q.run net root s) g) := by
  rw [Aig.query_eq_map, query_eq_map, h.network_eq hsound.shaped]
  exact (q.run_agree_self Marks.congruence_peers (h.related hsound)).map fun r r' hr =>
    ⟨hr.report_eq, hr.stores.counts_eq⟩

end Copies

/-- What can be seen of a container is the same in its mirror. -/
structure Mirrors (aig : Aig) (g : StableAig) : Prop where
  nodeCount_eq : Container.nodeCount g = Container.nodeCount aig
  contains_eq : ∀ n, Container.contains g n = Container.contains aig n
  /-- Every node has the same kind and the same fanins. -/
  network_eq : Container.network g = Container.network aig
  fanin_agree : ∀ n position, Agree (fun e e' => e' = e) (Container.fanin aig n position)
    (Container.fanin g n position)
  counts_eq : (Container.stores g).counts = (Container.stores aig).counts
  outputs_eq : g.outputs.toList = aig.outputs.toList ++ aig.latches.toList.map Latch.next
  /-- A query gives the same answer and leaves the same counts, or breaks off in both. -/
  query_agree : ∀ (q : ConeQuery) (root : Nat), Agree
    (fun r r' => r'.1 = r.1 ∧ (Container.stores r'.2).counts = (Container.stores r.2).counts)
    (Container.query (fun net s => q.run net root s) aig)
    (Container.query (fun net s => q.run net root s) g)
  /-- A query on nodes that exist is answered, if the protected ones can get their parents. -/
  answers : ∀ (q : ConeQuery) (root : Nat), root < Container.nodeCount aig →
    (∀ v ∈ q.leaves, v < Container.nodeCount aig) →
    (Container.stores aig).counts.RoomFor q.leaves →
    ∃ a aig' g', Container.query (fun net s => q.run net root s) aig = .ok (a, aig') ∧
      Container.query (fun net s => q.run net root s) g = .ok (a, g')

theorem Copies.mirrors (h : Copies aig g) (hsound : aig.Sound) : Mirrors aig g where
  nodeCount_eq := h.packed.counts_size
  contains_eq n := by
    rw [Bool.eq_iff_iff]
    exact (present_iff_contains.symm.trans (h.present_iff n)).trans decide_eq_true_iff.symm
  network_eq := h.network_eq hsound.shaped
  fanin_agree := h.fanin_agree
  counts_eq := h.counts_eq hsound
  outputs_eq := h.outputs_eq
  query_agree := h.query_agree hsound
  answers q root hroot hleaves hroom := by
    obtain ⟨a, aig', hquery⟩ := hsound.exists_query q hroot hleaves hroom
    obtain ⟨⟨a', g'⟩, hquery', hsame, -⟩ := (h.query_agree hsound q root).exists_of_ok hquery
    dsimp only at hsame
    rw [hsame] at hquery'
    exact ⟨a, aig', g', hquery, hquery'⟩

inductive BuildCall where
  | input
  | and (left right : Edge)
  | output (e : Edge)

def BuildCall.onAig (aig : Aig) : BuildCall → Except Fault Aig
  | .input => .ok aig.addInput.2
  | .and left right => (aig.addAnd left right).map Prod.snd
  | .output e => (aig.addOutput e).map Prod.snd

def BuildCall.onStable (g : StableAig) : BuildCall → Except Fault StableAig
  | .input => .ok g.addInput.2
  | .and left right => (g.addAnd left right).map Prod.snd
  | .output e => (g.addOutput e).map Prod.snd

/-- A new gate takes the next slot. -/
theorem Packed.addAnd {k : Nat} {e : Edge} (h : Packed k g) (hsound : g.graph.Sound)
    (hadd : g.addAnd left right = .ok (e, g')) :
    e = .ofNode k ∧ Packed (k + 1) g' ∧ g'.outputs = g.outputs := by
  obtain ⟨rfl, hconnect⟩ := addAnd_eq_ok hadd
  obtain ⟨hnew, hpacked⟩ := h.addNode hsound .unconnected
  have hpresent := (present_addNode hsound .unconnected (g.addNode .unconnected).1).2 (Or.inl rfl)
  refine ⟨by rw [hnew], hpacked.connect (hsound.addVertex _) hpresent hconnect, ?_⟩
  obtain ⟨leftArc, rightArc, graph₁, graph₂, counts, -, -, -, rfl⟩ := connect_eq_ok hconnect
  rfl

theorem roomFor_of_consume {aig₁ aig₂ : Aig} (hleft : aig.consume left = .ok aig₁)
    (hright : aig₁.consume right = .ok aig₂) :
    aig.stores.counts.RoomFor [left.node, right.node] := by
  obtain ⟨before, counts, hinc, rfl⟩ := Aig.consume_eq_ok hleft
  obtain ⟨before', counts', hinc', rfl⟩ := Aig.consume_eq_ok hright
  have hall : aig.stores.counts.incrementAll [left.node, right.node] = .ok counts' := by
    rw [FanoutCounts.incrementAll_cons, hinc, map_ok, ok_bind, FanoutCounts.incrementAll_cons,
      hinc', map_ok, ok_bind]
    rfl
  exact FanoutCounts.roomFor_of_incrementAll hall

/-- What holds of the two containers after the same calls. -/
structure Replays (aig : Aig) (g : StableAig) : Prop where
  reached : aig.Reached
  copies : Copies aig g
  latches_eq : aig.latches = #[]

theorem replays_empty : Replays .empty .empty := by
  have hgates : Aig.gatesOf Aig.empty.nodes = .empty := Aig.gatesOf_push_of_not_and #[] rfl
  refine ⟨.empty, ⟨?_, packed_empty, rfl⟩, rfl⟩
  rw [hgates]
  exact complete_empty

namespace Replays

theorem input (h : Replays aig g) : Replays aig.addInput.2 g.addInput.2 := by
  obtain ⟨-, hfree, hslots, hcounts, hpresent⟩ :=
    h.copies.packed.addNode h.copies.complete.graph (.input g.inputs)
  have hsize : aig.addInput.2.nodes.size = aig.nodes.size + 1 := Array.size_push _
  have hgates : Aig.gatesOf aig.addInput.2.nodes = Aig.gatesOf aig.nodes :=
    Aig.gatesOf_push_of_not_and _ rfl
  refine ⟨h.reached.addInput, ⟨?_, ?_, h.copies.outputs_eq⟩, h.latches_eq⟩
  · rw [hgates]
    exact h.copies.complete.addInput
  · rw [hsize]
    exact ⟨hfree, hslots, hcounts, hpresent⟩

theorem and {e : Edge} (h : Replays aig g) (hadd : aig.addAnd left right = .ok (e, aig')) :
    ∃ g', g.addAnd left right = .ok (e, g') ∧ Replays aig' g' := by
  have hreached := h.reached.addAnd hadd
  obtain ⟨aig₁, aig₂, hconsume, hconsume', rfl, rfl⟩ := Aig.addAnd_eq_ok hadd
  obtain ⟨hleft, hnodes, -, hshaped⟩ := h.reached.shaped.consume hconsume
  obtain ⟨hright, hnodes', -, -⟩ := hshaped.consume hconsume'
  rw [hnodes] at hright
  have hroom : g.stores.counts.RoomFor [left.node, right.node] := by
    rw [h.copies.counts_eq h.reached.sound]
    exact roomFor_of_consume hconsume hconsume'
  obtain ⟨n, g', hadd', hcomplete, -⟩ := h.copies.complete.exists_addAnd
    ((h.copies.present_iff _).2 hleft) ((h.copies.present_iff _).2 hright) hroom
  obtain ⟨hn, hpacked, houtputs⟩ := h.copies.packed.addAnd h.copies.complete.graph hadd'
  obtain rfl : n = aig.nodes.size := congrArg Edge.node hn
  obtain ⟨before, counts, -, rfl⟩ := Aig.consume_eq_ok hconsume
  obtain ⟨before', counts', -, rfl⟩ := Aig.consume_eq_ok hconsume'
  refine ⟨g', hadd', hreached, ⟨?_, ?_, ?_⟩, h.latches_eq⟩
  · show Complete (Aig.gatesOf (aig.nodes.push (.and left right))) g'
    rwa [Aig.gatesOf_push_and]
  · show Packed (aig.nodes.push (.and left right)).size g'
    rwa [Array.size_push]
  · rw [houtputs]
    exact h.copies.outputs_eq

theorem output {e : Edge} (h : Replays aig g) (hadd : aig.addOutput e = .ok (position, aig')) :
    ∃ position' g', g.addOutput e = .ok (position', g') ∧ Replays aig' g' := by
  have hreached := h.reached.addOutput hadd
  obtain ⟨aig₁, hconsume, rfl⟩ := Aig.addOutput_eq_ok hadd
  obtain ⟨hlt, -, -, -⟩ := h.reached.shaped.consume hconsume
  have hpresent := (h.copies.present_iff _).2 hlt
  obtain ⟨before, counts, hinc, rfl⟩ := Aig.consume_eq_ok hconsume
  obtain ⟨-, -, hroom, -⟩ := FanoutCounts.increment_eq_ok_iff.1 hinc
  rw [← h.copies.counts_eq h.reached.sound] at hroom
  obtain ⟨position', g', hadd'⟩ := h.copies.complete.exists_addOutput hpresent hroom
  have hcomplete := h.copies.complete.addOutput hpresent hadd'
  have hpacked := h.copies.packed.addOutput hadd'
  obtain ⟨before', counts', -, rfl⟩ := addOutput_eq_ok hadd'
  refine ⟨position', _, hadd', hreached, ⟨hcomplete, hpacked, ?_⟩, h.latches_eq⟩
  have houtputs := h.copies.outputs_eq
  rw [h.latches_eq] at houtputs ⊢
  simp only [Array.toList_push, houtputs, List.map_nil, List.append_nil]

/-- A call that the one container takes is taken by the other. -/
theorem call (h : Replays aig g) {call : BuildCall} (hcall : call.onAig aig = .ok aig') :
    ∃ g', call.onStable g = .ok g' ∧ Replays aig' g' := by
  cases call with
  | input =>
    cases hcall
    exact ⟨_, rfl, h.input⟩
  | and left right =>
    obtain ⟨⟨e, aig'⟩, hadd, rfl⟩ := map_eq_ok_iff.1 hcall
    obtain ⟨g', hadd', hreplays⟩ := h.and hadd
    exact ⟨g', map_eq_ok_iff.2 ⟨(e, g'), hadd', rfl⟩, hreplays⟩
  | output e =>
    obtain ⟨⟨position, aig'⟩, hadd, rfl⟩ := map_eq_ok_iff.1 hcall
    obtain ⟨position', g', hadd', hreplays⟩ := h.output hadd
    exact ⟨g', map_eq_ok_iff.2 ⟨(position', g'), hadd', rfl⟩, hreplays⟩

/-- Calls that the one container takes one after another are taken by the other. -/
theorem calls (h : Replays aig g) {calls : List BuildCall}
    (hcalls : calls.foldlM BuildCall.onAig aig = .ok aig') :
    ∃ g', calls.foldlM BuildCall.onStable g = .ok g' ∧ Replays aig' g' := by
  induction calls generalizing aig g with
  | nil =>
    cases hcalls
    exact ⟨g, rfl, h⟩
  | cons call calls ih =>
    rw [List.foldlM_cons] at hcalls
    obtain ⟨aig₁, hcall, hrest⟩ := bind_eq_ok_iff.1 hcalls
    obtain ⟨g₁, hcall', h₁⟩ := h.call hcall
    obtain ⟨g', hrest', h'⟩ := ih h₁ hrest
    refine ⟨g', ?_, h'⟩
    rw [List.foldlM_cons, hcall', ok_bind]
    exact hrest'

end Replays

/-- The two containers agree. A graph that was built or loaded, latches included, can be copied, and
the copy mirrors it; and where the same calls build a graph in either container, the one mirrors
the other. -/
theorem containers_agree :
    (∀ aig : Aig, aig.Reached → ∃ g, ofAig aig = .ok g ∧ Mirrors aig g) ∧
    ∀ (calls : List BuildCall) (aig : Aig), calls.foldlM BuildCall.onAig .empty = .ok aig →
      ∃ g, calls.foldlM BuildCall.onStable empty = .ok g ∧ Mirrors aig g := by
  refine ⟨fun aig h => ?_, fun calls aig h => ?_⟩
  · obtain ⟨g, hcopy, hcopies⟩ := exists_ofAig h.sound
    exact ⟨g, hcopy, hcopies.mirrors h.sound⟩
  · obtain ⟨g, hcalls, hreplays⟩ := replays_empty.calls h
    exact ⟨g, hcalls, hreplays.copies.mirrors hreplays.reached.sound⟩

/-- Calls that build two gates, the one over the other and over the constant. -/
def twoGates : List BuildCall :=
  [.input, .and ⟨1, true⟩ ⟨1, false⟩, .and ⟨2, true⟩ ⟨0, true⟩, .output ⟨3, false⟩]

theorem containers_agree_held :
    (∃ g, ofAig Aig.held = .ok g ∧ Mirrors Aig.held g) ∧
    ∃ aig g, twoGates.foldlM BuildCall.onAig .empty = .ok aig ∧
      twoGates.foldlM BuildCall.onStable empty = .ok g ∧ Mirrors aig g := by
  obtain ⟨g, hcalls, hmirrors⟩ := containers_agree.2 twoGates _ rfl
  exact ⟨containers_agree.1 Aig.held Aig.reached_held, _, g, rfl, hcalls, hmirrors⟩

end FanoutCone.StableAig
