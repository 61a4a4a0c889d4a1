import FanoutCone.Proofs.StableCopy
import FanoutCone.Proofs.Sweep

/-!
# Runs of stable graphs

A stable graph starts empty or as a copy, and then takes inputs, gates, outputs,
sweeps and queries in any order. A gate and an output may only be given nodes
that are present. Slots and arcs are used again all the time, so a run remembers
beside the graph from which edges the gate last put into each slot was made: a
gate that is present still reads just these.

Since a new gate is read by none, gates never form a cycle. That is what makes a
sweep exact: it removes the gates that no output needs and nothing else.
-/
namespace FanoutCone.StableAig

/-- The graphs that a run can reach, each with the edges that the gate last put into each slot was
made from. -/
inductive Reached : GateTable → StableAig → Prop
  | empty : Reached .empty empty
  | ofAig {aig : Aig} {g : StableAig} :
      aig.Reached → ofAig aig = .ok g → Reached (Aig.gatesOf aig.nodes) g
  | addInput {made : GateTable} {g : StableAig} : Reached made g → Reached made g.addInput.2
  | addAnd {made : GateTable} {g g' : StableAig} (left right : Edge) {e : Edge} : Reached made g →
      g.Present left.node → g.Present right.node → g.addAnd left right = .ok (e, g') →
      Reached (made.insert e.node left right) g'
  | addOutput {made : GateTable} {g g' : StableAig} (e : Edge) {position : Nat} :
      Reached made g → g.Present e.node → g.addOutput e = .ok (position, g') → Reached made g'
  | sweep {made : GateTable} {g g' : StableAig} {removed : Nat} :
      Reached made g → g.sweep = .ok (removed, g') → Reached made g'
  | query {made : GateTable} {g g' : StableAig} {q : ConeQuery} {root : Nat} {a : ConeAnswer} :
      Reached made g → Container.query (fun net s => q.run net root s) g = .ok (a, g') →
      Reached made g'

variable {T made : GateTable} {pending : Nat → Prop} {g g' : StableAig} {n : Nat}
variable {left right : Edge}

/-- What is true of a node right after it was added: its slot was vacant, and it has no parents
and no mark. -/
structure Fresh (g g' : StableAig) (n : Nat) : Prop where
  vacant : g.node? n = none
  present : g'.Present n
  count_eq : g'.stores.counts.count n = .ok 0
  isCurrent_eq : g'.stores.marks.isCurrent n = .ok false

theorem Wired.fresh (h : Wired T pending g') (hvacant : g.node? n = none) (hpresent : g'.Present n)
    (hparents : g'.stores.counts.parents n = 0) (hmark : g'.stores.marks.isMarked n = false) :
    Fresh g g' n := by
  have hlt := h.lt_size hpresent
  refine ⟨hvacant, hpresent, ?_, ?_⟩
  · rw [FanoutCounts.count_of_lt hlt, hparents]
  · rw [Marks.isCurrent_eq_ok_iff, h.marks_size]
    exact ⟨hlt, hmark.symm⟩

/-- A new node is not marked, and has as many parents as its vacant slot, none. -/
theorem Wired.parents_addNode (h : Wired T pending g) (node : StableNode) :
    (g.addNode node).2.stores.counts.parents (g.addNode node).1 = 0 ∧
      (g.addNode node).2.stores.marks.isMarked (g.addNode node).1 = false := by
  have hvacant : ¬ g.Present (g.addNode node).1 := by
    rintro ⟨x, hx⟩
    rw [(node?_addNode h.graph node).1] at hx
    cases hx
  constructor
  · rw [StableAig.parents_addNode, h.parents_eq_zero hvacant]
  · rw [marks_addNode]
    have hgeneration : 0 < (g.stores.marks.grow ((g.addNode node).1 + 1)).generation :=
      h.generation_pos
    exact Marks.isMarked_clear hgeneration _

theorem Wired.fresh_addInput (h : Wired T pending g) : Fresh g g.addInput.2 g.addInput.1.node := by
  obtain ⟨hparents, hmark⟩ := h.parents_addNode (.input g.inputs)
  refine h.addInput.fresh (node?_addNode h.graph _).1 ?_ hparents hmark
  exact (present_addNode h.graph (.input g.inputs) _).2 (Or.inl rfl)

theorem addAnd_eq_ok {e : Edge} (h : g.addAnd left right = .ok (e, g')) :
    e = .ofNode (g.addNode .unconnected).1 ∧
      (g.addNode .unconnected).2.connect (g.addNode .unconnected).1 left right = .ok g' := by
  obtain ⟨g₁, hconnect, h⟩ := bind_eq_ok_iff.1 h
  cases h
  exact ⟨rfl, hconnect⟩

theorem roomFor_of_addAnd {e : Edge} (h : g.addAnd left right = .ok (e, g')) :
    g.stores.counts.RoomFor [left.node, right.node] := by
  obtain ⟨-, hconnect⟩ := addAnd_eq_ok h
  obtain ⟨leftArc, rightArc, graph₁, graph₂, counts, -, -, hcounts, -⟩ := connect_eq_ok hconnect
  exact (roomFor_addNode g .unconnected _).1 (FanoutCounts.roomFor_of_incrementAll hcounts)

/-- A gate can be added over nodes that are present and can get more parents, and takes its place in
the table. -/
theorem Wired.exists_addAnd (h : Complete T g) (hleft : g.Present left.node)
    (hright : g.Present right.node) (hroom : g.stores.counts.RoomFor [left.node, right.node]) :
    ∃ n g', g.addAnd left right = .ok (.ofNode n, g') ∧ Complete (T.insert n left right) g' ∧
      Fresh g g' n := by
  obtain ⟨hparents, hmark⟩ := h.parents_addNode .unconnected
  have hwired := h.addNode (Or.inr rfl)
  obtain ⟨hvacant, -⟩ := node?_addNode h.graph .unconnected
  have hpresent := present_addNode h.graph .unconnected
  have hroom₁ := (roomFor_addNode g .unconnected _).2 hroom
  generalize hnew : g.addNode .unconnected = added at hparents hmark hwired hvacant hpresent hroom₁
  obtain ⟨n, g₁⟩ := added
  dsimp only at hparents hmark hwired hvacant hpresent hroom₁
  obtain ⟨g', leftArc, rightArc, hconnect, hdrawn⟩ := hwired.exists_connect (Or.inr ⟨rfl, rfl⟩)
    ((hpresent _).2 (Or.inr hleft)) ((hpresent _).2 (Or.inr hright)) hroom₁
  have hcomplete : Complete (T.insert n left right) g' :=
    (hdrawn.wired hwired (Or.inr ⟨rfl, rfl⟩)).congr_pending fun m => by simp
  refine ⟨n, g', by simp only [addAnd, hnew, hconnect, ok_bind]; rfl, hcomplete, ?_⟩
  apply hcomplete.fresh hvacant ⟨_, hdrawn.node?_self⟩
  · -- The fanins come from nodes that were there before, so connecting adds nothing to the count.
    have hne : ∀ m, g.Present m → m ≠ n := by
      rintro m ⟨x, hx⟩ rfl
      rw [hvacant] at hx
      cases hx
    rw [hdrawn.parents_eq, hparents, Nat.zero_add, List.count_eq_zero, List.mem_pair]
    rintro (heq | heq)
    · exact hne _ hleft heq.symm
    · exact hne _ hright heq.symm
  · rw [hdrawn.marks_eq]
    exact hmark

theorem query_eq_map {α : Type} (f : Network → Stores → Except Fault (α × Stores))
    (g : StableAig) : Container.query f g =
      (f g.network g.stores).map fun r => (r.1, { g with stores := r.2 }) := by
  obtain ⟨graph, outputs, inputs, stores⟩ := g
  simp only [Container.query, network]
  cases f (networkOf graph) stores <;> rfl

theorem query_eq_ok {α : Type} {f : Network → Stores → Except Fault (α × Stores)} {a : α}
    (h : Container.query f g = .ok (a, g')) :
    ∃ stores, f g.network g.stores = .ok (a, stores) ∧ g' = { g with stores := stores } := by
  rw [query_eq_map] at h
  obtain ⟨⟨b, stores⟩, hf, heq⟩ := map_eq_ok_iff.1 h
  cases heq
  exact ⟨stores, hf, rfl⟩

/-- Queries keep the wiring. -/
theorem Wired.query (h : Complete T g) {q : ConeQuery} {root : Nat} {a : ConeAnswer}
    (hquery : Container.query (fun net s => q.run net root s) g = .ok (a, g')) : Complete T g' := by
  obtain ⟨stores, hrun, rfl⟩ := query_eq_ok hquery
  exact h.of_kept (q.run_kept h.closed h.closed_marks hrun)

/-- A gate over nodes that are present closes no cycle. -/
theorem Wired.acyclic_insert (h : Complete T g) (hacyclic : T.Acyclic) (hn : g.node? n = none)
    (hleft : g.Present left.node) (hright : g.Present right.node) :
    (T.insert n left right).Acyclic := by
  have hvacant : ¬ g.Present n := by
    rintro ⟨x, hx⟩
    rw [hn] at hx
    cases hx
  refine hacyclic.insert (fun u hu => hvacant (h.present_of_reads hu).2) ?_ ?_
  · exact fun heq => hvacant (heq ▸ hleft)
  · exact fun heq => hvacant (heq ▸ hright)

/-- Along a run the graph is wired by some of the gates that were made, without cycles. -/
theorem Reached.exists_complete (h : Reached made g) :
    ∃ T : GateTable, Complete T g ∧ T.Acyclic ∧ ∀ n p, T n = some p → made n = some p := by
  induction h with
  | empty => exact ⟨.empty, complete_empty, GateTable.acyclic_empty, fun _ _ hn => hn⟩
  | @ofAig aig g haig hcopy =>
    obtain ⟨g', hcopy', hcopies⟩ := exists_ofAig haig.sound
    cases hcopy.symm.trans hcopy'
    exact ⟨_, hcopies.complete, haig.shaped.acyclic, fun _ _ hn => hn⟩
  | addInput _ ih =>
    obtain ⟨T, hcomplete, hacyclic, hmade⟩ := ih
    exact ⟨T, hcomplete.addInput, hacyclic, hmade⟩
  | @addAnd made g g' left right e _ hleft hright hadd ih =>
    obtain ⟨T, hcomplete, hacyclic, hmade⟩ := ih
    obtain ⟨n, g'', hadd', hcomplete', hfresh⟩ :=
      hcomplete.exists_addAnd hleft hright (roomFor_of_addAnd hadd)
    cases hadd.symm.trans hadd'
    have hacyclic' := hcomplete.acyclic_insert hacyclic hfresh.vacant hleft hright
    refine ⟨T.insert n left right, hcomplete', hacyclic', fun m p hm => ?_⟩
    show made.insert n left right m = some p
    by_cases hmn : m = n
    · rw [hmn, GateTable.insert_self] at hm ⊢
      exact hm
    · rw [GateTable.insert_of_ne hmn] at hm ⊢
      exact hmade m p hm
  | addOutput e _ he hadd ih =>
    obtain ⟨T, hcomplete, hacyclic, hmade⟩ := ih
    exact ⟨T, hcomplete.addOutput he hadd, hacyclic, hmade⟩
  | @sweep made g g' removed _ hsweep ih =>
    obtain ⟨T, hcomplete, hacyclic, hmade⟩ := ih
    obtain ⟨doomed, g'', hsweep', hsheds, -⟩ := hcomplete.sweep hacyclic
    cases hsweep.symm.trans hsweep'
    refine ⟨T.erase doomed, hsheds.complete, hacyclic.erase doomed, fun m p hm => ?_⟩
    by_cases hmem : m ∈ doomed
    · rw [GateTable.erase_of_mem hmem] at hm
      cases hm
    · rw [GateTable.erase_of_not_mem hmem] at hm
      exact hmade m p hm
  | query _ hquery ih =>
    obtain ⟨T, hcomplete, hacyclic, hmade⟩ := ih
    exact ⟨T, hcomplete.query hquery, hacyclic, hmade⟩

/-- An input, and the slots of a gate and its arcs that a sweep has freed. -/
def swept : StableAig where
  graph := ⟨⟨#[some ⟨.const, [], []⟩, some ⟨.input 0, [], []⟩, none], [2]⟩,
    ⟨#[none, none], [0, 1]⟩⟩
  outputs := #[]
  inputs := 1
  stores := ⟨⟨#[0, 0, 0]⟩, ⟨2, #[0, 2, 2]⟩⟩

theorem reached_swept : Reached (GateTable.empty.insert 2 ⟨1, false⟩ ⟨1, true⟩) swept := by
  have hadd := Reached.empty.addInput.addAnd ⟨1, false⟩ ⟨1, true⟩ ⟨_, rfl⟩ ⟨_, rfl⟩ rfl
  exact hadd.sweep rfl

/-- The same graph with a gate in the freed slot that an output names, and a dead gate over it. -/
def reused : StableAig where
  graph := ⟨⟨#[some ⟨.const, [], []⟩, some ⟨.input 0, [3, 1, 0], []⟩, some ⟨.and 0 1, [2], [1, 0]⟩,
      some ⟨.and 2 3, [], [3, 2]⟩], []⟩,
    ⟨#[some ⟨1, 2, true⟩, some ⟨1, 2, false⟩, some ⟨2, 3, false⟩, some ⟨1, 3, false⟩], []⟩⟩
  outputs := #[⟨2, false⟩]
  inputs := 1
  stores := ⟨⟨#[0, 3, 2, 0]⟩, ⟨2, #[0, 2, 0, 0]⟩⟩

/-- The edges that the gates of `reused` were made from. -/
def reusedGates : GateTable :=
  ((GateTable.empty.insert 2 ⟨1, false⟩ ⟨1, true⟩).insert 2 ⟨1, true⟩ ⟨1, false⟩).insert 3
    ⟨2, false⟩ ⟨1, false⟩

theorem reached_reused : Reached reusedGates reused := by
  have hfirst := reached_swept.addAnd ⟨1, true⟩ ⟨1, false⟩ ⟨_, rfl⟩ ⟨_, rfl⟩ rfl
  have houtput := hfirst.addOutput ⟨2, false⟩ ⟨_, rfl⟩ rfl
  exact houtput.addAnd ⟨2, false⟩ ⟨1, false⟩ ⟨_, rfl⟩ ⟨_, rfl⟩ rfl

/-- How a graph is stored whose gates were made from the edges in `made`. -/
structure Stored (made : GateTable) (g : StableAig) : Prop where
  /-- A gate holds two arcs of its own, and reading its fanins gives the edges it was made from. -/
  gate : ∀ {n leftArc rightArc}, g.node? n = some (.and leftArc rightArc) →
    ∃ left right, made n = some (left, right) ∧ leftArc ≠ rightArc ∧
      g.graph.arcs.get? leftArc = some ⟨left.node, n, left.complement⟩ ∧
      g.graph.arcs.get? rightArc = some ⟨right.node, n, right.complement⟩ ∧
      g.fanin n 0 = .ok left ∧ g.fanin n 1 = .ok right
  /-- There are no other arcs. -/
  arc : ∀ {arc x}, g.graph.arcs.get? arc = some x → ∃ leftArc rightArc,
    g.node? x.target = some (.and leftArc rightArc) ∧ (arc = leftArc ∨ arc = rightArc)
  parents_eq : ∀ v, g.stores.counts.parents v = g.readings v + g.exports v
  vacant : ∀ v, g.node? v = none → g.stores.counts.parents v = 0
  lt_size : ∀ v, g.Present v → v < g.stores.counts.size

theorem Wired.stored (h : Complete T g) (hmade : ∀ n p, T n = some p → made n = some p) :
    Stored made g := by
  refine ⟨fun {n leftArc rightArc} hn => ?_, fun {b x} hx => ?_, h.parents_eq, fun v hv => ?_,
    fun v hv => h.lt_size hv⟩
  · obtain ⟨left, right, hT⟩ := (h.listed hn).resolve_left id
    obtain ⟨leftArc', rightArc', hn', hne, hleft, hright⟩ := h.gate hT
    obtain ⟨hfanin, hfanin'⟩ := h.fanin_eq hT
    cases hn.symm.trans hn'
    exact ⟨left, right, hmade n _ hT, hne, hleft, hright, hfanin, hfanin'⟩
  · obtain ⟨left, right, leftArc, rightArc, -, hn, hor⟩ := h.arc hx
    exact ⟨leftArc, rightArc, hn, hor⟩
  · apply h.parents_eq_zero
    rintro ⟨x, hx⟩
    rw [hv] at hx
    cases hx

/-- At every point of a run the arcs, the fanins and the counts agree with the edges that the gates
were made from, and a node that is added next starts without parents and unmarked, whether or not
its slot was used before. A gate can be added next over nodes that can get more parents. -/
theorem Reached.stored_and_fresh (h : Reached made g) :
    Stored made g ∧ Fresh g g.addInput.2 g.addInput.1.node ∧
      ∀ left right, g.Present left.node → g.Present right.node →
        g.stores.counts.RoomFor [left.node, right.node] →
        ∃ n g', g.addAnd left right = .ok (.ofNode n, g') ∧ Fresh g g' n := by
  obtain ⟨T, hcomplete, -, hmade⟩ := h.exists_complete
  refine ⟨hcomplete.stored hmade, hcomplete.fresh_addInput,
    fun left right hleft hright hroom => ?_⟩
  obtain ⟨n, g', hadd, -, hfresh⟩ := hcomplete.exists_addAnd hleft hright hroom
  exact ⟨n, g', hadd, hfresh⟩

theorem stored_and_fresh_reused :
    Stored reusedGates reused ∧ Fresh reused reused.addInput.2 reused.addInput.1.node ∧
      ∀ left right, reused.Present left.node → reused.Present right.node →
        reused.stores.counts.RoomFor [left.node, right.node] →
        ∃ n g', reused.addAnd left right = .ok (.ofNode n, g') ∧ Fresh reused g' n :=
  reached_reused.stored_and_fresh

/-- What a sweep of `g` leaves that has removed `removed` nodes. -/
structure Collected (g : StableAig) (removed : Nat) (g' : StableAig) : Prop where
  /-- The constant, the inputs and the gates that an output needs are present, and no others. -/
  present_iff : ∀ n, g'.Present n ↔
    g.node? n = some .const ∨ (∃ position, g.node? n = some (.input position)) ∨
      ∃ leftArc rightArc, g.node? n = some (.and leftArc rightArc) ∧ g.Needed n
  node?_eq : ∀ n, g'.Present n → g'.node? n = g.node? n
  site?_eq : ∀ n, g'.Present n → g'.network.site? n = g.network.site? n
  outputs_eq : g'.outputs = g.outputs
  parents_eq : ∀ v, g'.stores.counts.parents v = g'.readings v + g'.exports v
  removed_add : removed + g'.presentCount = g.presentCount
  /-- Another sweep finds nothing to remove. -/
  sweep_eq : g'.sweep = .ok (0, g')

/-- At every point of a run a sweep returns and is an exact collector of what no output needs. -/
theorem Reached.sweep_collects (h : Reached made g) :
    ∃ removed g', g.sweep = .ok (removed, g') ∧ Collected g removed g' := by
  obtain ⟨T, hcomplete, hacyclic, -⟩ := h.exists_complete
  obtain ⟨doomed, g', hsweep, hsheds, hnone⟩ := hcomplete.sweep hacyclic
  refine ⟨doomed.length, g', hsweep, fun n => hsheds.present_iff_needed hcomplete hacyclic hnone,
    fun n hn => ?_, fun n hn => hsheds.site?_eq hcomplete hn, ?_, hsheds.complete.parents_eq,
    hsheds.length_add_presentCount hcomplete, hsheds.complete.sweep_of_none_dead hnone⟩
  · rw [hsheds.node?_eq, if_neg ((hsheds.present_iff n).1 hn).1]
  · rw [hsheds.eq_without]
    rfl

theorem sweep_collects_reused :
    ∃ removed g', reused.sweep = .ok (removed, g') ∧ Collected reused removed g' :=
  reached_reused.sweep_collects

end FanoutCone.StableAig
