import FanoutCone.Proofs.StableNetwork

/-!
# Sweeping

Removing the cone of a dead gate sheds gates that nothing else consumes, and
afterwards the counts of the gates that stay are again those of the structure.
A gate dies with another one only if all its parents do, and a gate that was
dead before has none. So the dead gates found at the start stay dead until their
turn comes, and a gate that outlives the sweep has a parent.

In a graph without cycles that means that every gate left can be reached from an
output, and a gate that can be reached from an output is never shed.
-/
namespace FanoutCone.StableAig

variable {T : GateTable} {g g' g'' : StableAig} {doomed doomed' roots : List Nat}
variable {root n u v : Nat}

/-- What is left of a graph after gates that only shed gates consume were removed. -/
structure Sheds (T : GateTable) (g : StableAig) (doomed : List Nat) (g' : StableAig) : Prop
    extends Unneeded T g doomed where
  nodup : doomed.Nodup
  eq_without : g' = g.without doomed g'.stores
  complete : Complete (T.erase doomed) g'

/-- Whether a gate has no parents. -/
def DeadGate (T : GateTable) (g : StableAig) (v : Nat) : Prop :=
  (∃ left right, T v = some (left, right)) ∧ g.stores.counts.parents v = 0

namespace Sheds

theorem refl (h : Complete T g) : Sheds T g [] g where
  nodup := List.nodup_nil
  gates v hv := absurd hv List.not_mem_nil
  consumers v hv := absurd hv List.not_mem_nil
  exports v hv := absurd hv List.not_mem_nil
  eq_without := rfl
  complete := by
    rwa [GateTable.erase_nil]

theorem exports_eq (h : Sheds T g doomed g') (v : Nat) : g'.exports v = g.exports v := by
  rw [h.eq_without]
  rfl

theorem node?_eq (h : Sheds T g doomed g') (m : Nat) :
    g'.node? m = if m ∈ doomed then none else g.node? m := by
  rw [h.eq_without]
  exact node?_without g doomed _ m

theorem present_iff (h : Sheds T g doomed g') (m : Nat) :
    g'.Present m ↔ m ∉ doomed ∧ g.Present m := by
  rw [h.eq_without]
  exact present_without g doomed _ m

theorem trans (h : Sheds T g doomed g') (h' : Sheds (T.erase doomed) g' doomed' g'') :
    Sheds T g (doomed ++ doomed') g'' := by
  have hleft : ∀ v ∈ doomed', v ∉ doomed := by
    intro v hv hmem
    obtain ⟨left, right, hgate⟩ := h'.gates v hv
    rw [GateTable.erase_of_mem hmem] at hgate
    cases hgate
  refine ⟨⟨?_, ?_, ?_⟩, List.nodup_append.2 ⟨h.nodup, h'.nodup, ?_⟩, ?_, ?_⟩
  · intro v hv
    rcases List.mem_append.1 hv with hv | hv
    · exact h.gates v hv
    · obtain ⟨left, right, hgate⟩ := h'.gates v hv
      exact ⟨left, right, (GateTable.erase_of_not_mem (hleft v hv)).symm.trans hgate⟩
  · intro v hv u huv
    rcases List.mem_append.1 hv with hv | hv
    · exact List.mem_append_left _ (h.consumers v hv u huv)
    · by_cases hu : u ∈ doomed
      · exact List.mem_append_left _ hu
      · exact List.mem_append_right _ (h'.consumers v hv u (huv.erase hu))
  · intro v hv
    rcases List.mem_append.1 hv with hv | hv
    · exact h.exports v hv
    · rw [← h.exports_eq]
      exact h'.exports v hv
  · rintro v hv w hw rfl
    exact hleft v hw hv
  · have hnext := h'.eq_without
    rw [h.eq_without] at hnext
    rw [hnext]
    simp only [without, List.foldl_append]
  · rw [← GateTable.erase_erase]
    exact h'.complete

/-- The nodes removed are those by which the number of nodes drops. -/
theorem length_add_presentCount (h : Sheds T g doomed g') (hg : Complete T g) :
    doomed.length + g'.presentCount = g.presentCount := by
  have hperm : (doomed ++ g'.graph.vertexIndices).Perm g.graph.vertexIndices := by
    refine (List.perm_ext_iff_of_nodup ?_ g.graph.nodup_vertexIndices).2 fun v => ?_
    · refine List.nodup_append.2 ⟨h.nodup, g'.graph.nodup_vertexIndices, ?_⟩
      rintro v hv w hw rfl
      exact ((h.present_iff v).1 (Digraph.mem_vertexIndices.1 hw)).1 hv
    · rw [List.mem_append, Digraph.mem_vertexIndices, Digraph.mem_vertexIndices]
      show v ∈ doomed ∨ g'.Present v ↔ g.Present v
      rw [h.present_iff]
      constructor
      · rintro (hv | hv)
        · obtain ⟨left, right, hgate⟩ := h.gates v hv
          exact (hg.present_of_gate hgate).1
        · exact hv.2
      · intro hv
        by_cases hmem : v ∈ doomed
        · exact Or.inl hmem
        · exact Or.inr ⟨hmem, hv⟩
  have hlength := hperm.length_eq
  rw [List.length_append] at hlength
  unfold presentCount
  rw [SlotArena.count_eq_length_occupied, SlotArena.count_eq_length_occupied]
  exact hlength

/-- A node that stays keeps its fanins. -/
theorem site?_eq (h : Sheds T g doomed g') (hg : Complete T g) (hn : g'.Present n) :
    g'.network.site? n = g.network.site? n := by
  have hnot := ((h.present_iff n).1 hn).1
  have hnode : g'.node? n = g.node? n := by rw [h.node?_eq, if_neg hnot]
  cases hT : T n with
  | some p =>
    obtain ⟨left, right⟩ := p
    rw [hg.site?_of_gate hT,
      h.complete.site?_of_gate ((GateTable.erase_of_not_mem hnot).trans hT)]
  | none =>
    obtain ⟨node, hx⟩ := hn
    have hx' : g.node? n = some node := hnode.symm.trans hx
    have hempty : node.fanins = [] := by
      cases node with
      | const => rfl
      | input position => rfl
      | and leftArc rightArc =>
        rcases hg.listed hx' with hpending | ⟨left, right, hgate⟩
        · exact hpending.elim
        · rw [hT] at hgate
          cases hgate
    show (g'.node? n).map _ = (g.node? n).map _
    rw [hx, hx', Option.map_some, Option.map_some, hempty]
    rfl

end Sheds

/-- What a dereference of a gate passes: the gate, and every node all of whose parents are passed
gates. -/
theorem Wired.mem_passed_iff (h : Complete T g) (hacyclic : T.Acyclic) {t : Trail}
    {traversal : Traversal}
    (hwalk : walk g.network .all traversal .dereference root g.stores.counts = .ok t) :
    v ∈ t.passed ↔ g.network.Internal v ∧ (v = root ∨ g.exports v = 0 ∧
      (∃ u, T.Reads u v) ∧ ∀ u, T.Reads u v → u ∈ t.passed) := by
  rw [mem_passed_iff_of_consistent h.consistent h.closed (h.acyclic hacyclic) hwalk]
  refine and_congr_right fun _ => or_congr_right (and_congr_right fun _ => and_congr ?_ ?_)
  · apply exists_congr
    intro u
    rw [← h.reads_iff, Network.reads_iff_consumes]
  · apply forall_congr'
    intro u
    rw [← h.reads_iff, Network.reads_iff_consumes]
    constructor
    · rintro hall ⟨e, hconsumes, hnode⟩
      exact (hall e hconsumes hnode).2
    · intro hall e hconsumes hnode
      exact ⟨nofun, hall ⟨e, hconsumes, hnode⟩⟩

/-- How a cone is removed: what the dereference passes is collected, and all of it but the constant
is removed. -/
theorem Wired.removeCone_eq (h : Complete T g) (hacyclic : T.Acyclic)
    (hroot : g.network.Internal root) :
    ∃ (t : Trail) (doomed : List Nat) (stores : Stores),
      walk g.network .all .iterative .dereference root g.stores.counts = .ok t ∧ doomed.Nodup ∧
      (∀ v, v ∈ doomed ↔ v ∈ t.passed ∧ v ≠ 0) ∧ stores.counts = t.counts ∧
      g.stores.marks.Evolves stores.marks ∧
      g.removeCone root = .ok (doomed.length, g.without doomed stores) := by
  have haccounted := h.consistent.accounted h.closed
  obtain ⟨t, hwalk⟩ := exists_walk_of_accounted haccounted h.closed (h.acyclic hacyclic)
    hroot.present .all .iterative
  let w : CountingWalk := { traversal := .iterative }
  obtain ⟨s₁, hrun⟩ :
      ∃ s₁, w.run .dereference g.network root g.stores = .ok (t.passed.length, s₁) :=
    CountingWalk.exists_run h.closed_marks hwalk
  obtain ⟨t', hwalk', -, hcounts₁, hmarks₁⟩ := CountingWalk.run_eq_ok hrun
  obtain rfl : t = t' := Except.ok.inj (hwalk.symm.trans hwalk')
  obtain ⟨houtcome, -, hsize⟩ := walk_eq_ok hwalk
  obtain ⟨found, s₂, hcollect, hkept⟩ := exists_collectCone (s := s₁) none .iterative
    (by rw [hcounts₁, hsize]; exact h.closed) (by rw [hmarks₁.size_eq]; exact h.closed_marks)
    hroot.present
  have hperm := collectFrom_perm_passed haccounted h.closed (h.acyclic hacyclic) hroot hwalk
    hcounts₁ (hmarks₁.bounded h.bounded) (collectCone_eq_ok hroot hcollect)
  have hnodup : found.nodes.Nodup := hperm.nodup_iff.2 (houtcome.legal.nodup (h.acyclic hacyclic))
  refine ⟨t, found.nodes.filter (· ≠ 0), s₂, hwalk, hnodup.filter _, fun v => ?_,
    hkept.counts_eq.trans hcounts₁, hmarks₁.trans hkept.evolves, ?_⟩
  · rw [List.mem_filter, hperm.mem_iff, decide_eq_true_eq]
  · obtain ⟨graph, outputs, inputs, stores⟩ := g
    show (w.run .dereference (networkOf graph) root stores >>= _) = _
    change w.run .dereference (networkOf graph) root stores = _ at hrun
    change collectCone none .iterative (networkOf graph) root s₁ = _ at hcollect
    rw [hrun, ok_bind]
    dsimp only
    rw [hcollect]
    rfl

theorem Wired.ne_zero_of_gate (h : Complete T g) {left right : Edge}
    (hT : T n = some (left, right)) : n ≠ 0 := by
  rintro rfl
  obtain ⟨leftArc, rightArc, hnode, -⟩ := h.gate hT
  rw [(h.const_iff 0).2 rfl] at hnode
  cases hnode

/-- A node has no parents exactly when no gate reads it and no output names it. -/
theorem Wired.parents_eq_zero_iff (h : Complete T g) :
    g.stores.counts.parents v = 0 ↔ (∀ u, ¬ T.Reads u v) ∧ g.exports v = 0 := by
  have hcounts := h.counts v
  have huses : T.uses g.stores.counts.size v = 0 ↔ ∀ u, ¬ T.Reads u v := by
    constructor
    · intro hzero u hread
      have hlt := h.lt_size (h.present_of_reads hread).1
      have hpos := GateTable.uses_pos_iff.2 ⟨u, hlt, hread⟩
      omega
    · intro hnone
      apply Nat.eq_zero_of_not_pos
      intro hpos
      obtain ⟨u, -, hread⟩ := GateTable.uses_pos_iff.1 hpos
      exact hnone u hread
  rw [← huses]
  omega

/-- What nodes use is used by the gates among them; the constant uses nothing. -/
theorem Wired.uses_eq_sum (h : Complete T g) {passed : List Nat} (hpassed : passed.Nodup)
    (hmem : ∀ u, u ∈ doomed ↔ u ∈ passed ∧ u ≠ 0) (v : Nat) :
    g.network.uses .all passed v = ∑ u ∈ doomed.toFinset, (T.sources u).count v := by
  have hsub : doomed.toFinset ⊆ passed.toFinset := fun u hu =>
    List.mem_toFinset.2 ((hmem u).1 (List.mem_toFinset.1 hu)).1
  rw [Network.uses_eq_sum hpassed, Finset.sum_subset hsub fun u hu hnot => ?_]
  · exact Finset.sum_congr rfl fun u _ => by rw [h.sources_eq]
  · have hzero : u = 0 := by
      by_contra hne
      exact hnot (List.mem_toFinset.2 ((hmem u).2 ⟨List.mem_toFinset.1 hu, hne⟩))
    have hnone : T u = none := by
      cases hT : T u with
      | none => rfl
      | some p => exact absurd hzero (h.ne_zero_of_gate hT)
    rw [GateTable.sources_of_none hnone, List.count_nil]

/-- Removing the cone of a dead gate sheds the gate, and every gate that only shed gates and no
output consume. -/
theorem Wired.exists_shed (h : Complete T g) (hacyclic : T.Acyclic) (hroot : DeadGate T g root) :
    ∃ doomed g', g.removeCone root = .ok (doomed.length, g') ∧ Sheds T g doomed g' ∧
      (∀ v ∈ doomed, v = root ∨ ∃ u, T.Reads u v) ∧ root ∈ doomed ∧
      ∀ v, (∃ left right, T v = some (left, right)) → g.exports v = 0 → (∃ u, T.Reads u v) →
        (∀ u, T.Reads u v → u ∈ doomed) → v ∈ doomed := by
  obtain ⟨⟨left, right, hgate⟩, hdead⟩ := hroot
  obtain ⟨hunread, hunexported⟩ := h.parents_eq_zero_iff.1 hdead
  have hinternal := h.internal_of_gate hgate
  obtain ⟨t, doomed, stores, hwalk, hnodup, hmem, hcounts, hmarks, hremove⟩ :=
    h.removeCone_eq hacyclic hinternal
  obtain ⟨houtcome, hmoved, hsize⟩ := walk_eq_ok hwalk
  have hpassed : ∀ v, v ∈ t.passed ↔ _ := fun v => h.mem_passed_iff hacyclic hwalk
  have hunneeded : Unneeded T g doomed := by
    refine ⟨fun v hv => ?_, fun v hv u huv => ?_, fun v hv => ?_⟩
    · obtain ⟨hv, hzero⟩ := (hmem v).1 hv
      exact h.gate_of_internal ((hpassed v).1 hv).1 hzero
    · obtain ⟨left, right, hu⟩ := huv.exists_gate
      rcases ((hpassed v).1 ((hmem v).1 hv).1).2 with rfl | ⟨-, -, hall⟩
      · exact absurd huv (hunread u)
      · exact (hmem u).2 ⟨hall u huv, h.ne_zero_of_gate hu⟩
    · rcases ((hpassed v).1 ((hmem v).1 hv).1).2 with rfl | ⟨hexports, -⟩
      · exact hunexported
      · exact hexports
  have hparents : ∀ v, stores.counts.parents v + ∑ u ∈ doomed.toFinset, (T.sources u).count v =
      g.stores.counts.parents v := by
    intro v
    have hv := hmoved v
    rw [h.uses_eq_sum (houtcome.legal.nodup (h.acyclic hacyclic)) hmem] at hv
    rw [hcounts]
    exact hv
  have hcomplete := h.without hunneeded (by rw [hcounts, hsize]) hparents hmarks
  refine ⟨doomed, g.without doomed stores, hremove, ⟨hunneeded, hnodup, rfl, hcomplete⟩,
    fun v hv => ?_, ?_, fun v ⟨left, right, hv⟩ hexports hread hall => ?_⟩
  · rcases ((hpassed v).1 ((hmem v).1 hv).1).2 with heq | ⟨-, hread, -⟩
    · exact Or.inl heq
    · exact Or.inr hread
  · exact (hmem root).2 ⟨(hpassed root).2 ⟨hinternal, Or.inl rfl⟩, h.ne_zero_of_gate hgate⟩
  · have hpass : v ∈ t.passed := (hpassed v).2 ⟨h.internal_of_gate hv,
      Or.inr ⟨hexports, hread, fun u hu => ((hmem u).1 (hall u hu)).1⟩⟩
    exact (hmem v).2 ⟨hpass, h.ne_zero_of_gate hv⟩

/-- Removing the cone of a dead gate makes no other gate dead or alive. -/
theorem Wired.removeCone (h : Complete T g) (hacyclic : T.Acyclic) (hroot : DeadGate T g root) :
    ∃ doomed g', g.removeCone root = .ok (doomed.length, g') ∧ Sheds T g doomed g' ∧
      ∀ v, DeadGate (T.erase doomed) g' v ↔ v ≠ root ∧ DeadGate T g v := by
  obtain ⟨doomed, g', hremove, hsheds, hread, hmem, hall⟩ := h.exists_shed hacyclic hroot
  refine ⟨doomed, g', hremove, hsheds, fun v => ?_⟩
  constructor
  · rintro ⟨⟨left, right, hv⟩, hdead⟩
    have hnot : v ∉ doomed := by
      intro hv'
      rw [GateTable.erase_of_mem hv'] at hv
      cases hv
    rw [GateTable.erase_of_not_mem hnot] at hv
    obtain ⟨hunread, hexports⟩ := hsheds.complete.parents_eq_zero_iff.1 hdead
    rw [hsheds.exports_eq] at hexports
    refine ⟨fun heq => hnot (heq ▸ hmem), ⟨left, right, hv⟩, h.parents_eq_zero_iff.2 ?_⟩
    refine ⟨fun u huv => hnot (hall v ⟨left, right, hv⟩ hexports ⟨u, huv⟩ fun w hwv => ?_),
      hexports⟩
    by_contra hw
    exact hunread w (hwv.erase hw)
  · rintro ⟨hne, ⟨left, right, hv⟩, hdead⟩
    obtain ⟨hunread, hexports⟩ := h.parents_eq_zero_iff.1 hdead
    have hnot : v ∉ doomed := by
      intro hv'
      rcases hread v hv' with heq | ⟨u, huv⟩
      · exact hne heq
      · exact hunread u huv
    refine ⟨⟨left, right, (GateTable.erase_of_not_mem hnot).trans hv⟩, ?_⟩
    rw [hsheds.complete.parents_eq_zero_iff, hsheds.exports_eq]
    exact ⟨fun u hu => hunread u hu.of_erase.2, hexports⟩

/-- Removing one dead root after another, as a sweep does. -/
def removeCones (removed : Nat) (g : StableAig) (roots : List Nat) :
    Except Fault (Nat × StableAig) :=
  roots.foldlM
    (fun (removed, g) root => do
      let (k, g) ← g.removeCone root
      return (removed + k, g))
    (removed, g)

theorem removeCones_cons (removed : Nat) (g : StableAig) (root : Nat) (roots : List Nat) :
    removeCones removed g (root :: roots) =
      (g.removeCone root >>= fun r => removeCones (removed + r.1) r.2 roots) := by
  unfold removeCones
  rw [List.foldlM_cons]
  cases h : g.removeCone root with
  | error fault => simp [h]
  | ok result => simp [h]

/-- Removing the dead gates in turn sheds them and leaves no dead gate. -/
theorem Wired.removeCones (h : Complete T g) (hacyclic : T.Acyclic) (hnodup : roots.Nodup)
    (hroots : ∀ v, v ∈ roots ↔ DeadGate T g v) (removed : Nat) :
    ∃ doomed g', StableAig.removeCones removed g roots = .ok (removed + doomed.length, g') ∧
      Sheds T g doomed g' ∧ ∀ v, ¬ DeadGate (T.erase doomed) g' v := by
  induction roots generalizing T g removed with
  | nil =>
    have hnone : ∀ v, ¬ DeadGate (T.erase []) g v := by
      intro v hv
      rw [GateTable.erase_nil, ← hroots v] at hv
      cases hv
    exact ⟨[], g, rfl, .refl h, hnone⟩
  | cons root roots ih =>
    obtain ⟨hnot, hnodup⟩ := List.nodup_cons.1 hnodup
    obtain ⟨doomed, g₁, hremove, hsheds, hdead⟩ :=
      h.removeCone hacyclic ((hroots root).1 List.mem_cons_self)
    -- The gates still dead are those whose turn is yet to come.
    have hroots₁ : ∀ v, v ∈ roots ↔ DeadGate (T.erase doomed) g₁ v := by
      intro v
      rw [hdead, ← hroots, List.mem_cons]
      constructor
      · exact fun hv => ⟨fun heq => hnot (heq ▸ hv), Or.inr hv⟩
      · rintro ⟨hne, heq | hv⟩
        · exact absurd heq hne
        · exact hv
    obtain ⟨doomed', g', hrest, hsheds', hnone⟩ :=
      ih hsheds.complete (hacyclic.erase doomed) hnodup hroots₁ (removed + doomed.length)
    have hsheds₂ := hsheds.trans hsheds'
    refine ⟨doomed ++ doomed', g', ?_, hsheds₂, by rwa [← GateTable.erase_erase]⟩
    rw [removeCones_cons, hremove, ok_bind, hrest, List.length_append, Nat.add_assoc]

/-- The roots of a sweep are the dead gates. -/
theorem Wired.mem_roots_iff (h : Complete T g) :
    v ∈ g.graph.vertexIndices.filter g.isDead ↔ DeadGate T g v := by
  rw [List.mem_filter, Digraph.mem_vertexIndices]
  constructor
  · rintro ⟨⟨node, hnode⟩, hdead⟩
    change g.node? v = some node at hnode
    simp only [isDead, hnode, Option.map_some, Option.getD_some, Bool.and_eq_true,
      beq_iff_eq] at hdead
    cases node with
    | const => cases hdead.1
    | input position => cases hdead.1
    | and leftArc rightArc => exact ⟨(h.listed hnode).resolve_left id, hdead.2⟩
  · rintro ⟨⟨left, right, hgate⟩, hdead⟩
    obtain ⟨leftArc, rightArc, hnode, -⟩ := h.gate hgate
    refine ⟨⟨_, hnode⟩, ?_⟩
    simp [isDead, hnode, StableNode.isAnd, hdead]

/-- A sweep ends, sheds gates and leaves no dead gate. -/
theorem Wired.sweep (h : Complete T g) (hacyclic : T.Acyclic) :
    ∃ doomed g', g.sweep = .ok (doomed.length, g') ∧ Sheds T g doomed g' ∧
      ∀ v, ¬ DeadGate (T.erase doomed) g' v := by
  obtain ⟨doomed, g', hsweep, hsheds, hnone⟩ := h.removeCones hacyclic
    (g.graph.nodup_vertexIndices.filter g.isDead) (fun v => h.mem_roots_iff) 0
  rw [Nat.zero_add] at hsweep
  exact ⟨doomed, g', hsweep, hsheds, hnone⟩

/-- Where no gate is dead, a sweep does nothing. -/
theorem Wired.sweep_of_none_dead (h : Complete T g) (hnone : ∀ v, ¬ DeadGate T g v) :
    g.sweep = .ok (0, g) := by
  have hroots : g.graph.vertexIndices.filter g.isDead = [] := by
    rw [List.eq_nil_iff_forall_not_mem]
    exact fun v hv => hnone v (h.mem_roots_iff.1 hv)
  unfold StableAig.sweep
  dsimp only
  rw [hroots]
  rfl

/-- Whether a node can be reached from an output by following fanins. -/
def Needed (g : StableAig) (n : Nat) : Prop :=
  ∃ e ∈ g.outputs, Relation.ReflTransGen g.network.Reads e.node n

theorem exports_pos_iff : 0 < g.exports n ↔ ∃ e ∈ g.outputs, e.node = n := by
  unfold exports
  rw [List.count_pos_iff, List.mem_map]
  simp only [Array.mem_toList_iff]

/-- What an output needs is never shed. -/
theorem Sheds.not_mem_of_needed (h : Sheds T g doomed g') (hg : Complete T g)
    (hn : g.Needed n) : n ∉ doomed := by
  obtain ⟨e, he, hpath⟩ := hn
  induction hpath with
  | refl =>
    intro hmem
    have hpos := exports_pos_iff.2 ⟨e, he, rfl⟩
    have hzero := h.exports e.node hmem
    omega
  | @tail u w _ hread ih =>
    intro hmem
    exact ih (h.consumers w hmem u (hg.reads_iff.1 hread))

theorem Sheds.needed_of_needed (h : Sheds T g doomed g') (hg : Complete T g) (hn : g'.Needed n) :
    g.Needed n := by
  obtain ⟨e, he, hpath⟩ := hn
  rw [h.eq_without] at he
  have hreads : ∀ u v, g'.network.Reads u v → g.network.Reads u v := fun u v huv =>
    hg.reads_iff.2 (h.complete.reads_iff.1 huv).of_erase.2
  exact ⟨e, he, Relation.ReflTransGen.mono hreads _ _ hpath⟩

/-- Where no gate is dead, every gate is needed by an output. -/
theorem Wired.needed_of_none_dead (h : Complete T g) (hacyclic : T.Acyclic)
    (hnone : ∀ v, ¬ DeadGate T g v) {left right : Edge} (hn : T n = some (left, right)) :
    g.Needed n := by
  induction n using (h.closed.wellFounded_reads (h.acyclic hacyclic)).induction
    generalizing left right with
  | h n ih =>
    have hpos : ¬ g.stores.counts.parents n = 0 := fun hzero => hnone n ⟨⟨left, right, hn⟩, hzero⟩
    rw [h.parents_eq_zero_iff, not_and_or, not_forall] at hpos
    rcases hpos with ⟨u, hread⟩ | hexports
    · rw [not_not] at hread
      obtain ⟨left', right', hu⟩ := hread.exists_gate
      obtain ⟨e, he, hpath⟩ := ih u (h.reads_iff.2 hread) hu
      exact ⟨e, he, hpath.tail (h.reads_iff.2 hread)⟩
    · obtain ⟨e, he, rfl⟩ := exports_pos_iff.1 (Nat.pos_of_ne_zero hexports)
      exact ⟨e, he, .refl⟩

/-- What is present after a sweep: all that is no gate, and the gates that an output needs. -/
theorem Sheds.present_iff_needed (h : Sheds T g doomed g') (hg : Complete T g)
    (hacyclic : T.Acyclic) (hnone : ∀ v, ¬ DeadGate (T.erase doomed) g' v) :
    g'.Present n ↔ g.node? n = some .const ∨ (∃ position, g.node? n = some (.input position)) ∨
      ∃ leftArc rightArc, g.node? n = some (.and leftArc rightArc) ∧ g.Needed n := by
  have hstays : ∀ {node}, g.node? n = some node → node.isAnd = false → n ∉ doomed := by
    intro node hn hand hmem
    obtain ⟨left, right, hT⟩ := h.gates n hmem
    obtain ⟨leftArc, rightArc, hgate, -⟩ := hg.gate hT
    cases hn.symm.trans hgate
    cases hand
  rw [h.present_iff]
  constructor
  · rintro ⟨hnot, node, hn⟩
    cases node with
    | const => exact Or.inl hn
    | input position => exact Or.inr (Or.inl ⟨position, hn⟩)
    | and leftArc rightArc =>
      obtain ⟨left, right, hT⟩ := (hg.listed hn).resolve_left id
      have hneeded := h.complete.needed_of_none_dead (hacyclic.erase doomed) hnone
        ((GateTable.erase_of_not_mem hnot).trans hT)
      exact Or.inr (Or.inr ⟨leftArc, rightArc, hn, h.needed_of_needed hg hneeded⟩)
  · rintro (hn | ⟨position, hn⟩ | ⟨leftArc, rightArc, hn, hneeded⟩)
    · exact ⟨hstays hn rfl, _, hn⟩
    · exact ⟨hstays hn rfl, _, hn⟩
    · exact ⟨h.not_mem_of_needed hg hneeded, _, hn⟩

end FanoutCone.StableAig
