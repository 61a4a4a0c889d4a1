import Mathlib.Order.Bounds.Defs
import Mathlib.Tactic.IntervalCases
import FanoutCone.Proofs.Consistency
import FanoutCone.Proofs.Queries

/-!
# Maximum fanout-free cones

Counts are consistent when each is the number of fanin edges from the node and
of further parents outside the structure. A set of internal nodes is free of
fanout below a root when all parents of its other nodes are in it: edges that
the filter keeps, at least one for each node, and none outside the structure.

In a closed network without cycles there is a greatest such set. It is what a
dereference passes, and so what the cone of the root lists and its size counts.
-/
namespace FanoutCone

namespace Network

/-- Each present node has one parent for every fanin edge from it, and `ext` parents more. -/
def Consistent (net : Network) (counts : FanoutCounts) (ext : Nat → Nat) : Prop :=
  ∀ v, net.Present v → counts.parents v = net.uses .all (Multiset.range counts.size) v + ext v

/-- A set of internal nodes in which all parents of every node but the root lie, by kept edges. -/
structure FanoutFree (net : Network) (filter : EdgeFilter) (ext : Nat → Nat) (root : Nat)
    (S : Set Nat) : Prop where
  internal : ∀ v ∈ S, net.Internal v
  root_mem : root ∈ S
  unexported : ∀ v ∈ S, v ≠ root → ext v = 0
  consumed : ∀ v ∈ S, v ≠ root → ∃ u e, net.Consumes u e ∧ e.node = v
  enclosed : ∀ v ∈ S, v ≠ root → ∀ u e, net.Consumes u e → e.node = v →
    (filter = .uncomplemented → e.complement = false) ∧ u ∈ S

variable {net : Network} {counts : FanoutCounts} {ext : Nat → Nat}

theorem Consistent.accounted (h : net.Consistent counts ext) (hclosed : net.Closed counts.size) :
    net.Accounted counts := by
  intro v
  rcases Nat.eq_zero_or_pos (net.uses .all (Multiset.range counts.size) v) with hzero | hpos
  · omega
  · obtain ⟨u, -, hreads⟩ := uses_pos_iff.1 hpos
    have hv := h v (hclosed.present_of_reads hreads)
    omega

end Network

/-- A table has no cycles when every row names earlier rows only. -/
theorem FaninTable.acyclic_networkOf {rows : Array Site}
    (h : ∀ u < rows.size, ∀ v ∈ (networkOf rows).sources .all u, v < u) :
    (networkOf rows).Acyclic := by
  have hreads : ∀ u v, (networkOf rows).Reads u v → v < u := by
    intro u v hv
    obtain ⟨site, hsite, -⟩ := hv.internal
    exact h u (Array.getElem?_eq_some_iff.1 hsite).1 v hv
  intro v hv
  have hlt : ∀ w, Relation.TransGen (networkOf rows).Reads v w → w < v := by
    intro w hw
    induction hw with
    | single hread => exact hreads _ _ hread
    | tail _ hread ih => exact (hreads _ _ hread).trans ih
  exact Nat.lt_irrefl v (hlt v hv)

section
variable {net : Network} {filter : EdgeFilter} {traversal : Traversal} {root : Nat}
variable {counts : FanoutCounts} {ext : Nat → Nat} {t : Trail}

/-- Which nodes a dereference passes: the root, and every internal node all of whose parents are
kept edges to nodes passed. -/
theorem mem_passed_iff_of_consistent (hconsistent : net.Consistent counts ext)
    (hclosed : net.Closed counts.size) (hacyclic : net.Acyclic)
    (hwalk : walk net filter traversal .dereference root counts = .ok t) {v : Nat} :
    v ∈ t.passed ↔ net.Internal v ∧ (v = root ∨ ext v = 0 ∧
      (∃ u e, net.Consumes u e ∧ e.node = v) ∧
      ∀ u e, net.Consumes u e → e.node = v →
        (filter = .uncomplemented → e.complement = false) ∧ u ∈ t.passed) := by
  have houtcome := (walk_eq_ok hwalk).1
  have hnodup := houtcome.legal.nodup hacyclic
  have hinternal : ∀ u ∈ t.passed, net.Internal u := fun u hu => houtcome.legal.internal_of_mem hu
  rw [houtcome.mem_iff]
  refine and_congr_right fun hv => or_congr_right ?_
  refine Direction.flips_dereference_iff.trans ?_
  show 0 < counts.parents v ∧ counts.parents v ≤ net.uses filter t.passed v ↔ _
  rw [← Network.uses_eq_all_iff hnodup (fun u hu => hclosed.lt_of_internal (hinternal u hu))
    hclosed]
  have hparents := hconsistent v hv.present
  have hle : net.uses filter t.passed v ≤ net.uses .all (Multiset.range counts.size) v := by
    refine (Network.uses_le_all _ v).trans (Network.uses_mono ?_ v)
    rw [Multiset.le_iff_subset (Multiset.coe_nodup.2 hnodup)]
    intro u hu
    exact Multiset.mem_range.2 (hclosed.lt_of_internal (hinternal u (Multiset.mem_coe.1 hu)))
  have hconsumed : (∃ u e, net.Consumes u e ∧ e.node = v) ↔
      0 < net.uses .all (Multiset.range counts.size) v := by
    rw [Network.uses_pos_iff]
    constructor
    · rintro ⟨u, e, hconsumes, hnode⟩
      have hreads : net.Reads u v := Network.reads_iff_consumes.2 ⟨e, hconsumes, hnode⟩
      exact ⟨u, Multiset.mem_range.2 (hclosed.lt_of_internal hreads.internal), hreads⟩
    · rintro ⟨u, -, hreads⟩
      obtain ⟨e, he⟩ := Network.reads_iff_consumes.1 hreads
      exact ⟨u, e, he⟩
  rw [hconsumed]
  omega

/-- The nodes that a dereference passes are the greatest set that is free of fanout. -/
theorem isGreatest_passed (hconsistent : net.Consistent counts ext)
    (hclosed : net.Closed counts.size) (hacyclic : net.Acyclic) (hroot : net.Internal root)
    (hwalk : walk net filter traversal .dereference root counts = .ok t) :
    IsGreatest {S | net.FanoutFree filter ext root S} {v | v ∈ t.passed} := by
  have hmem : ∀ v, v ∈ t.passed ↔ _ := fun v =>
    mem_passed_iff_of_consistent hconsistent hclosed hacyclic hwalk
  constructor
  · refine ⟨fun v hv => ((hmem v).1 hv).1, (hmem root).2 ⟨hroot, Or.inl rfl⟩, ?_, ?_, ?_⟩
    · intro v hv hne
      exact (((hmem v).1 hv).2.resolve_left hne).1
    · intro v hv hne
      exact (((hmem v).1 hv).2.resolve_left hne).2.1
    · intro v hv hne
      exact (((hmem v).1 hv).2.resolve_left hne).2.2
  · intro S hS v hv
    -- By induction from the root down: the consumers of a node come before it.
    induction v using (hclosed.wellFounded_reads hacyclic).induction with
    | h v ih =>
      refine (hmem v).2 ⟨hS.internal v hv, ?_⟩
      by_cases hne : v = root
      · exact Or.inl hne
      · refine Or.inr ⟨hS.unexported v hv hne, hS.consumed v hv hne, fun u e hconsumes hnode => ?_⟩
        obtain ⟨hkeep, hu⟩ := hS.enclosed v hv hne u e hconsumes hnode
        exact ⟨hkeep, ih u (Network.reads_iff_consumes.2 ⟨e, hconsumes, hnode⟩) hu⟩

end

/-- In an acyclic network with consistent counts the cone of a node, collected without a cut limit,
is the greatest set free of fanout below the node, for every filter and traversal, and its length
is the size under the same settings. -/
theorem maximumCone_isGreatest {net : Network} {s : Stores} {settings : ConeSettings} {root : Nat}
    {site : Site} {ext : Nat → Nat} (hcounts : net.Closed s.counts.size)
    (hmarks : net.Closed s.marks.size) (hbounded : s.marks.Bounded) (hacyclic : net.Acyclic)
    (hconsistent : net.Consistent s.counts ext) (hroot : net.site? root = some site)
    (hcone : site.hasCone = true) (hcut : settings.cutLimit = none) :
    ∃ found s₁ s₂, maximumCone settings net root s = .ok (found, s₁) ∧
      IsGreatest {S | net.FanoutFree settings.filter ext root S} {v | v ∈ found.nodes} ∧
      coneSizeWith settings net root s = .ok (found.nodes.length, s₂) := by
  have hinternal : net.Internal root := by
    refine ⟨site, hroot, ?_⟩
    simp only [Site.hasCone, Bool.and_eq_true, beq_iff_eq] at hcone
    exact hcone.1
  have haccounted := hconsistent.accounted hcounts
  obtain ⟨t, hwalk⟩ := exists_walk_of_accounted haccounted hcounts hacyclic ⟨site, hroot⟩
    settings.filter settings.traversal
  obtain ⟨found, s₁, hfound, -⟩ := exists_maximumCone hcounts hmarks ⟨site, hroot⟩ hwalk
  have hperm : found.nodes.Perm t.passed := by
    obtain ⟨t', s', s'', hwalk', hcounts', hevolves, hcollect⟩ :=
      maximumCone_eq_ok hroot hcone hfound
    obtain rfl : t = t' := Except.ok.inj (hwalk.symm.trans hwalk')
    rw [hcut] at hcollect
    exact collectFrom_perm_passed haccounted hcounts hacyclic hinternal hwalk hcounts'
      (hevolves.bounded hbounded) (collectCone_eq_ok hinternal hcollect)
  obtain ⟨s₂, hsize, -⟩ := exists_sizeByWalk (w := settings.walk) hcounts hmarks hroot hwalk
  refine ⟨found, s₁, s₂, hfound, ?_, ?_⟩
  · have hsame : {v | v ∈ found.nodes} = {v | v ∈ t.passed} := Set.ext fun v => hperm.mem_iff
    rw [hsame]
    exact isGreatest_passed hconsistent hcounts hacyclic hinternal hwalk
  · rw [if_pos hcone, ← hperm.length_eq] at hsize
    exact hsize

/-- Two gates over a gate that both of them read, in both polarities, and a node read by nothing. -/
def reconvergent : FaninTable :=
  .ofRows [(.internal, []), (.leaf, []), (.internal, [⟨1, false⟩, ⟨0, true⟩]),
    (.internal, [⟨2, false⟩, ⟨2, true⟩]), (.internal, [⟨3, true⟩, ⟨2, false⟩])] [1, 1, 3, 1, 1]

theorem maximumCone_isGreatest_reconvergent :
    ∃ found s₁ s₂,
      maximumCone { traversal := .iterative } (FaninTable.networkOf reconvergent.rows) 4
        reconvergent.stores = .ok (found, s₁) ∧
      IsGreatest {S | (FaninTable.networkOf reconvergent.rows).FanoutFree .all
        (fun v => if v = 4 then 1 else 0) 4 S} {v | v ∈ found.nodes} ∧
      coneSizeWith { traversal := .iterative } (FaninTable.networkOf reconvergent.rows) 4
        reconvergent.stores = .ok (found.nodes.length, s₂) := by
  have hclosed : (FaninTable.networkOf reconvergent.rows).Closed 5 :=
    FaninTable.closed_networkOf (by decide)
  refine maximumCone_isGreatest hclosed hclosed (Marks.bounded_empty.grow 5)
    (FaninTable.acyclic_networkOf (by decide)) ?_ rfl rfl rfl
  intro v hv
  have hlt := hclosed.lt_of_present hv
  interval_cases v <;> rfl

end FanoutCone
