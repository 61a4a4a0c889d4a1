import FanoutCone.Proofs.MaximumCone

/-!
# Cone and support

Without a cut limit, a collection divides what it meets by the structure and the
counts alone, whatever they are: on cyclic networks too, and over counts that no
dereference has left. The cone is what can be reached from the root through
internal nodes without parents, and the support is what else the cone reads.
Only the root may have parents, and it stays in the cone when a cycle leads back
to it.
-/
namespace FanoutCone

namespace Collection

variable {c : Collection} {root v : Nat} {p : Progress}

/-- The root is emitted last, if it is gone below at all. -/
theorem Collects.head?_cone {marks : Marks} (h : c.Collects root marks p) (hroot : root ∈ p.cone) :
    p.cone.head? = some root := by
  cases h with
  | stay hmet =>
    cases hmet with
    | seen | cut => cases hroot
    | listed _ hatRoot | ignored _ hatRoot => cases hatRoot
  | expand hmet hsite hbelow => rfl

theorem Covered.nodup_cone (h : c.Covered root [] p) : p.cone.Nodup := h.nodup.of_append_left

theorem Covered.nodup_support (h : c.Covered root [] p) : p.support.Nodup :=
  h.nodup.of_append_right

theorem Covered.not_mem_support (h : c.Covered root [] p) (hv : v ∈ p.cone) : v ∉ p.support :=
  fun hsupport => List.disjoint_of_nodup_append h.nodup hv hsupport

theorem Covered.isMarked_iff (h : c.Covered root [] p) :
    p.marks.isMarked v = true ↔ v ∈ p.cone ∨ v ∈ p.support := by
  rw [h.marked_iff v, List.nil_append, List.mem_append]

/-- Below the root, the cone holds dead nodes only. -/
theorem Covered.dead_of_mem (h : c.Covered root [] p) (hv : v ∈ p.cone) (hne : v ≠ root) :
    c.Dead v := by
  have hreached := h.reached v (by simpa using hv)
  cases hreached with
  | refl => exact absurd rfl hne
  | tail _ hlead => exact hlead.2

/-- A fanin of a cone node that is not in the cone is in the support, unless the cut limit has
kept it out. -/
theorem Covered.mem_support_of_reads (h : c.Covered root [] p) (huse : c.boundaryUse = .listed)
    {u : Nat} (hu : u ∈ p.cone) (hread : c.net.Reads u v) (hv : v ∉ p.cone)
    (hcut : c.isFull p = true → ¬ c.Dead v) : v ∈ p.support := by
  rcases h.settled u hu v hread with hmarked | ⟨hignored, -⟩ | ⟨hfull, hdead⟩
  · exact (h.isMarked_iff.1 hmarked).resolve_left hv
  · rw [huse] at hignored
    cases hignored
  · exact absurd hdead (hcut hfull)

end Collection

namespace Network

/-- Whether fanins lead from `root` to `v` through internal nodes without parents only, of which
`v` is one unless it is the root. -/
def ReachesDead (net : Network) (counts : FanoutCounts) (root v : Nat) : Prop :=
  Relation.ReflTransGen (fun u w => net.Reads u w ∧ net.Internal w ∧ counts.parents w = 0) root v

/-- How the nodes below `root` are divided into a cone and its support. -/
structure Divides (net : Network) (counts : FanoutCounts) (root : Nat) (found : Cone) : Prop where
  nodes_nodup : found.nodes.Nodup
  root_last : found.nodes.getLast? = some root
  mem_nodes_iff : ∀ v, v ∈ found.nodes ↔ net.ReachesDead counts root v
  support_nodup : found.support.Nodup
  mem_support_iff : ∀ v, v ∈ found.support ↔ v ∉ found.nodes ∧ ∃ u ∈ found.nodes, net.Reads u v

variable {net : Network} {counts : FanoutCounts} {root u v : Nat} {found : Cone}

theorem Divides.disjoint (h : net.Divides counts root found) :
    found.nodes.Disjoint found.support :=
  fun v hv hsupport => ((h.mem_support_iff v).1 hsupport).1 hv

theorem Divides.mem_or_mem_of_reads (h : net.Divides counts root found) (hu : u ∈ found.nodes)
    (hread : net.Reads u v) : v ∈ found.nodes ∨ v ∈ found.support := by
  by_cases hv : v ∈ found.nodes
  · exact Or.inl hv
  · exact Or.inr ((h.mem_support_iff v).2 ⟨hv, u, hu, hread⟩)

end Network

/-- What an account without a cut limit says of the cone and the support. -/
theorem Collection.Covered.divides {net : Network} {counts : FanoutCounts} {root : Nat}
    {p : Progress} {marks : Marks}
    (hcollects : (⟨net, counts, .listed, none⟩ : Collection).Collects root marks p)
    (h : (⟨net, counts, .listed, none⟩ : Collection).Covered root [] p) (hroot : root ∈ p.cone) :
    net.Divides counts root ⟨p.cone.reverse, p.support.reverse⟩ where
  nodes_nodup := List.nodup_reverse.2 h.nodup_cone
  root_last := by rw [List.getLast?_reverse, hcollects.head?_cone hroot]
  mem_nodes_iff v := by
    rw [List.mem_reverse]
    exact h.mem_cone_iff hroot rfl
  support_nodup := List.nodup_reverse.2 h.nodup_support
  mem_support_iff v := by
    simp only [List.mem_reverse]
    constructor
    · intro hv
      obtain ⟨u, hu, hread⟩ := h.read v hv
      exact ⟨fun hcone => h.not_mem_support hcone hv, u, by simpa using hu, hread⟩
    · rintro ⟨hv, u, hu, hread⟩
      refine h.mem_support_of_reads rfl hu hread hv fun hfull => ?_
      simp [isFull] at hfull

/-- The exact result of a collection without a cut limit. In a network whose fanins are all in
range, cyclic or not, over any counts and over marks none of which exceeds the generation, a
collection from an internal root ends in either traversal. It lists the cone and the support, each
node once and in one of the two, the root as the last of the cone. Afterwards just these nodes are
marked, and no count has changed. -/
theorem collectCone_divides {net : Network} {root : Nat} {s : Stores}
    (hcounts : net.Closed s.counts.size) (hmarks : net.Closed s.marks.size)
    (hbounded : s.marks.Bounded) (hroot : net.Internal root) (traversal : Traversal) :
    ∃ found s', collectCone none traversal net root s = .ok (found, s') ∧
      net.Divides s.counts root found ∧ found.nodes.Disjoint found.support ∧
      (∀ u ∈ found.nodes, ∀ v, net.Reads u v → v ∈ found.nodes ∨ v ∈ found.support) ∧
      (∀ v, s'.marks.isMarked v = true ↔ v ∈ found.nodes ∨ v ∈ found.support) ∧
      s'.counts = s.counts := by
  obtain ⟨found, s', hfound, hkept⟩ :=
    exists_collectCone none traversal hcounts hmarks hroot.present
  obtain ⟨p, hcollects, rfl, rfl⟩ := collectFrom_eq_ok (collectCone_eq_ok hroot hfound)
  obtain ⟨hcovered, hmem⟩ := hcollects.covered hbounded hroot rfl
  have hdivides := hcovered.divides hcollects hmem
  refine ⟨_, _, hfound, hdivides, hdivides.disjoint, fun u hu v => hdivides.mem_or_mem_of_reads hu,
    fun v => ?_, hkept.counts_eq⟩
  rw [List.mem_reverse, List.mem_reverse]
  exact hcovered.isMarked_iff

/-- Two gates that read each other and are met twice, over a gate that is alive and a leaf. -/
def knot : FaninTable :=
  .ofRows [(.internal, [⟨1, false⟩, ⟨1, true⟩]),
    (.internal, [⟨0, true⟩, ⟨2, false⟩, ⟨3, false⟩]), (.internal, [⟨3, true⟩]), (.leaf, [])]
    [3, 0, 1, 0]

/-- The gate that is alive bounds the cone as the leaf does, and the cycle ends at the root. -/
theorem collectCone_divides_knot :
    ∃ s', collectCone none .iterative (FaninTable.networkOf knot.rows) 0 knot.stores =
        .ok (⟨[1, 0], [2, 3]⟩, s') ∧
      (FaninTable.networkOf knot.rows).Divides knot.stores.counts 0 ⟨[1, 0], [2, 3]⟩ ∧
      (∀ v, s'.marks.isMarked v = true ↔ v ∈ [1, 0] ∨ v ∈ [2, 3]) ∧
      s'.counts = knot.stores.counts := by
  have hclosed : (FaninTable.networkOf knot.rows).Closed 4 :=
    FaninTable.closed_networkOf (by decide)
  obtain ⟨found, s', hfound, hdivides, -, -, hmarked, hcounts⟩ :=
    @collectCone_divides (FaninTable.networkOf knot.rows) 0 knot.stores hclosed hclosed
      (Marks.bounded_empty.grow 4) ⟨_, rfl, rfl⟩ .iterative
  have hruns : collectCone none .iterative (FaninTable.networkOf knot.rows) 0 knot.stores =
      .ok (⟨[1, 0], [2, 3]⟩, ⟨knot.stores.counts, ⟨2, #[2, 2, 2, 2]⟩⟩) := by rfl
  obtain ⟨rfl, -⟩ := Prod.mk.inj (Except.ok.inj (hruns.symm.trans hfound))
  exact ⟨s', hfound, hdivides, hmarked, hcounts⟩

end FanoutCone
