import FanoutCone.Proofs.AigRuns
import FanoutCone.Proofs.Traversals

/-!
# Stores that fit a network

Over stores that fit an acyclic network every cone is found, and the stores that
are left fit it too. What is found depends on the counts and not on the marks, so
queries one after another find what each would find alone. The stores of a graph
that was built or loaded fit its structure.
-/
namespace FanoutCone

theorem Stores.Kept.trans {s s₁ s' : Stores} (h : s.Kept s₁) (h' : s₁.Kept s') : s.Kept s' :=
  ⟨h'.counts_eq.trans h.counts_eq, h.evolves.trans h'.evolves⟩

namespace Collection

variable {c : Collection} {root v : Nat} {p p' : Progress}

theorem Explores.present {fanins : List (Option Edge)} (h : c.Explores fanins p p')
    (hv : v ∈ p'.cone) : v ∈ p.cone ∨ c.net.Present v := by
  induction h with
  | done p => exact Or.inl hv
  | pass hmet hrest ih =>
    rw [← hmet.cone_eq]
    exact ih hv
  | expand hmet hsite hbelow hrest ihbelow ihrest =>
    rcases ihrest hv with hv | hpresent
    · rcases List.mem_cons.1 hv with rfl | hv
      · exact Or.inr ⟨_, hsite⟩
      · rw [← hmet.cone_eq]
        exact ihbelow hv
    · exact Or.inr hpresent

/-- The nodes of a cone that was collected exist. -/
theorem Collects.present {marks : Marks} (h : c.Collects root marks p) (hv : v ∈ p.cone) :
    c.net.Present v := by
  cases h with
  | stay hmet =>
    rw [hmet.cone_eq] at hv
    cases hv
  | expand hmet hsite hbelow =>
    rcases List.mem_cons.1 hv with rfl | hv
    · exact ⟨_, hsite⟩
    · refine (hbelow.present hv).resolve_left fun hv => ?_
      rw [hmet.cone_eq] at hv
      cases hv

end Collection

namespace Network

def HasCone (net : Network) (n : Nat) : Prop :=
  ∃ site, net.site? n = some site ∧ site.hasCone = true

theorem HasCone.internal {net : Network} {n : Nat} (h : net.HasCone n) : net.Internal n := by
  obtain ⟨site, hsite, hcone⟩ := h
  simp only [Site.hasCone, Bool.and_eq_true, beq_iff_eq] at hcone
  exact ⟨site, hsite, hcone.1⟩

end Network

/-- The nodes of the cone that is found exist. -/
theorem present_of_mem_maximumCone {settings : ConeSettings} {net : Network} {root v : Nat}
    {s s' : Stores} {found : Cone} (hroot : net.HasCone root)
    (h : maximumCone settings net root s = .ok (found, s')) (hv : v ∈ found.nodes) :
    net.Present v := by
  have hinternal := hroot.internal
  obtain ⟨site, hsite, hcone⟩ := hroot
  obtain ⟨t, s₁, s₂, -, -, -, hcollect⟩ := maximumCone_eq_ok hsite hcone h
  obtain ⟨p, hcollects, rfl, -⟩ := collectFrom_eq_ok (collectCone_eq_ok hinternal hcollect)
  exact hcollects.present (List.mem_reverse.1 hv)

namespace Network

/-- The stores fit an acyclic network: they are large enough, no stamp lies above the generation,
and each count is the number of fanin edges from the node and of its parents outside. -/
structure Fits (net : Network) (ext : Nat → Nat) (s : Stores) : Prop where
  counts : net.Closed s.counts.size
  marks : net.Closed s.marks.size
  bounded : s.marks.Bounded
  acyclic : net.Acyclic
  consistent : net.Consistent s.counts ext

/-- Stores that fit still do after a query. -/
theorem Fits.of_kept {net : Network} {ext : Nat → Nat} {s s' : Stores} (h : net.Fits ext s)
    (hkept : s.Kept s') : net.Fits ext s' where
  counts := by rw [hkept.counts_eq]; exact h.counts
  marks := by rw [hkept.evolves.size_eq]; exact h.marks
  bounded := hkept.evolves.bounded h.bounded
  acyclic := h.acyclic
  consistent := by rw [hkept.counts_eq]; exact h.consistent

/-- The cone of a node that exists is found. -/
theorem Fits.exists_maximumCone {net : Network} {ext : Nat → Nat} {s : Stores} {root : Nat}
    (h : net.Fits ext s) (settings : ConeSettings) (hroot : net.Present root) :
    ∃ found s', maximumCone settings net root s = .ok (found, s') ∧ s.Kept s' := by
  obtain ⟨t, hwalk⟩ := exists_walk_of_accounted (h.consistent.accounted h.counts) h.counts h.acyclic
    hroot settings.filter settings.traversal
  exact FanoutCone.exists_maximumCone h.counts h.marks hroot hwalk

/-- In any traversal, and after any queries, the same cone is found. -/
theorem Fits.maximumCone_of_kept {net : Network} {ext : Nat → Nat} {s s' t : Stores} {root : Nat}
    {settings : ConeSettings} {found : Cone} (h : net.Fits ext s) (hkept : s.Kept s')
    (hfound : maximumCone settings net root s = .ok (found, t)) (traversal : Traversal) :
    ∃ t', maximumCone { settings with traversal := traversal } net root s' = .ok (found, t') := by
  have hpeers : s.marks.Peers s'.marks :=
    ⟨hkept.evolves.size_eq, h.bounded, hkept.evolves.bounded h.bounded⟩
  obtain ⟨⟨found', t'⟩, hfound', hmatched⟩ :=
    (maximumCone_agree Marks.congruence_peers settings traversal
      ⟨hkept.counts_eq, hpeers⟩).exists_of_ok hfound
  obtain rfl : found' = found := hmatched.report_eq
  exact ⟨t', hfound'⟩

end Network

namespace Aig

variable {aig : Aig}

/-- The stores of a sound graph fit its structure, with next states and outputs as the parents
outside. -/
theorem Sound.fits (h : aig.Sound) : aig.network.Fits aig.exports aig.stores where
  counts := h.shaped.closed h.shaped.counts_size.symm
  marks := h.shaped.closed h.shaped.marks_size.symm
  bounded := h.marks_bounded
  acyclic := acyclic_network h.shaped.acyclic
  consistent := h.counts.consistent h.shaped.counts_size

theorem hasCone_of_mem_ands {n : Nat} (h : n ∈ aig.ands) : aig.network.HasCone n := by
  obtain ⟨left, right, hn⟩ := mem_ands.1 h
  exact ⟨AigNode.site (.and left right), by simp [network, networkOf, hn], rfl⟩

/-- A query that succeeds on the structure and the stores succeeds on the graph. -/
theorem query_of_eq_ok {α : Type} {f : Network → Stores → Except Fault (α × Stores)} {a : α}
    {s : Stores} (h : f aig.network aig.stores = .ok (a, s)) :
    Container.query f aig = .ok (a, { aig with stores := s }) := by
  rw [query_eq_map, h]
  rfl

end Aig

end FanoutCone
