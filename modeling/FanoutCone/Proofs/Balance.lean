import FanoutCone.Cone
import FanoutCone.Proofs.Exploration
import FanoutCone.Proofs.Tallies
import FanoutCone.Proofs.WalkOutcome

/-!
# Balance

A dereference and the reference after it pass the same nodes, however the counts
stood before, so every query leaves the counts as it found them. A query in a
closed network ends unless its dereference takes a parent from a node that has
none: nothing between the two walks changes a count, and neither the collection
nor the way back can fail.
-/
namespace FanoutCone

/-- What a query keeps of the stores: every count, and what is known of the marks. -/
structure Stores.Kept (s s' : Stores) : Prop where
  counts_eq : s'.counts = s.counts
  evolves : s.marks.Evolves s'.marks

theorem Stores.Kept.refl (s : Stores) : s.Kept s := ⟨rfl, .refl s.marks⟩

variable {net : Network} {root : Nat} {s s' : Stores}

/-- The walk back over the counts that a dereference has left revives what had died, and leaves
the counts from before. Each of the two may be recursive or iterative. -/
theorem walk_balanced {filter : EdgeFilter} {traversal : Traversal} {counts : FanoutCounts}
    {t : Trail} (hclosed : net.Closed counts.size) (hroot : net.Present root)
    (hdown : walk net filter traversal .dereference root counts = .ok t) (back : Traversal) :
    ∃ t', walk net filter back .reference root t.counts = .ok t' ∧ t'.passed.Perm t.passed ∧
      t'.counts = counts := by
  obtain ⟨houtcome, hmoved, hsize⟩ := walk_eq_ok hdown
  have hclosed' : net.Closed t.counts.size := by rwa [hsize]
  have hbefore : ∀ v, t.counts.parents v = counts.parents v - net.uses filter t.passed v := by
    intro v
    have hv := hmoved v
    simp only [Direction.Moved] at hv
    omega
  have hback : (Course.ofCounts net filter .reference root t.counts).IsOutcome t.passed := by
    have h := houtcome.back rfl fun v => by
      have hv := hmoved v
      simp only [Direction.Moved] at hv
      show net.uses filter t.passed v ≤ counts.parents v
      omega
    convert h using 1
    simp only [Course.ofCounts, Course.back, Course.mk.injEq, true_and]
    exact funext hbefore
  obtain ⟨t', hup⟩ : ∃ t', walk net filter back .reference root t.counts = .ok t' :=
    exists_walk_of_complete hclosed' hroot hback.complete fun v => by
      have hv := hmoved v
      have hle := counts.parents_le v
      simp only [Direction.Moved] at hv
      simp only [Direction.room]
      omega
  obtain ⟨houtcome', hmoved', hsize'⟩ := walk_eq_ok hup
  have hperm := houtcome'.perm hback
  refine ⟨t', hup, hperm, ?_⟩
  apply FanoutCounts.ext_parents (hsize'.trans hsize)
  intro v
  have hdown' := hmoved v
  have hup' := hmoved' v
  rw [Multiset.coe_eq_coe.2 hperm] at hup'
  simp only [Direction.Moved] at hdown' hup'
  omega

namespace CountingWalk

variable {w out back : CountingWalk} {direction : Direction} {α : Type}

/-- What a configured walk that ends has done. -/
theorem run_eq_ok {k : Nat} (h : w.run direction net root s = .ok (k, s')) :
    ∃ t, FanoutCone.walk net w.filter w.traversal direction root s.counts = .ok t ∧
      k = t.passed.length ∧ s'.counts = t.counts ∧ s.marks.Evolves s'.marks := by
  obtain ⟨counts, marks⟩ := s
  unfold run at h
  dsimp only at h ⊢
  cases hwalk : FanoutCone.walk net w.filter w.traversal direction root counts with
  | error breakdown => simp [hwalk] at h
  | ok t =>
    rw [hwalk] at h
    refine ⟨t, rfl, ?_⟩
    cases hlabel : w.label with
    | false =>
      simp only [hlabel, Bool.false_eq_true, if_false, Except.ok.injEq, Prod.mk.injEq] at h
      obtain ⟨rfl, rfl⟩ := h
      exact ⟨rfl, rfl, .refl marks⟩
    | true =>
      simp only [hlabel, if_true] at h
      cases hmark : marks.markAll t.passed with
      | error fault => simp [hmark] at h
      | ok marks' =>
        simp only [hmark, Except.ok.injEq, Prod.mk.injEq] at h
        obtain ⟨rfl, rfl⟩ := h
        exact ⟨rfl, rfl, Marks.evolves_markAll hmark⟩

/-- A walk that ends returns the number of nodes passed, if those that it labels can be marked. -/
theorem exists_run_of_lt {t : Trail}
    (hmarks : w.label = true → ∀ n ∈ t.passed, n < s.marks.size)
    (h : FanoutCone.walk net w.filter w.traversal direction root s.counts = .ok t) :
    ∃ s', w.run direction net root s = .ok (t.passed.length, s') ∧ s'.counts = t.counts := by
  obtain ⟨counts, marks⟩ := s
  dsimp only at h hmarks
  cases hlabel : w.label with
  | false => exact ⟨⟨t.counts, marks⟩, by simp [run, h, hlabel], rfl⟩
  | true =>
    obtain ⟨marks', hmark⟩ := Marks.exists_markAll (hmarks hlabel)
    exact ⟨⟨t.counts, marks'⟩, by simp [run, h, hlabel, hmark], rfl⟩

/-- In a closed network every node passed can be marked, so a configured walk ends when the walk
does. -/
theorem exists_run {t : Trail} (hmarks : net.Closed s.marks.size)
    (h : FanoutCone.walk net w.filter w.traversal direction root s.counts = .ok t) :
    ∃ s', w.run direction net root s = .ok (t.passed.length, s') := by
  obtain ⟨s', hrun, -⟩ := exists_run_of_lt (fun _ v hv =>
    hmarks.lt_of_internal ((walk_eq_ok h).1.legal.internal_of_mem hv)) h
  exact ⟨s', hrun⟩

/-- What an excursion that ends has done: its way out, and what was done at its far end. -/
theorem excursion_eq_ok {inside : Stores → Except Fault (α × Stores)} {size : Nat} {a : α}
    (h : excursion out back net root inside s = .ok ((size, a), s')) :
    ∃ t s₁ s₂, FanoutCone.walk net out.filter out.traversal .dereference root s.counts = .ok t ∧
      size = t.passed.length ∧ s₁.counts = t.counts ∧ s.marks.Evolves s₁.marks ∧
      inside s₁ = .ok (a, s₂) := by
  obtain ⟨⟨died, s₁⟩, hout, h⟩ := bind_eq_ok_iff.1 h
  obtain ⟨⟨a', s₂⟩, hinside, h⟩ := bind_eq_ok_iff.1 h
  obtain ⟨⟨revived, s₃⟩, hback, h⟩ := bind_eq_ok_iff.1 h
  obtain ⟨t, hwalk, hdied, hcounts, hmarks⟩ := run_eq_ok hout
  dsimp only at h hinside hdied
  split at h
  · cases h
    exact ⟨t, s₁, s₂, hwalk, hdied, hcounts, hmarks, hinside⟩
  · cases h

/-- An excursion whose way out ends is balanced, when what is done at its far end keeps the
stores. -/
theorem exists_excursion (out back : CountingWalk) (inside : Stores → Except Fault (α × Stores))
    {t : Trail} (hcounts : net.Closed s.counts.size) (hmarks : net.Closed s.marks.size)
    (hroot : net.Present root) (hfilter : back.filter = out.filter)
    (hout : FanoutCone.walk net out.filter out.traversal .dereference root s.counts = .ok t)
    (hinside : ∀ s₁ : Stores, net.Closed s₁.counts.size → net.Closed s₁.marks.size →
      ∃ a s₂, inside s₁ = .ok (a, s₂) ∧ s₁.Kept s₂) :
    ∃ a s', excursion out back net root inside s = .ok ((t.passed.length, a), s') ∧
      s.Kept s' := by
  obtain ⟨s₁, hdown⟩ := exists_run hmarks hout
  obtain ⟨t₁, hout₁, -, hcounts₁, hmarks₁⟩ := run_eq_ok hdown
  obtain rfl : t = t₁ := Except.ok.inj (hout.symm.trans hout₁)
  have hsize := (walk_eq_ok hout).2.2
  obtain ⟨a, s₂, ha, hkept⟩ := hinside s₁ (by rwa [hcounts₁, hsize]) (by rwa [hmarks₁.size_eq])
  obtain ⟨t', hback, hperm, hrestored⟩ := walk_balanced hcounts hroot hout back.traversal
  rw [← hcounts₁, ← hkept.counts_eq, ← hfilter] at hback
  have hmarks₂ : net.Closed s₂.marks.size := by
    rwa [hkept.evolves.size_eq, hmarks₁.size_eq]
  obtain ⟨s', hup⟩ := exists_run hmarks₂ hback
  obtain ⟨t₂, hback₂, -, hcounts₂, hmarks'⟩ := run_eq_ok hup
  obtain rfl : t' = t₂ := Except.ok.inj (hback.symm.trans hback₂)
  refine ⟨a, s', ?_, hcounts₂.trans hrestored, (hmarks₁.trans hkept.evolves).trans hmarks'⟩
  simp only [excursion, dereference, reference, hdown, ha, hup, ok_bind, hperm.length_eq, if_true]

end CountingWalk

/-- The nodes that a collection has found and the marks that it has left. -/
theorem collectFrom_eq_ok {use : BoundaryUse} {limit : Option Nat} {traversal : Traversal}
    {found : Cone} (h : collectFrom use limit traversal net root s = .ok (found, s')) :
    ∃ p, (⟨net, s.counts, use, limit⟩ : Collection).Collects root s.marks p ∧
      found = ⟨p.cone.reverse, p.support.reverse⟩ ∧ s' = ⟨s.counts, p.marks⟩ := by
  obtain ⟨counts, marks⟩ := s
  unfold collectFrom at h
  dsimp only at h ⊢
  cases hrun : Collection.run ⟨net, counts, use, limit⟩ traversal root marks with
  | error fault => simp [hrun] at h
  | ok result =>
    obtain ⟨found', marks'⟩ := result
    simp only [hrun, Except.ok.injEq, Prod.mk.injEq] at h
    obtain ⟨rfl, rfl⟩ := h
    obtain ⟨p, hcollects, hfound, rfl⟩ := Collection.run_eq_ok hrun
    exact ⟨p, hcollects, hfound, rfl⟩

theorem collectFrom_kept {use : BoundaryUse} {limit : Option Nat} {traversal : Traversal}
    {found : Cone} (h : collectFrom use limit traversal net root s = .ok (found, s')) :
    s.Kept s' := by
  obtain ⟨p, hcollects, -, rfl⟩ := collectFrom_eq_ok h
  exact ⟨rfl, hcollects.evolves⟩

/-- A collection in a closed network ends and keeps the counts. -/
theorem exists_collectFrom (use : BoundaryUse) (limit : Option Nat) (traversal : Traversal)
    (hcounts : net.Closed s.counts.size) (hmarks : net.Closed s.marks.size)
    (hroot : net.Present root) :
    ∃ found s', collectFrom use limit traversal net root s = .ok (found, s') ∧ s.Kept s' := by
  obtain ⟨counts, marks⟩ := s
  obtain ⟨found, marks', hrun⟩ := Collection.exists_run (c := ⟨net, counts, use, limit⟩)
    hcounts hmarks hroot traversal
  have h : collectFrom use limit traversal net root ⟨counts, marks⟩ =
      .ok (found, ⟨counts, marks'⟩) := by simp [collectFrom, hrun]
  exact ⟨found, _, h, collectFrom_kept h⟩

theorem exists_collectCone (limit : Option Nat) (traversal : Traversal)
    (hcounts : net.Closed s.counts.size) (hmarks : net.Closed s.marks.size)
    (hroot : net.Present root) :
    ∃ found s', collectCone limit traversal net root s = .ok (found, s') ∧ s.Kept s' := by
  obtain ⟨site, hsite⟩ := hroot
  cases hkind : site.kind with
  | leaf =>
    refine ⟨.empty, s, ?_, .refl s⟩
    simp [collectCone, Network.isLeaf, Network.site, hsite, hkind]
  | internal =>
    obtain ⟨found, s', h, hkept⟩ :=
      exists_collectFrom .listed limit traversal hcounts hmarks ⟨site, hsite⟩
    refine ⟨found, s', ?_, hkept⟩
    simpa [collectCone, Network.isLeaf, Network.site, hsite, hkind] using h

end FanoutCone
