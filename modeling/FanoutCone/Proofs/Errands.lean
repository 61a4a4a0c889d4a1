import FanoutCone.Proofs.Queries
import FanoutCone.Proofs.Settling

/-!
# Walks from many roots

Callers dereference several roots, look around, and reference the roots again.
Where cones overlap, the logic they share is charged to the root that is walked
from last, so the single sizes depend on the order. The sum of the sizes does
not: the walks settle the same work together, and work settles in every order.

On the way back the last root walked from comes first in one order that works,
since each reference undoes one dereference. By the same argument every other
order does it too.
-/
namespace FanoutCone

/-- A root to walk from, and how. -/
structure Errand where
  root : Nat
  label : Bool := false
  traversal : Traversal := .recursive

/-- Walks from each root in turn. Returns the sum of the sizes. -/
def runErrands (filter : EdgeFilter) (direction : Direction) (net : Network) :
    List Errand → Stores → Except Fault (Nat × Stores)
  | [], s => .ok (0, s)
  | ⟨root, label, traversal⟩ :: errands, s => do
    let (size, s) ← CountingWalk.run ⟨filter, label, traversal⟩ direction net root s
    let (total, s) ← runErrands filter direction net errands s
    .ok (size + total, s)

variable {net : Network} {filter : EdgeFilter} {direction : Direction}
variable {errands errands' back : List Errand} {s s' : Stores} {total : Nat}

theorem runErrands_cons_eq_ok {root : Nat} {label : Bool} {traversal : Traversal}
    (h : runErrands filter direction net (⟨root, label, traversal⟩ :: errands) s =
      .ok (total, s')) :
    ∃ t s₁ rest, walk net filter traversal direction root s.counts = .ok t ∧
      s₁.counts = t.counts ∧ runErrands filter direction net errands s₁ = .ok (rest, s') ∧
      total = t.passed.length + rest := by
  obtain ⟨⟨size, s₁⟩, hrun, h⟩ := bind_eq_ok_iff.1 h
  obtain ⟨⟨rest, s₂⟩, hrest, h⟩ := bind_eq_ok_iff.1 h
  obtain ⟨t, hwalk, hsize, hcounts, -⟩ := CountingWalk.run_eq_ok hrun
  cases h
  exact ⟨t, s₁, rest, hwalk, hcounts, hrest, by rw [← hsize]⟩

def Errand.tasks (errands : List Errand) : Multiset Task :=
  (errands.map fun errand => Task.enter errand.root : List Task)

@[simp] theorem Errand.tasks_cons (errand : Errand) (errands : List Errand) :
    tasks (errand :: errands) = Task.enter errand.root ::ₘ tasks errands := rfl

theorem Errand.tasks_eq_of_perm
    (h : (errands'.map Errand.root).Perm (errands.map Errand.root)) :
    tasks errands' = tasks errands := by
  have hperm := h.map Task.enter
  rw [List.map_map, List.map_map] at hperm
  exact Multiset.coe_eq_coe.2 hperm

/-- Errands that are run settle their work, and the sum of their sizes counts the nodes passed. -/
theorem settles_of_runErrands (h : runErrands filter direction net errands s = .ok (total, s')) :
    ∃ M, Settles net filter direction (Errand.tasks errands) s.counts M s'.counts ∧
      M.card = total := by
  induction errands generalizing s total with
  | nil =>
    cases h
    exact ⟨0, .done _, rfl⟩
  | cons errand errands ih =>
    obtain ⟨root, label, traversal⟩ := errand
    obtain ⟨t, s₁, rest, hwalk, hcounts, hrest, rfl⟩ := runErrands_cons_eq_ok h
    obtain ⟨M, hsettles, rfl⟩ := ih hrest
    rw [hcounts] at hsettles
    refine ⟨t.passed + M, (settles_of_walk hwalk).append hsettles, ?_⟩
    rw [Multiset.card_add, Multiset.coe_card]

/-- Errands whose work settles can be run. -/
theorem exists_runErrands {M : Multiset Nat} {counts' : FanoutCounts}
    (h : Settles net filter direction (Errand.tasks errands) s.counts M counts')
    (hmarks : net.Closed s.marks.size) :
    ∃ s', runErrands filter direction net errands s = .ok (M.card, s') ∧ s'.counts = counts' ∧
      s.marks.Evolves s'.marks := by
  induction errands generalizing s M with
  | nil =>
    obtain ⟨rfl, rfl⟩ := h.eq_of_zero
    exact ⟨s, rfl, rfl, .refl s.marks⟩
  | cons errand errands ih =>
    obtain ⟨root, label, traversal⟩ := errand
    rw [Errand.tasks_cons] at h
    obtain ⟨t, M', hwalk, rfl, hrest⟩ := h.exists_walk traversal
    obtain ⟨s₁, hrun⟩ := CountingWalk.exists_run (w := ⟨filter, label, traversal⟩) hmarks hwalk
    obtain ⟨t₁, hwalk₁, -, hcounts, hevolves⟩ := CountingWalk.run_eq_ok hrun
    obtain rfl : t = t₁ := Except.ok.inj (hwalk.symm.trans hwalk₁)
    rw [← hcounts] at hrest
    obtain ⟨s', hall, hcounts', hevolves'⟩ := ih hrest (by rwa [hevolves.size_eq])
    refine ⟨s', ?_, hcounts', hevolves.trans hevolves'⟩
    simp only [runErrands, hrun, hall, ok_bind, Multiset.card_add, Multiset.coe_card]

theorem present_of_walk {traversal : Traversal} {root : Nat} {counts : FanoutCounts} {t : Trail}
    (h : walk net filter traversal direction root counts = .ok t) : net.Present root :=
  (settles_of_walk h).present_of_enter (Multiset.mem_singleton_self _)

/-- The way back from errands is settled by as many nodes, and ends where they had started. -/
theorem settles_back (hcounts : net.Closed s.counts.size)
    (h : runErrands filter .dereference net errands s = .ok (total, s')) :
    ∃ M, Settles net filter .reference (Errand.tasks errands) s'.counts M s.counts ∧
      M.card = total := by
  induction errands generalizing s total with
  | nil =>
    cases h
    exact ⟨0, .done _, rfl⟩
  | cons errand errands ih =>
    obtain ⟨root, label, traversal⟩ := errand
    obtain ⟨t, s₁, rest, hwalk, hcounts₁, hrest, rfl⟩ := runErrands_cons_eq_ok h
    have hsize : t.counts.size = s.counts.size := (walk_eq_ok hwalk).2.2
    obtain ⟨M, hsettles, rfl⟩ := ih (by rwa [hcounts₁, hsize]) hrest
    obtain ⟨t', hback, hperm, hrestored⟩ :=
      walk_balanced hcounts (present_of_walk hwalk) hwalk traversal
    have hlast := settles_of_walk hback
    rw [← hcounts₁, hrestored] at hlast
    refine ⟨M + t'.passed, ?_, ?_⟩
    · rw [Errand.tasks_cons, ← Multiset.singleton_add, add_comm]
      exact hsettles.append hlast
    · rw [Multiset.card_add, Multiset.coe_card, hperm.length_eq, add_comm]

/-- Overlapping excursions commute. In a network whose fanins are all in range, if roots can be
dereferenced one after another in some order, they can be in every order and in any traversals,
with the same sum of sizes and the same counts left. From there they can be referenced in every
order, which revives as many nodes and leaves the counts from before. -/
theorem errands_commute (hcounts : net.Closed s.counts.size) (hmarks : net.Closed s.marks.size)
    (hdown : runErrands filter .dereference net errands s = .ok (total, s'))
    (horder : (errands'.map Errand.root).Perm (errands.map Errand.root))
    (hback : (back.map Errand.root).Perm (errands.map Errand.root)) :
    ∃ s₁ s₂, runErrands filter .dereference net errands' s = .ok (total, s₁) ∧
      s₁.counts = s'.counts ∧ runErrands filter .reference net back s₁ = .ok (total, s₂) ∧
      s₂.counts = s.counts := by
  obtain ⟨M, hsettles, rfl⟩ := settles_of_runErrands hdown
  rw [← Errand.tasks_eq_of_perm horder] at hsettles
  obtain ⟨s₁, hdown', hcounts₁, hevolves⟩ := exists_runErrands hsettles hmarks
  obtain ⟨N, hrevives, hcard⟩ := settles_back hcounts hdown
  rw [← Errand.tasks_eq_of_perm hback, ← hcounts₁] at hrevives
  obtain ⟨s₂, hup, hcounts₂, -⟩ := exists_runErrands hrevives (by rwa [hevolves.size_eq])
  rw [hcard] at hup
  exact ⟨s₁, s₂, hdown', hcounts₁, hup, hcounts₂⟩

/-- Two gates over a shared gate, which the later of the two roots takes along. -/
def sharedGate : FaninTable :=
  .ofRows [(.leaf, []), (.internal, [⟨0, false⟩, ⟨0, true⟩]), (.internal, [⟨1, false⟩, ⟨0, false⟩]),
    (.internal, [⟨1, true⟩, ⟨1, false⟩])] [3, 3, 1, 2]

theorem errands_commute_sharedGate :
    ∃ s₁ s₂, runErrands .all .dereference (FaninTable.networkOf sharedGate.rows)
        [⟨3, true, .iterative⟩, ⟨2, false, .recursive⟩] sharedGate.stores = .ok (3, s₁) ∧
      s₁.counts = ⟨#[0, 0, 1, 2]⟩ ∧
      runErrands .all .reference (FaninTable.networkOf sharedGate.rows)
        [⟨3, false, .recursive⟩, ⟨2, true, .iterative⟩] s₁ = .ok (3, s₂) ∧
      s₂.counts = sharedGate.stores.counts := by
  have hdown : runErrands .all .dereference (FaninTable.networkOf sharedGate.rows)
      [⟨2, false, .recursive⟩, ⟨3, false, .recursive⟩] sharedGate.stores =
        .ok (3, ⟨⟨#[0, 0, 1, 2]⟩, sharedGate.stores.marks⟩) := by rfl
  exact errands_commute (FaninTable.closed_networkOf (by decide))
    (FaninTable.closed_networkOf (by decide)) hdown (by decide) (by decide)

end FanoutCone
