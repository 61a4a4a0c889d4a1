import Mathlib.Data.Finset.Card
import Mathlib.Order.Bounds.Defs
import FanoutCone.Proofs.MaximumCone

/-!
# What a dereference takes down

On an arbitrary closed network, with cycles and with counts that no structure
explains, a dereference is told by one set: the least that holds the root and
takes in every other internal node as soon as the set uses it as often as it has
parents. The nodes of the set die, and each count falls by the uses of the set.

The walk never asks whether it has seen a node. It comes to a node again only
when the set uses the node more often than it has parents, and then a count is
overdrawn. The root is special, since the walk enters it without taking a parent
from it: it is entered again when the set uses it exactly as often as it has
parents. Then the fanins of the root lose the same parents twice, and one of
those that went down with it has no parent left to lose.
-/
namespace FanoutCone

namespace Network

/-- A set that holds the root, and every other internal node that has parents and of which the set
uses no fewer. -/
structure Absorbing (net : Network) (filter : EdgeFilter) (counts : FanoutCounts) (root : Nat)
    (C : Finset Nat) : Prop where
  root_mem : root ∈ C
  mem_of_le : ∀ v, net.Internal v → v ≠ root → 1 ≤ counts.parents v →
    counts.parents v ≤ net.uses filter C.val v → v ∈ C

/-- Whether a set uses some node more often than it has parents, or uses the root, which has
parents, exactly as often. -/
def Overdraws (net : Network) (filter : EdgeFilter) (counts : FanoutCounts) (root : Nat)
    (C : Finset Nat) : Prop :=
  (∃ v, counts.parents v < net.uses filter C.val v) ∨
    (0 < counts.parents root ∧ net.uses filter C.val root = counts.parents root)

variable {net : Network} {filter : EdgeFilter} {counts : FanoutCounts} {root bound v : Nat}
variable {C : Finset Nat}

/-- The internal nodes below the bound of a closed network absorb all that they use up. -/
theorem Closed.exists_absorbing_internal (hclosed : net.Closed bound) (hroot : net.Internal root)
    (filter : EdgeFilter) (counts : FanoutCounts) :
    ∃ U, net.Absorbing filter counts root U ∧ ∀ v, v ∈ U ↔ net.Internal v := by
  classical
  have hmem : ∀ v, v ∈ (Finset.range bound).filter net.Internal ↔ net.Internal v := by
    intro v
    rw [Finset.mem_filter, Finset.mem_range]
    exact and_iff_right_of_imp hclosed.lt_of_internal
  exact ⟨_, ⟨(hmem root).2 hroot, fun v hv _ _ _ => (hmem v).2 hv⟩, hmem⟩

/-- There is a least absorbing set: the nodes that all absorbing sets hold. -/
theorem Closed.exists_isLeast_absorbing (hclosed : net.Closed bound) (hroot : net.Internal root)
    (filter : EdgeFilter) (counts : FanoutCounts) :
    ∃ C, IsLeast {C | net.Absorbing filter counts root C} C := by
  classical
  obtain ⟨U, hU, -⟩ := hclosed.exists_absorbing_internal hroot filter counts
  have hmem : ∀ v, v ∈ U.filter (fun v => ∀ D, net.Absorbing filter counts root D → v ∈ D) ↔
      ∀ D, net.Absorbing filter counts root D → v ∈ D := by
    intro v
    rw [Finset.mem_filter]
    exact and_iff_right_of_imp fun hv => hv U hU
  refine ⟨_, ⟨(hmem root).2 fun D hD => hD.root_mem, fun v hv hne hpos hle => ?_⟩, fun D hD v hv =>
    (hmem v).1 hv D hD⟩
  refine (hmem v).2 fun D hD => hD.mem_of_le v hv hne hpos (hle.trans ?_)
  exact uses_mono (Finset.val_le_iff.2 fun w hw => (hmem w).1 hw D hD) v

/-- A least absorbing set that uses the root has a node of which the root alone uses as many
parents as it has: one that went down first, or the root itself. -/
theorem exists_le_count_sources (hC : IsLeast {C | net.Absorbing filter counts root C} C)
    (hpos : 0 < counts.parents root) (hroot : net.uses filter C.val root = counts.parents root) :
    ∃ v, 0 < counts.parents v ∧ counts.parents v ≤ (net.sources filter root).count v := by
  have huses : ∀ v, net.uses filter ({root} : Finset Nat).val v =
      (net.sources filter root).count v := by
    intro v
    show net.uses filter (root ::ₘ 0) v = _
    rw [uses_cons, uses_zero, Nat.add_zero]
  by_cases habsorbing : net.Absorbing filter counts root {root}
  · refine ⟨root, hpos, ?_⟩
    rw [← huses, ← hroot]
    exact uses_mono (Finset.val_le_iff.2 (hC.2 habsorbing)) root
  · by_contra hnone
    refine habsorbing ⟨Finset.mem_singleton_self root, fun v _ _ hv hle => ?_⟩
    rw [huses] at hle
    exact absurd ⟨v, hv, hle⟩ hnone

end Network

namespace Course

variable {net : Network} {filter : EdgeFilter} {counts : FanoutCounts} {root : Nat}
variable {C : Finset Nat} {passed : List Nat}

/-- Passes that leave nothing due absorb all that they use up. -/
theorem IsOutcome.absorbing (hroot : net.Internal root)
    (h : (ofCounts net filter .dereference root counts).IsOutcome passed) :
    net.Absorbing filter counts root passed.toFinset := by
  refine ⟨List.mem_toFinset.2 (h.mem_iff.2 ⟨hroot, Or.inl rfl⟩), fun v hv _ hpos hle => ?_⟩
  have hsub : passed.toFinset.val ≤ (passed : Multiset Nat) := Multiset.dedup_le _
  have huses : net.uses filter passed.toFinset.val v ≤ net.uses filter passed v :=
    Network.uses_mono hsub v
  have hflips := Direction.flips_dereference_iff.2 ⟨hpos, hle.trans huses⟩
  exact List.mem_toFinset.2 (h.mem_iff.2 ⟨hv, Or.inr hflips⟩)

/-- An absorbing set that overdraws nothing leaves nothing due. -/
theorem complete_of_absorbing (hC : net.Absorbing filter counts root C)
    (hdraws : ¬ net.Overdraws filter counts root C) :
    (ofCounts net filter .dereference root counts).Complete C.val := by
  rw [Network.Overdraws, not_or, not_exists] at hdraws
  obtain ⟨henough, hroot⟩ := hdraws
  intro v hv
  have hv' := henough v
  show (v == root).toNat + (Direction.flips .dereference (counts.parents v)
    (net.uses filter C.val v)).toNat ≤ _
  by_cases heq : v = root
  · subst heq
    have hcount := Multiset.count_eq_one_of_mem C.nodup hC.root_mem
    have hflips : Direction.flips .dereference (counts.parents v) (net.uses filter C.val v) =
        false := by
      rw [← Bool.not_eq_true, Direction.flips_dereference_iff]
      omega
    rw [hcount, hflips, beq_self_eq_true]
    rfl
  · rw [beq_eq_false_iff_ne.2 heq, Bool.toNat_false, Nat.zero_add]
    cases hflips : Direction.flips .dereference (counts.parents v) (net.uses filter C.val v) with
    | false => exact Nat.zero_le _
    | true =>
      obtain ⟨hpos, hle⟩ := Direction.flips_dereference_iff.1 hflips
      have hmem := hC.mem_of_le v hv heq hpos hle
      rw [Multiset.count_eq_one_of_mem C.nodup hmem]
      exact le_rfl

end Course

section
variable {net : Network} {filter : EdgeFilter} {traversal : Traversal} {root : Nat}
variable {counts : FanoutCounts} {C : Finset Nat} {t : Trail}

/-- A dereference that ends has passed no fewer nodes than the least absorbing set. -/
theorem le_passed_of_walk (hroot : net.Internal root)
    (hC : IsLeast {C | net.Absorbing filter counts root C} C)
    (hwalk : walk net filter traversal .dereference root counts = .ok t) :
    C.val ≤ (t.passed : Multiset Nat) := by
  have hsub : C ⊆ t.passed.toFinset := hC.2 ((walk_eq_ok hwalk).1.absorbing hroot)
  exact (Finset.val_le_iff.2 hsub).trans (Multiset.dedup_le _)

/-- A dereference ends only where the least absorbing set overdraws nothing. -/
theorem not_overdraws_of_walk (hroot : net.Internal root)
    (hC : IsLeast {C | net.Absorbing filter counts root C} C)
    (hwalk : walk net filter traversal .dereference root counts = .ok t) :
    ¬ net.Overdraws filter counts root C := by
  obtain ⟨houtcome, hmoved, -⟩ := walk_eq_ok hwalk
  have hle : ∀ v, net.uses filter t.passed v ≤ counts.parents v := by
    intro v
    have hv := hmoved v
    simp only [Direction.Moved] at hv
    omega
  have hless : ∀ v, net.uses filter C.val v ≤ net.uses filter t.passed v :=
    Network.uses_mono (le_passed_of_walk hroot hC hwalk)
  rintro (⟨v, hv⟩ | ⟨hpos, hused⟩)
  · have hv' := (hless v).trans (hle v)
    omega
  · -- The root was passed twice, and its fanins have lost twice what it uses.
    have htwice : t.passed.count root = 2 := by
      have hroot' : net.uses filter t.passed root = counts.parents root :=
        Nat.le_antisymm (hle root) (hused ▸ hless root)
      rw [houtcome.count_eq hroot]
      show (root == root).toNat + (Direction.flips .dereference (counts.parents root)
        (net.uses filter t.passed root)).toNat = 2
      simp [Direction.flips, hroot', hpos]
    have hreplicate : Multiset.replicate 2 root ≤ (t.passed : Multiset Nat) :=
      Multiset.le_count_iff_replicate_le.1 (by rw [Multiset.coe_count, htwice])
    obtain ⟨v, hv, hsources⟩ := Network.exists_le_count_sources hC hpos hused
    have htaken : net.uses filter (Multiset.replicate 2 root) v ≤ counts.parents v :=
      (Network.uses_mono hreplicate v).trans (hle v)
    rw [Multiset.replicate_succ, Multiset.replicate_one, ← Multiset.cons_zero, Network.uses_cons,
      Network.uses_cons, Network.uses_zero] at htaken
    omega

/-- Where the least absorbing set overdraws nothing, a dereference ends and passes just that set,
each node once. -/
theorem exists_walk_of_not_overdraws (hclosed : net.Closed counts.size) (hroot : net.Internal root)
    (hC : IsLeast {C | net.Absorbing filter counts root C} C)
    (hdraws : ¬ net.Overdraws filter counts root C) (traversal : Traversal) :
    ∃ t, walk net filter traversal .dereference root counts = .ok t ∧
      (t.passed : Multiset Nat) = C.val := by
  have hcomplete := Course.complete_of_absorbing hC.1 hdraws
  have hle : ∀ v, net.uses filter C.val v ≤ counts.parents v := fun v =>
    Nat.not_lt.1 fun hover => hdraws (Or.inl ⟨v, hover⟩)
  obtain ⟨t, hwalk⟩ : ∃ t, walk net filter traversal .dereference root counts = .ok t :=
    exists_walk_of_complete hclosed hroot.present hcomplete hle
  refine ⟨t, hwalk, le_antisymm ?_ (le_passed_of_walk hroot hC hwalk)⟩
  exact (walk_eq_ok hwalk).1.legal.le_of_complete hcomplete

end

namespace CountingWalk

variable {net : Network} {root : Nat} {s : Stores}

/-- A configured walk returns the number of nodes passed, and stamps them if it labels. -/
theorem exists_run_stamp (w : CountingWalk) {direction : Direction} {t : Trail}
    (hmarks : net.Closed s.marks.size)
    (h : FanoutCone.walk net w.filter w.traversal direction root s.counts = .ok t) :
    ∃ s', w.run direction net root s = .ok (t.passed.length, s') ∧ s'.counts = t.counts ∧
      s'.marks.generation = s.marks.generation ∧
      ∀ n, s'.marks.stamp n =
        if w.label = true ∧ n ∈ t.passed then .ok s.marks.generation else s.marks.stamp n := by
  obtain ⟨counts, marks⟩ := s
  dsimp only at h
  cases hlabel : w.label with
  | false => exact ⟨⟨t.counts, marks⟩, by simp [run, h, hlabel], rfl, rfl, fun n => by simp⟩
  | true =>
    obtain ⟨marks', hmark⟩ : ∃ marks', marks.markAll t.passed = .ok marks' :=
      Marks.exists_markAll fun v hv =>
        hmarks.lt_of_internal ((walk_eq_ok h).1.legal.internal_of_mem hv)
    obtain ⟨hgeneration, hstamp⟩ := Marks.stamp_markAll hmark
    exact ⟨⟨t.counts, marks'⟩, by simp [run, h, hlabel, hmark], rfl, hgeneration,
      fun n => by simp [hstamp]⟩

/-- The exact outcome of a dereference. In a network whose fanins are all in range, cyclic or not,
with any counts and in either traversal, let `C` be the least set that holds the internal root and
takes in every other internal node that has parents once it uses no fewer of them. The dereference
breaks off, taking a parent from a node without one, exactly when `C` uses some node more often
than it has parents, or uses the root as often as it has parents. Otherwise it returns the size of
`C`, each count falls by the uses of `C`, and a labelling walk stamps just the nodes of `C`. -/
theorem dereference_outcome (w : CountingWalk) (hcounts : net.Closed s.counts.size)
    (hmarks : net.Closed s.marks.size) (hroot : net.Internal root) :
    ∃ C : Finset Nat, IsLeast {C | net.Absorbing w.filter s.counts root C} C ∧
      (net.Overdraws w.filter s.counts root C →
        ∃ v, w.dereference net root s = .error (.underflow v)) ∧
      (¬ net.Overdraws w.filter s.counts root C →
        ∃ s', w.dereference net root s = .ok (C.card, s') ∧ s'.counts.size = s.counts.size ∧
          (∀ v, s'.counts.parents v + net.uses w.filter C.val v = s.counts.parents v) ∧
          s'.marks.generation = s.marks.generation ∧
          ∀ n, s'.marks.stamp n =
            if w.label = true ∧ n ∈ C then .ok s.marks.generation else s.marks.stamp n) := by
  obtain ⟨C, hC⟩ := hcounts.exists_isLeast_absorbing hroot w.filter s.counts
  refine ⟨C, hC, fun hdraws => ?_, fun hdraws => ?_⟩
  · cases hwalk : FanoutCone.walk net w.filter w.traversal .dereference root s.counts with
    | ok t => exact absurd hdraws (not_overdraws_of_walk hroot hC hwalk)
    | error breakdown =>
      obtain ⟨-, v, hfault, -⟩ := walk_eq_error hcounts hroot.present hwalk
      refine ⟨v, ?_⟩
      simp only [dereference, run, hwalk, hfault, Direction.breach]
  · obtain ⟨t, hwalk, hpassed⟩ :=
      exists_walk_of_not_overdraws hcounts hroot hC hdraws w.traversal
    obtain ⟨-, hmoved, hsize⟩ := walk_eq_ok hwalk
    obtain ⟨s', hrun, hcounts', hgeneration, hstamp⟩ := w.exists_run_stamp hmarks hwalk
    have hcard : t.passed.length = C.card := by
      rw [← Multiset.coe_card, hpassed]
      rfl
    have hmem : ∀ n, n ∈ t.passed ↔ n ∈ C := by
      intro n
      rw [← Multiset.mem_coe, hpassed]
      rfl
    refine ⟨s', by rw [← hcard]; exact hrun, by rw [hcounts', hsize], fun v => ?_, hgeneration,
      fun n => ?_⟩
    · have hv := hmoved v
      rw [hpassed] at hv
      rw [hcounts']
      exact hv
    · rw [hstamp]
      simp only [hmem]

/-- The two gates read each other and die together; the leaf does not. -/
theorem dereference_outcome_feedback :
    ∃ C s', IsLeast {C | (FaninTable.networkOf ConeQuery.feedback.rows).Absorbing .all
        ConeQuery.feedback.stores.counts 0 C} C ∧
      dereference ⟨.all, true, .iterative⟩ (FaninTable.networkOf ConeQuery.feedback.rows) 0
        ConeQuery.feedback.stores = .ok (2, s') ∧
      C.card = 2 ∧ s'.counts = ⟨#[3, 0, 0]⟩ ∧ ∀ n, n ∈ C → s'.marks.stamp n = .ok 1 := by
  obtain ⟨C, hC, hfault, hends⟩ := @dereference_outcome
    (FaninTable.networkOf ConeQuery.feedback.rows) 0 ConeQuery.feedback.stores
    ⟨.all, true, .iterative⟩ (FaninTable.closed_networkOf (by decide))
    (FaninTable.closed_networkOf (by decide)) ⟨_, rfl, rfl⟩
  have hruns : dereference ⟨.all, true, .iterative⟩
      (FaninTable.networkOf ConeQuery.feedback.rows) 0 ConeQuery.feedback.stores =
        .ok (2, ⟨⟨#[3, 0, 0]⟩, ⟨1, #[1, 1, 0]⟩⟩) := by rfl
  have hdraws : ¬ (FaninTable.networkOf ConeQuery.feedback.rows).Overdraws .all
      ConeQuery.feedback.stores.counts 0 C := by
    intro hdraws
    obtain ⟨v, hv⟩ := hfault hdraws
    rw [hruns] at hv
    cases hv
  obtain ⟨s', hs', -, -, -, hstamp⟩ := hends hdraws
  obtain ⟨hcard, rfl⟩ := Prod.mk.inj (Except.ok.inj (hruns.symm.trans hs'))
  exact ⟨C, _, hC, hruns, hcard.symm, rfl, fun n hn => (hstamp n).trans (if_pos ⟨rfl, hn⟩)⟩

/-- Where its parent in the set is the only one the root has, the root is entered again. -/
example : dereference {} (FaninTable.networkOf ConeQuery.feedback.rows) 0
    ⟨⟨#[1, 2, 1]⟩, ConeQuery.feedback.stores.marks⟩ = .error (.underflow 1) := by rfl

end CountingWalk

end FanoutCone
