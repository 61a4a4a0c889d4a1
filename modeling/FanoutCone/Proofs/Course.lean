import FanoutCone.Proofs.Moves
import FanoutCone.Proofs.Shape

/-!
# Courses of counting walks

A walk passes the nodes of its trail in some order, and the order is the only
thing that a traversal decides. Here it is left open. Passing a node moves one
parent of the source of each of its kept fanin edges, and a node falls due when
the moves made so far take its count between dead and alive. The root is due
once from the start.

A list of passes is legal when no pass comes before it is due, and a multiset of
passes is complete when it leaves none due. A legal list never passes a node
more often than a complete one does. So a list that is both is determined up to
order, and it is what every traversal ends with.
-/
namespace FanoutCone

/-- What decides a walk up to the order of its passes. -/
structure Course where
  net : Network
  filter : EdgeFilter
  direction : Direction
  root : Nat
  /-- The number of parents of each node before the walk. -/
  before : Nat → Nat

namespace Course

variable {c : Course} {passed passed' : List Nat} {M N : Multiset Nat}

/-- How often the nodes of `M` use a node, as the walk counts. -/
def uses (c : Course) (M : Multiset Nat) (v : Nat) : Nat := c.net.uses c.filter M v

/-- How often a node is due once the nodes of `M` were passed. -/
def due (c : Course) (M : Multiset Nat) (v : Nat) : Nat :=
  (v == c.root).toNat + (c.direction.flips (c.before v) (c.uses M v)).toNat

/-- Passes, newest first, of internal nodes that were due when they were passed. -/
def Legal (c : Course) : (passed : List Nat) → Prop
  | [] => True
  | v :: passed => c.Legal passed ∧ c.net.Internal v ∧ passed.count v + 1 ≤ c.due passed v

/-- Passes that leave no internal node due. -/
def Complete (c : Course) (M : Multiset Nat) : Prop :=
  ∀ v, c.net.Internal v → c.due M v ≤ M.count v

/-- The passes of a walk that has come to its end. -/
structure IsOutcome (c : Course) (passed : List Nat) : Prop where
  legal : c.Legal passed
  complete : c.Complete passed

theorem uses_cons (n : Nat) (passed : List Nat) (v : Nat) :
    c.uses (n :: passed : List Nat) v = (c.net.sources c.filter n).count v + c.uses passed v := by
  rw [uses, ← Multiset.cons_coe, Network.uses_cons]
  rfl

theorem due_mono (h : M ≤ N) (v : Nat) : c.due M v ≤ c.due N v := by
  have huses : c.uses M v ≤ c.uses N v := Network.uses_mono h v
  have hflips : (c.direction.flips (c.before v) (c.uses M v)).toNat ≤
      (c.direction.flips (c.before v) (c.uses N v)).toNat := Direction.flips_toNat_mono huses
  unfold due
  omega

theorem due_pos_iff {v : Nat} :
    0 < c.due M v ↔ v = c.root ∨ c.direction.flips (c.before v) (c.uses M v) = true := by
  by_cases hroot : v = c.root
  · simp only [due, hroot, beq_self_eq_true, Bool.toNat_true, true_or, iff_true]
    omega
  · cases hflips : c.direction.flips (c.before v) (c.uses M v) <;> simp [due, hroot, hflips]

theorem Legal.internal_of_mem (h : c.Legal passed) {v : Nat} (hv : v ∈ passed) :
    c.net.Internal v := by
  induction passed with
  | nil => cases hv
  | cons n passed ih =>
    rcases List.mem_cons.1 hv with rfl | hv
    · exact h.2.1
    · exact ih h.1 hv

/-- No node was passed more often than it is due by now. -/
theorem Legal.count_le_due (h : c.Legal passed) (v : Nat) : passed.count v ≤ c.due passed v := by
  induction passed with
  | nil => simp
  | cons n passed ih =>
    have hmono : c.due passed v ≤ c.due (n :: passed : List Nat) v :=
      due_mono (Multiset.coe_le.2 (List.sublist_cons_self n passed).subperm) v
    by_cases hn : n = v
    · subst hn
      have hdue := h.2.2
      rw [List.count_cons_self]
      omega
    · rw [List.count_cons_of_ne hn]
      exact (ih h.1).trans hmono

/-- The least action: a legal list passes no node more often than complete passes do. -/
theorem Legal.le_of_complete (h : c.Legal passed) (hM : c.Complete M) :
    (passed : Multiset Nat) ≤ M := by
  induction passed with
  | nil => exact Multiset.zero_le M
  | cons n passed ih =>
    have hle := ih h.1
    rw [Multiset.le_iff_count]
    intro v
    by_cases hn : n = v
    · subst hn
      have hdue := h.2.2
      have hmono := due_mono (c := c) hle n
      have hcomplete := hM n h.2.1
      rw [Multiset.coe_count, List.count_cons_self]
      omega
    · rw [Multiset.coe_count, List.count_cons_of_ne hn, ← Multiset.coe_count]
      exact Multiset.count_le_of_le v hle

/-- A walk has one outcome, whatever the order in which it takes the nodes. -/
theorem IsOutcome.perm (h : c.IsOutcome passed) (h' : c.IsOutcome passed') :
    passed.Perm passed' := by
  have hle := h.legal.le_of_complete h'.complete
  have hge := h'.legal.le_of_complete h.complete
  exact Multiset.coe_eq_coe.1 (le_antisymm hle hge)

theorem IsOutcome.count_eq (h : c.IsOutcome passed) {v : Nat} (hv : c.net.Internal v) :
    passed.count v = c.due passed v := by
  have hle := h.legal.count_le_due v
  have hge := h.complete v hv
  rw [Multiset.coe_count] at hge
  omega

/-- The internal nodes whose liveness changed were passed, and the root. -/
theorem IsOutcome.mem_iff (h : c.IsOutcome passed) {v : Nat} :
    v ∈ passed ↔ c.net.Internal v ∧
      (v = c.root ∨ c.direction.flips (c.before v) (c.uses passed v) = true) := by
  constructor
  · intro hv
    have hinternal := h.legal.internal_of_mem hv
    refine ⟨hinternal, due_pos_iff.1 ?_⟩
    rw [← h.count_eq hinternal]
    exact List.count_pos_iff.2 hv
  · rintro ⟨hinternal, hv⟩
    rw [← List.count_pos_iff, h.count_eq hinternal]
    exact due_pos_iff.2 hv

/-- Every node passed is connected to the root by kept fanin edges. -/
theorem Legal.reachable (h : c.Legal passed) {v : Nat} (hv : v ∈ passed) :
    Relation.ReflTransGen (fun u w => w ∈ c.net.sources c.filter u) c.root v := by
  induction passed generalizing v with
  | nil => cases hv
  | cons n passed ih =>
    rcases List.mem_cons.1 hv with rfl | hv
    · have hdue : 0 < c.due passed v := by
        have hn := h.2.2
        omega
      rcases due_pos_iff.1 hdue with hroot | hflips
      · rw [hroot]
      · obtain ⟨u, hu, huv⟩ := Network.uses_pos_iff.1 (Direction.pos_of_flips hflips)
        exact (ih h.1 (Multiset.mem_coe.1 hu)).tail huv
    · exact ih h.1 hv

/-- The walk that gives the parents back which the nodes of `M` have lost. -/
def back (c : Course) (M : Multiset Nat) : Course :=
  { c with direction := .reference, before := fun v => c.before v - c.uses M v }

/-- The nodes that a dereference passed are those that a reference after it passes: on the way
down a node falls due when its last parent is taken, and on the way up when it gets a first one. -/
theorem IsOutcome.back (h : c.IsOutcome passed) (hdown : c.direction = .dereference)
    (hle : ∀ v, c.uses passed v ≤ c.before v) : (c.back passed).IsOutcome passed := by
  have hdue : ∀ v, (c.back passed).due passed v = c.due passed v := by
    intro v
    have hv := hle v
    show (v == c.root).toNat + (Direction.flips .reference (c.before v - c.uses passed v)
      (c.uses passed v)).toNat = _
    rw [due, hdown]
    congr 2
    rw [Bool.eq_iff_iff, Direction.flips_reference_iff, Direction.flips_dereference_iff]
    omega
  -- A pass due on the way down is due on the way up, among the same older passes.
  have hlegal : ∀ older : List Nat, (older : Multiset Nat) ≤ passed → c.Legal older →
      (c.back passed).Legal older := by
    intro older
    induction older with
    | nil => exact fun _ _ => trivial
    | cons n older ih =>
      intro hsub holder
      have hsub' : (older : Multiset Nat) ≤ passed :=
        (Multiset.coe_le.2 (List.sublist_cons_self n older).subperm).trans hsub
      refine ⟨ih hsub' holder.1, holder.2.1, holder.2.2.trans ?_⟩
      show c.due older n ≤ (n == c.root).toNat + (Direction.flips .reference
        (c.before n - c.uses passed n) (c.uses older n)).toNat
      have huses : c.uses older n ≤ c.uses passed n := Network.uses_mono hsub' n
      have hn := hle n
      rw [due, hdown]
      refine Nat.add_le_add_left ?_ _
      cases hflips : Direction.flips .dereference (c.before n) (c.uses older n) with
      | false => simp
      | true =>
        have hup : Direction.flips .reference (c.before n - c.uses passed n)
            (c.uses older n) = true := by
          rw [Direction.flips_dereference_iff] at hflips
          rw [Direction.flips_reference_iff]
          omega
        rw [hup]
  refine ⟨hlegal passed le_rfl h.legal, ?_⟩
  intro v hv
  rw [hdue v]
  exact h.complete v hv

end Course

end FanoutCone
