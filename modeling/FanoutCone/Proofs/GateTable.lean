import Mathlib.Algebra.Order.BigOperators.Group.Finset
import Mathlib.Logic.Relation
import FanoutCone.Edge

/-!
# Gate tables

A gate table says which indices hold gates and what the two fanin edges of each
are. It is what a graph with gates looks like when its storage is forgotten.
Gates can be added at free indices and erased, and either way the number of
times that gates use a node changes by what the gates concerned read.
-/
namespace FanoutCone

/-- The fanin edges of each gate, by index. -/
abbrev GateTable := Nat → Option (Edge × Edge)

namespace GateTable

def sources (T : GateTable) (n : Nat) : List Nat :=
  match T n with
  | some (left, right) => [left.node, right.node]
  | none => []

def Reads (T : GateTable) (u v : Nat) : Prop := v ∈ T.sources u

/-- No gate reads itself, directly or through others. -/
def Acyclic (T : GateTable) : Prop := ∀ v, ¬ Relation.TransGen T.Reads v v

/-- How many fanins of gates below `bound` come from `v`. -/
def uses (T : GateTable) (bound v : Nat) : Nat :=
  ∑ u ∈ Finset.range bound, (T.sources u).count v

def empty : GateTable := fun _ => none

def insert (T : GateTable) (n : Nat) (left right : Edge) : GateTable :=
  Function.update T n (some (left, right))

def erase (T : GateTable) (nodes : List Nat) : GateTable :=
  fun n => if n ∈ nodes then none else T n

def below (T : GateTable) (k : Nat) : GateTable := fun n => if n < k then T n else none

variable {T : GateTable} {n u v bound : Nat} {left right : Edge} {nodes : List Nat}

theorem sources_of_some (h : T n = some (left, right)) :
    T.sources n = [left.node, right.node] := by
  simp [sources, h]

theorem sources_of_none (h : T n = none) : T.sources n = [] := by
  simp [sources, h]

theorem Reads.exists_gate (h : T.Reads u v) : ∃ left right, T u = some (left, right) := by
  unfold Reads sources at h
  cases hT : T u with
  | none => simp [hT] at h
  | some p => exact ⟨p.1, p.2, rfl⟩

@[simp] theorem insert_self (T : GateTable) (n : Nat) (left right : Edge) :
    T.insert n left right n = some (left, right) := by
  simp [insert]

theorem insert_of_ne (h : u ≠ n) : T.insert n left right u = T u := by
  simp [insert, h]

theorem erase_of_mem (h : n ∈ nodes) : T.erase nodes n = none := if_pos h

theorem erase_of_not_mem (h : n ∉ nodes) : T.erase nodes n = T n := if_neg h

@[simp] theorem erase_nil (T : GateTable) : T.erase [] = T :=
  funext fun _ => erase_of_not_mem List.not_mem_nil

theorem erase_erase (T : GateTable) (nodes nodes' : List Nat) :
    (T.erase nodes).erase nodes' = T.erase (nodes ++ nodes') := by
  funext v
  by_cases hv : v ∈ nodes
  · by_cases hv' : v ∈ nodes' <;> simp [erase, hv, hv']
  · by_cases hv' : v ∈ nodes' <;> simp [erase, hv, hv']

@[simp] theorem below_zero (T : GateTable) : T.below 0 = empty :=
  funext fun n => if_neg (Nat.not_lt_zero n)

theorem below_eq_self {k : Nat} (h : ∀ n, k ≤ n → T n = none) : T.below k = T := by
  funext n
  unfold below
  split
  · rfl
  · rename_i hn
    exact (h n (Nat.not_lt.1 hn)).symm

theorem below_succ_of_some {k : Nat} (h : T k = some (left, right)) :
    T.below (k + 1) = (T.below k).insert k left right := by
  funext n
  by_cases hn : n = k
  · rw [hn, insert_self, below, if_pos (Nat.lt_succ_self k), h]
  · rw [insert_of_ne hn, below, below]
    have hiff : n < k + 1 ↔ n < k := by omega
    simp only [hiff]

theorem below_succ_of_none {k : Nat} (h : T k = none) : T.below (k + 1) = T.below k := by
  funext n
  by_cases hn : n = k
  · rw [hn, below, below, if_pos (Nat.lt_succ_self k), if_neg (Nat.lt_irrefl k), h]
  · have hiff : n < k + 1 ↔ n < k := by omega
    simp only [below, hiff]

theorem sources_insert_of_ne (h : u ≠ n) : (T.insert n left right).sources u = T.sources u := by
  simp only [sources, insert_of_ne h]

theorem sources_erase_of_not_mem (h : n ∉ nodes) : (T.erase nodes).sources n = T.sources n := by
  simp only [sources, erase_of_not_mem h]

theorem uses_empty (bound v : Nat) : empty.uses bound v = 0 := by
  simp [uses, sources, empty]

/-- Gates lie below a bound, so a greater bound counts the same uses. -/
theorem uses_of_le {bound' : Nat} (hle : bound ≤ bound') (hT : ∀ u, bound ≤ u → T u = none) :
    T.uses bound' v = T.uses bound v := by
  unfold uses
  refine (Finset.sum_subset (Finset.range_subset_range.2 hle) fun u _ hu => ?_).symm
  rw [sources_of_none (hT u (by simpa using hu)), List.count_nil]

theorem uses_below_le (T : GateTable) (k bound v : Nat) :
    (T.below k).uses bound v ≤ T.uses bound v := by
  unfold uses
  refine Finset.sum_le_sum fun u _ => ?_
  by_cases hu : u < k
  · rw [sources, below, if_pos hu]
    rfl
  · rw [sources_of_none (if_neg hu), List.count_nil]
    exact Nat.zero_le _

theorem uses_pos_iff : 0 < T.uses bound v ↔ ∃ u < bound, T.Reads u v := by
  unfold uses
  rw [Finset.sum_pos_iff]
  simp only [Finset.mem_range, List.count_pos_iff]
  rfl

theorem uses_insert (hn : T n = none) (hlt : n < bound) :
    (T.insert n left right).uses bound v =
      T.uses bound v + [left.node, right.node].count v := by
  unfold uses
  have hmem : n ∈ Finset.range bound := Finset.mem_range.2 hlt
  rw [← Finset.sum_erase_add _ _ hmem, ← Finset.sum_erase_add (Finset.range bound) _ hmem,
    sources_of_some (T.insert_self n left right), sources_of_none hn, List.count_nil, Nat.add_zero]
  congr 1
  apply Finset.sum_congr rfl
  intro u hu
  rw [sources_insert_of_ne (Finset.ne_of_mem_erase hu)]

theorem uses_erase (hlt : ∀ u ∈ nodes, u < bound) :
    (T.erase nodes).uses bound v + ∑ u ∈ nodes.toFinset, (T.sources u).count v =
      T.uses bound v := by
  unfold uses
  have hsub : nodes.toFinset ⊆ Finset.range bound := fun u hu =>
    Finset.mem_range.2 (hlt u (List.mem_toFinset.1 hu))
  have hbefore := Finset.sum_sdiff hsub (f := fun u => (T.sources u).count v)
  have hafter := Finset.sum_sdiff hsub (f := fun u => ((T.erase nodes).sources u).count v)
  have herased : ∑ u ∈ nodes.toFinset, ((T.erase nodes).sources u).count v = 0 :=
    Finset.sum_eq_zero fun u hu => by
      rw [sources_of_none (erase_of_mem (List.mem_toFinset.1 hu)), List.count_nil]
  have hkept : ∑ u ∈ Finset.range bound \ nodes.toFinset, ((T.erase nodes).sources u).count v =
      ∑ u ∈ Finset.range bound \ nodes.toFinset, (T.sources u).count v :=
    Finset.sum_congr rfl fun u hu => by
      have hnot : u ∉ nodes := fun hmem => (Finset.mem_sdiff.1 hu).2 (List.mem_toFinset.2 hmem)
      rw [sources_erase_of_not_mem hnot]
  rw [← hafter, ← hbefore, herased, hkept, Nat.add_zero]

theorem Acyclic.mono {T' : GateTable} (h : T.Acyclic) (hsub : ∀ u v, T'.Reads u v → T.Reads u v) :
    T'.Acyclic := fun v hv => h v (Relation.TransGen.mono hsub v v hv)

theorem acyclic_empty : empty.Acyclic := by
  intro v hv
  obtain ⟨w, hw, -⟩ := Relation.TransGen.head'_iff.1 hv
  obtain ⟨left, right, hgate⟩ := hw.exists_gate
  cases hgate

theorem Reads.of_erase (h : (T.erase nodes).Reads u v) : u ∉ nodes ∧ T.Reads u v := by
  obtain ⟨left, right, hgate⟩ := h.exists_gate
  have hu : u ∉ nodes := by
    intro hmem
    rw [erase_of_mem hmem] at hgate
    cases hgate
  refine ⟨hu, ?_⟩
  unfold Reads at h ⊢
  rwa [sources_erase_of_not_mem hu] at h

theorem Reads.erase (h : T.Reads u v) (hu : u ∉ nodes) : (T.erase nodes).Reads u v := by
  unfold Reads at h ⊢
  rwa [sources_erase_of_not_mem hu]

theorem Acyclic.erase (h : T.Acyclic) (nodes : List Nat) : (T.erase nodes).Acyclic :=
  h.mono fun _ _ hread => hread.of_erase.2

/-- A new gate that no gate reads, not even itself, lies on no cycle. -/
theorem Acyclic.insert (h : T.Acyclic) (hunread : ∀ u, ¬ T.Reads u n) (hleft : left.node ≠ n)
    (hright : right.node ≠ n) : (T.insert n left right).Acyclic := by
  have hunread' : ∀ u, ¬ (T.insert n left right).Reads u n := by
    intro u hu
    by_cases hun : u = n
    · subst hun
      unfold Reads at hu
      rw [sources_of_some (T.insert_self u left right)] at hu
      simp [hleft.symm, hright.symm] at hu
    · unfold Reads at hu
      rw [sources_insert_of_ne hun] at hu
      exact hunread u hu
  have hpath : ∀ u v, u ≠ n → Relation.TransGen (T.insert n left right).Reads u v →
      Relation.TransGen T.Reads u v ∧ v ≠ n := by
    intro u v hu huv
    have hstep : ∀ w x, w ≠ n → (T.insert n left right).Reads w x → T.Reads w x := by
      intro w x hw hwx
      unfold Reads at hwx ⊢
      rwa [sources_insert_of_ne hw] at hwx
    induction huv with
    | single hread => exact ⟨.single (hstep _ _ hu hread), fun hv => hunread' u (hv ▸ hread)⟩
    | tail _ hread ih => exact ⟨ih.1.tail (hstep _ _ ih.2 hread), fun hv => hunread' _ (hv ▸ hread)⟩
  intro v hv
  by_cases hvn : v = n
  · obtain ⟨w, -, hw⟩ := Relation.TransGen.tail'_iff.1 hv
    exact hunread' w (hvn ▸ hw)
  · exact h v (hpath v v hvn hv).1

end GateTable

end FanoutCone
