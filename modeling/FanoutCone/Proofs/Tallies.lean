import FanoutCone.FanoutCounts
import FanoutCone.Proofs.Result

/-!
# Tallies of lists

Adding a parent to each node of a list raises every count by the number of times
that the list names the node, as long as there is room for them all, and taking
the parents away again undoes it. A store is determined by its size and the
parents of its nodes.
-/
namespace FanoutCone.FanoutCounts

variable {c c' : FanoutCounts} {nodes : List Nat}

theorem ext_parents (hsize : c.size = c'.size) (hparents : ∀ v, c.parents v = c'.parents v) :
    c = c' := by
  obtain ⟨entries⟩ := c
  obtain ⟨entries'⟩ := c'
  congr 1
  apply Array.ext hsize
  intro i hi hi'
  have hv := hparents i
  rw [parents_of_lt hi, parents_of_lt hi'] at hv
  exact UInt32.toNat_inj.1 hv

theorem count_of_lt {n : Nat} (h : n < c.size) : c.count n = .ok (c.parents n) := by
  have hget : c.entries[n]? = some c.entries[n] := Array.getElem?_eq_getElem h
  simp only [count, hget, parents_of_lt h]

theorem exists_increment {n : Nat} (h : n < c.size) (hlt : c.parents n < maxCount) :
    ∃ c', c.increment n = .ok (c.parents n, c') :=
  ⟨_, increment_eq_ok_iff.2 ⟨h, rfl, hlt, rfl⟩⟩

theorem exists_decrement {n : Nat} (h : n < c.size) (hpos : 0 < c.parents n) :
    ∃ c', c.decrement n = .ok (c.parents n - 1, c') :=
  ⟨_, decrement_eq_ok_iff.2 ⟨h, by omega, rfl⟩⟩

theorem incrementAll_nil_eq_ok (h : c.incrementAll [] = .ok c') : c = c' := by
  simpa [incrementAll, pure, Except.pure] using h

theorem incrementAll_cons (n : Nat) (nodes : List Nat) (c : FanoutCounts) :
    c.incrementAll (n :: nodes) = ((c.increment n).map Prod.snd >>= (·.incrementAll nodes)) := by
  simp only [incrementAll, List.foldlM_cons]

theorem decrementAll_cons (n : Nat) (nodes : List Nat) (c : FanoutCounts) :
    c.decrementAll (n :: nodes) = ((c.decrement n).map Prod.snd >>= (·.decrementAll nodes)) := by
  simp only [decrementAll, List.foldlM_cons]

/-- A parent that was added is one less to add. -/
theorem parents_add_count_cons {n before : Nat} (h : c.increment n = .ok (before, c')) (v : Nat) :
    c'.parents v + nodes.count v = c.parents v + (n :: nodes).count v := by
  rw [parents_increment h v, List.count_cons]
  simp only [beq_iff_eq]
  split <;> omega

theorem incrementAll_eq_ok (h : c.incrementAll nodes = .ok c') :
    c'.size = c.size ∧ ∀ v, c'.parents v = c.parents v + nodes.count v := by
  induction nodes generalizing c with
  | nil =>
    obtain rfl := incrementAll_nil_eq_ok h
    exact ⟨rfl, fun v => by simp⟩
  | cons n nodes ih =>
    rw [incrementAll_cons] at h
    obtain ⟨c₁, hfirst, hrest⟩ := bind_eq_ok_iff.1 h
    obtain ⟨⟨before, c₁⟩, hinc, rfl⟩ := map_eq_ok_iff.1 hfirst
    obtain ⟨hsize, hparents⟩ := ih hrest
    refine ⟨hsize.trans (size_increment hinc), fun v => ?_⟩
    rw [hparents v, parents_add_count_cons hinc]

/-- Where all nodes of a list are in the store, only a count can be in the way. -/
theorem incrementAll_eq_error {fault : Fault} (hlt : ∀ n ∈ nodes, n < c.size)
    (h : c.incrementAll nodes = .error fault) :
    ∃ n, fault = .overflow n ∧ maxCount < c.parents n + nodes.count n := by
  induction nodes generalizing c with
  | nil => cases h
  | cons n nodes ih =>
    obtain ⟨hn, hnodes⟩ := List.forall_mem_cons.1 hlt
    rw [incrementAll_cons] at h
    by_cases hroom : c.parents n < maxCount
    · obtain ⟨c₁, hinc⟩ := exists_increment hn hroom
      rw [hinc, map_ok, ok_bind] at h
      obtain ⟨m, hfault, hm⟩ := ih (by rwa [size_increment hinc]) h
      exact ⟨m, hfault, by rwa [parents_add_count_cons hinc] at hm⟩
    · have hfull := Nat.not_lt.1 hroom
      rw [increment_of_full hn hfull, map_error, error_bind, Except.error.injEq] at h
      refine ⟨n, h.symm, ?_⟩
      rw [List.count_cons_self]
      omega

theorem RoomFor.parents_lt {n : Nat} (h : c.RoomFor (n :: nodes)) : c.parents n < maxCount := by
  have hn := h n List.mem_cons_self
  rw [List.count_cons_self] at hn
  omega

/-- A parent that was added leaves room for the rest. -/
theorem RoomFor.increment {n before : Nat} (h : c.RoomFor (n :: nodes))
    (hinc : c.increment n = .ok (before, c')) : c'.RoomFor nodes := by
  intro v hv
  rw [parents_add_count_cons hinc]
  exact h v (List.mem_cons_of_mem n hv)

theorem roomFor_of_incrementAll (h : c.incrementAll nodes = .ok c') : c.RoomFor nodes := by
  intro v _
  rw [← (incrementAll_eq_ok h).2 v]
  exact c'.parents_le v

theorem exists_incrementAll (h : ∀ n ∈ nodes, n < c.size) (hroom : c.RoomFor nodes) :
    ∃ c', c.incrementAll nodes = .ok c' := by
  cases hall : c.incrementAll nodes with
  | ok c' => exact ⟨c', rfl⟩
  | error fault =>
    obtain ⟨n, -, hover⟩ := incrementAll_eq_error h hall
    have hle := c.parents_le n
    have hmem : n ∈ nodes := List.count_pos_iff.1 (by omega)
    exact absurd (hroom n hmem) (Nat.not_le.2 hover)

/-- Parents that were added can be taken away. -/
theorem decrementAll_of_incrementAll (h : c.incrementAll nodes = .ok c') :
    c'.decrementAll nodes = .ok c := by
  obtain ⟨hsize, hparents⟩ := incrementAll_eq_ok h
  have hmem : ∀ n ∈ nodes, n < c'.size := by
    intro n hn
    apply Nat.lt_of_not_le
    intro hle
    have hzero := parents_eq_zero_of_le hle
    have hpos := List.count_pos_iff.2 hn
    have hn := hparents n
    omega
  clear h
  induction nodes generalizing c' with
  | nil =>
    obtain rfl : c' = c := ext_parents hsize fun v => by simpa using hparents v
    rfl
  | cons n nodes ih =>
    have hn := hparents n
    rw [List.count_cons_self] at hn
    obtain ⟨c₁, hdec⟩ := exists_decrement (hmem n List.mem_cons_self) (by omega)
    rw [decrementAll_cons, hdec, map_ok, ok_bind]
    refine ih ((size_decrement hdec).trans hsize) (fun v => ?_) fun m hm => ?_
    · have hv := hparents v
      rw [List.count_cons] at hv
      rw [parents_decrement hdec v]
      simp only [beq_iff_eq] at hv
      split <;> rename_i hvn
      · rw [if_pos hvn] at hv
        omega
      · rw [if_neg hvn] at hv
        omega
    · rw [size_decrement hdec]
      exact hmem m (List.mem_cons_of_mem n hm)

end FanoutCone.FanoutCounts
