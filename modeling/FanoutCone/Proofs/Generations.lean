import FanoutCone.Marks
import FanoutCone.Proofs.Result

/-!
# Generations of marks

Stamps are generations of the past or the current one, so none lies above the
generation. That is why a new generation starts with nothing marked, also where
counting starts again at one. `unmarked` counts the nodes that can still be
marked, and each fresh mark takes one of them.
-/
namespace FanoutCone.Marks

variable {m m' : Marks}

/-- No stamp lies above the generation. -/
def Bounded (m : Marks) : Prop := ∀ stamp ∈ m.stamps, stamp ≤ m.generation

def unmarked (m : Marks) : Nat := m.stamps.countP (· != m.generation)

theorem isMarked_eq_true_iff {n : Nat} :
    m.isMarked n = true ↔ m.stamps[n]? = some m.generation := by
  simp [isMarked]

theorem isMarked_iff_stamp {n : Nat} : m.isMarked n = true ↔ m.stamp n = .ok m.generation := by
  rw [isMarked_eq_true_iff, stamp]
  cases m.stamps[n]? <;> simp

theorem unmarked_le_size (m : Marks) : m.unmarked ≤ m.size := Array.countP_le_size

theorem bounded_empty : empty.Bounded := by
  simp [Bounded, empty]

theorem Bounded.grow (h : m.Bounded) (len : Nat) : (m.grow len).Bounded := by
  intro stamp hstamp
  rcases Array.mem_append.1 hstamp with hold | hnew
  · exact h stamp hold
  · rw [(Array.mem_replicate.1 hnew).2]
    exact Nat.zero_le _

theorem Bounded.setStamp (h : m.Bounded) {n stamp : Nat} (hstamp : stamp ≤ m.generation)
    (hm : m.setStamp n stamp = .ok m') : m'.Bounded := by
  obtain ⟨hn, rfl⟩ := setStamp_eq_ok_iff.1 hm
  intro s hs
  obtain ⟨i, hi, rfl⟩ := Array.mem_iff_getElem.1 hs
  rw [Array.getElem_set]
  split
  · exact hstamp
  · exact h _ (Array.getElem_mem _)

theorem Bounded.mark (h : m.Bounded) {n : Nat} (hm : m.mark n = .ok m') : m'.Bounded :=
  h.setStamp (Nat.le_refl _) hm

theorem Bounded.clear (h : m.Bounded) (n : Nat) : (m.clear n).Bounded := by
  obtain ⟨generation, stamps⟩ := m
  intro s hs
  obtain ⟨i, hi⟩ := Array.mem_iff_getElem?.1 hs
  simp only [Marks.clear, Array.getElem?_setIfInBounds] at hi
  split at hi
  · split at hi
    · rw [← Option.some.inj hi]
      exact Nat.zero_le _
    · cases hi
  · exact h s (Array.mem_of_getElem? hi)

@[simp] theorem size_clear (m : Marks) (n : Nat) : (m.clear n).size = m.size := by
  simp [clear, size]

/-- A cleared node is not marked, since generation zero is never current. -/
theorem isMarked_clear (h : 0 < m.generation) (n : Nat) : (m.clear n).isMarked n = false := by
  obtain ⟨generation, stamps⟩ := m
  rw [Bool.eq_false_iff, ne_eq, isMarked_eq_true_iff]
  intro hn
  simp only [clear, Array.getElem?_setIfInBounds, if_true] at hn h
  split at hn
  · cases hn
    omega
  · cases hn

/-- A new generation starts with nothing marked. -/
theorem isMarked_advance (h : m.Bounded) (n : Nat) : m.advance.isMarked n = false := by
  obtain ⟨generation, stamps⟩ := m
  rw [Bool.eq_false_iff, ne_eq, isMarked_eq_true_iff]
  intro hn
  by_cases hlast : generation < maxGeneration
  · simp only [advance, hlast, if_true] at hn
    have hle := h _ (Array.mem_of_getElem? hn)
    dsimp only at hle
    omega
  · simp [advance, hlast] at hn

theorem bounded_advance (h : m.Bounded) : m.advance.Bounded := by
  obtain ⟨generation, stamps⟩ := m
  intro stamp hstamp
  by_cases hlast : generation < maxGeneration
  · simp only [advance, hlast, if_true] at hstamp ⊢
    exact Nat.le_succ_of_le (h stamp hstamp)
  · simp only [advance, hlast, if_false, Array.mem_map] at hstamp ⊢
    obtain ⟨-, -, rfl⟩ := hstamp
    exact Nat.zero_le 1

theorem generation_advance_pos (m : Marks) : 0 < m.advance.generation := by
  obtain ⟨generation, stamps⟩ := m
  by_cases hlast : generation < maxGeneration
  · simp [advance, hlast]
  · simp [advance, hlast]

theorem mark_eq_ok_iff {n : Nat} :
    m.mark n = .ok m' ↔
      ∃ h : n < m.stamps.size, m' = ⟨m.generation, m.stamps.set n m.generation h⟩ :=
  setStamp_eq_ok_iff

theorem generation_mark {n : Nat} (h : m.mark n = .ok m') : m'.generation = m.generation := by
  obtain ⟨-, rfl⟩ := mark_eq_ok_iff.1 h
  rfl

theorem size_mark {n : Nat} (h : m.mark n = .ok m') : m'.size = m.size := by
  obtain ⟨-, rfl⟩ := mark_eq_ok_iff.1 h
  simp [size]

/-- A fresh mark leaves one node less to mark. -/
theorem unmarked_mark {n : Nat} (h : m.mark n = .ok m') (hn : m.isMarked n = false) :
    m'.unmarked + 1 = m.unmarked := by
  obtain ⟨hlt, rfl⟩ := mark_eq_ok_iff.1 h
  have hne : (m.stamps[n] != m.generation) = true := by
    simpa [isMarked, hlt] using hn
  have hle := Array.boole_getElem_le_countP (p := (· != m.generation)) hlt
  simp only [hne, if_true] at hle
  simp only [unmarked, Array.countP_set, hne, if_true, bne_self_eq_false, Bool.false_eq_true,
    if_false]
  omega

/-- What an operation on a network can make of the marks. -/
structure Evolves (m m' : Marks) : Prop where
  size_eq : m'.size = m.size
  bounded : m.Bounded → m'.Bounded
  generation_pos : 0 < m.generation → 0 < m'.generation

theorem Evolves.refl (m : Marks) : Evolves m m := ⟨rfl, id, id⟩

theorem Evolves.trans {m₁ : Marks} (h : Evolves m m₁) (h' : Evolves m₁ m') : Evolves m m' where
  size_eq := h'.size_eq.trans h.size_eq
  bounded hm := h'.bounded (h.bounded hm)
  generation_pos hm := h'.generation_pos (h.generation_pos hm)

theorem evolves_advance (m : Marks) : Evolves m m.advance where
  size_eq := size_advance m
  bounded := bounded_advance
  generation_pos _ := generation_advance_pos m

theorem evolves_mark {n : Nat} (h : m.mark n = .ok m') : Evolves m m' where
  size_eq := size_mark h
  bounded hm := hm.mark h
  generation_pos hm := by rwa [generation_mark h]

theorem evolves_markAll {nodes : List Nat} (h : m.markAll nodes = .ok m') : Evolves m m' := by
  induction nodes generalizing m with
  | nil =>
    obtain rfl : m = m' := by simpa [markAll, pure, Except.pure] using h
    exact Evolves.refl m
  | cons n nodes ih =>
    simp only [markAll, List.foldlM_cons] at h
    cases hmark : m.mark n with
    | error fault => simp [hmark, bind, Except.bind] at h
    | ok m₁ =>
      rw [hmark] at h
      exact (evolves_mark hmark).trans (ih h)

/-- Nodes in the store can be marked. -/
theorem exists_markAll {nodes : List Nat} (h : ∀ n ∈ nodes, n < m.size) :
    ∃ m', m.markAll nodes = .ok m' := by
  obtain ⟨m', hall, -⟩ : ∃ m', m.markAll nodes = .ok m' ∧ m'.size = m.size := by
    apply exists_foldlM (I := fun m' : Marks => m'.size = m.size) rfl
    intro n hn m₁ hsize
    have hlt : n < m₁.stamps.size := by
      rw [← size, hsize]
      exact h n hn
    have hmark : m₁.mark n = .ok ⟨m₁.generation, m₁.stamps.set n m₁.generation hlt⟩ :=
      mark_eq_ok_iff.2 ⟨hlt, rfl⟩
    exact ⟨_, hmark, (size_mark hmark).trans hsize⟩
  exact ⟨m', hall⟩

theorem markAll_cons (n : Nat) (nodes : List Nat) (m : Marks) :
    m.markAll (n :: nodes) = (m.mark n >>= (·.markAll nodes)) := by
  simp only [markAll, List.foldlM_cons]

theorem stamp_mark {k : Nat} (h : m.mark k = .ok m') (n : Nat) :
    m'.stamp n = if n = k then .ok m.generation else m.stamp n := by
  obtain ⟨hk, rfl⟩ := mark_eq_ok_iff.1 h
  simp only [stamp, Array.getElem?_set]
  by_cases hn : n = k
  · subst hn
    simp
  · simp [hn, Ne.symm hn]

/-- Marking nodes stamps just these with the generation, which stays. -/
theorem stamp_markAll {nodes : List Nat} (h : m.markAll nodes = .ok m') :
    m'.generation = m.generation ∧
      ∀ n, m'.stamp n = if n ∈ nodes then .ok m.generation else m.stamp n := by
  induction nodes generalizing m with
  | nil =>
    obtain rfl : m = m' := by simpa [markAll, pure, Except.pure] using h
    exact ⟨rfl, fun n => (if_neg List.not_mem_nil).symm⟩
  | cons k nodes ih =>
    rw [markAll_cons] at h
    obtain ⟨m₁, hmark, hrest⟩ := bind_eq_ok_iff.1 h
    obtain ⟨hgeneration, hstamp⟩ := ih hrest
    refine ⟨hgeneration.trans (generation_mark hmark), fun n => ?_⟩
    rw [hstamp, stamp_mark hmark, generation_mark hmark]
    simp only [List.mem_cons]
    by_cases hn : n ∈ nodes
    · simp [hn]
    · simp [hn]

/-- Two nodes can be marked in either order. -/
theorem mark_comm {m₁ : Marks} {a b : Nat} (ha : m.mark a = .ok m₁) (hb : m₁.mark b = .ok m') :
    ∃ m₂, m.mark b = .ok m₂ ∧ m₂.mark a = .ok m' := by
  obtain ⟨halt, rfl⟩ := mark_eq_ok_iff.1 ha
  obtain ⟨hblt, rfl⟩ := mark_eq_ok_iff.1 hb
  have hblt' : b < m.stamps.size := by simpa using hblt
  refine ⟨_, mark_eq_ok_iff.2 ⟨hblt', rfl⟩, mark_eq_ok_iff.2 ⟨by simpa using halt, ?_⟩⟩
  by_cases hab : a = b
  · subst hab
    rfl
  · dsimp only
    rw [Array.set_comm _ _ hab]

/-- A list of nodes can be marked in any order. -/
theorem markAll_perm {nodes nodes' : List Nat} (hperm : nodes.Perm nodes')
    (h : m.markAll nodes = .ok m') : m.markAll nodes' = .ok m' := by
  induction hperm generalizing m with
  | nil => exact h
  | cons n _ ih =>
    rw [markAll_cons] at h ⊢
    obtain ⟨m₁, hmark, hrest⟩ := bind_eq_ok_iff.1 h
    exact bind_eq_ok_iff.2 ⟨m₁, hmark, ih hrest⟩
  | swap a b nodes =>
    rw [markAll_cons] at h ⊢
    obtain ⟨m₁, hb, hrest⟩ := bind_eq_ok_iff.1 h
    rw [markAll_cons] at hrest
    obtain ⟨m₂, ha, hrest⟩ := bind_eq_ok_iff.1 hrest
    obtain ⟨m₃, ha', hb'⟩ := mark_comm hb ha
    refine bind_eq_ok_iff.2 ⟨m₃, ha', ?_⟩
    rw [markAll_cons]
    exact bind_eq_ok_iff.2 ⟨m₂, hb', hrest⟩
  | trans _ _ ih ih' => exact ih' (ih h)

/-- Only nodes in the store can be marked. -/
theorem lt_of_markAll {nodes : List Nat} (h : m.markAll nodes = .ok m') :
    ∀ n ∈ nodes, n < m.size := by
  induction nodes generalizing m with
  | nil => exact fun n hn => absurd hn List.not_mem_nil
  | cons a nodes ih =>
    rw [markAll_cons] at h
    obtain ⟨m₁, hmark, hrest⟩ := bind_eq_ok_iff.1 h
    intro n hn
    rcases List.mem_cons.1 hn with rfl | hn
    · exact (mark_eq_ok_iff.1 hmark).1
    · rw [← size_mark hmark]
      exact ih hrest n hn

end FanoutCone.Marks
