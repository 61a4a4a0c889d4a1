import FanoutCone.Walk

/-!
# Moves of a count

A walk changes counts only by moves: a dereference takes one parent, a reference
adds one. A count has room for so many moves: a dereference takes no more parents
than there are, and a reference adds no more than can be counted. A run of moves
in one direction takes a count between dead and alive at most once, and `flips`
says from the number of moves whether it did. What a move reports is whether it
was the one.

The nodes whose count can still change between dead and alive are the reserve of
a walk. Every report of a change takes one node from it.
-/
namespace FanoutCone

namespace Direction

/-- `after` is what `k` moves make of a count that was `before`. -/
def Moved : Direction → (before k after : Nat) → Prop
  | .dereference, before, k, after => after + k = before
  | .reference, before, k, after => after = before + k

/-- How many moves a count has room for. -/
def room : Direction → (count : Nat) → Nat
  | .dereference, count => count
  | .reference, count => FanoutCounts.maxCount - count

/-- Why a count without room cannot be moved. -/
def breach : Direction → (n : Nat) → Fault
  | .dereference, n => .underflow n
  | .reference, n => .overflow n

/-- Whether `k` moves take a count between dead and alive. -/
def flips : Direction → (before k : Nat) → Bool
  | .dereference, before, k => decide (0 < before) && decide (before ≤ k)
  | .reference, before, k => decide (before = 0) && decide (0 < k)

/-- Whether a count can still change between dead and alive. -/
def canFlip : Direction → (count : Nat) → Bool
  | .dereference, count => decide (0 < count)
  | .reference, count => decide (count = 0)

/-- How many nodes can still change between dead and alive. -/
def reserve (direction : Direction) (counts : FanoutCounts) : Nat :=
  counts.entries.countP fun k => direction.canFlip k.toNat

variable {direction : Direction} {counts counts' : FanoutCounts} {v : Nat} {changed : Bool}

/-- Taking parents kills a node that had some, if no fewer are taken. -/
theorem flips_dereference_iff {before k : Nat} :
    flips .dereference before k = true ↔ 0 < before ∧ before ≤ k := by
  simp only [flips, Bool.and_eq_true, decide_eq_true_eq]

/-- Any parent revives a node that had none. -/
theorem flips_reference_iff {before k : Nat} :
    flips .reference before k = true ↔ before = 0 ∧ 0 < k := by
  simp only [flips, Bool.and_eq_true, decide_eq_true_eq]

theorem flips_mono {before k k' : Nat} (hk : k ≤ k') (h : direction.flips before k = true) :
    direction.flips before k' = true := by
  cases direction with
  | reference =>
    obtain ⟨hbefore, hpos⟩ := flips_reference_iff.1 h
    exact flips_reference_iff.2 ⟨hbefore, Nat.lt_of_lt_of_le hpos hk⟩
  | dereference =>
    obtain ⟨hpos, hle⟩ := flips_dereference_iff.1 h
    exact flips_dereference_iff.2 ⟨hpos, Nat.le_trans hle hk⟩

theorem flips_toNat_mono {before k k' : Nat} (hk : k ≤ k') :
    (direction.flips before k).toNat ≤ (direction.flips before k').toNat := by
  cases h : direction.flips before k with
  | false => simp
  | true => simp [flips_mono hk h]

theorem pos_of_flips {before k : Nat} (h : direction.flips before k = true) : 0 < k := by
  cases direction with
  | reference => exact (flips_reference_iff.1 h).2
  | dereference =>
    obtain ⟨hpos, hle⟩ := flips_dereference_iff.1 h
    exact Nat.lt_of_lt_of_le hpos hle

@[simp] theorem flips_zero (before : Nat) : direction.flips before 0 = false := by
  cases direction with
  | reference => simp [flips]
  | dereference =>
    rw [← Bool.not_eq_true, flips_dereference_iff]
    omega

theorem moved_zero (before : Nat) : direction.Moved before 0 before := by
  cases direction <;> rfl

/-- One more move flips a count exactly when its liveness changes at that move. -/
theorem flips_succ {before k now next : Nat} (h : direction.Moved before k now)
    (hnext : direction.Moved now 1 next) :
    direction.Moved before (k + 1) next ∧
      (direction.flips before (k + 1)).toNat =
        (direction.flips before k).toNat + (decide (now = 0) != decide (next = 0)).toNat := by
  cases direction with
  | reference =>
    simp only [Moved] at h hnext
    subst h hnext
    refine ⟨by simp only [Moved]; omega, ?_⟩
    by_cases hbefore : before = 0
    · by_cases hk : k = 0
      · simp [flips, hbefore, hk]
      · have hk' : 0 < k := by omega
        simp [flips, hbefore, hk, hk']
    · simp [flips, hbefore]
  | dereference =>
    simp only [Moved] at h hnext
    obtain rfl : now = next + 1 := hnext.symm
    obtain rfl : before = next + 1 + k := h.symm
    refine ⟨by simp only [Moved]; omega, ?_⟩
    by_cases hdead : next = 0
    · simp [flips, hdead, Nat.add_comm]
    · have hbefore : ¬ next + 1 + k ≤ k + 1 := by omega
      have hbefore' : ¬ next + 1 + k ≤ k := by omega
      simp [flips, hdead, hbefore, hbefore']

/-- A move changes one count by one and reports whether that node changed between dead and
alive. -/
theorem move_eq_ok (h : direction.move v counts = .ok (changed, counts')) :
    v < counts.size ∧ counts'.size = counts.size ∧
      direction.Moved (counts.parents v) 1 (counts'.parents v) ∧
      (∀ u, u ≠ v → counts'.parents u = counts.parents u) ∧
      changed = (decide (counts.parents v = 0) != decide (counts'.parents v = 0)) := by
  cases direction with
  | reference =>
    unfold move at h
    cases hinc : counts.increment v with
    | error fault => simp [hinc] at h
    | ok result =>
      obtain ⟨before, counts₁⟩ := result
      simp only [hinc, Except.ok.injEq, Prod.mk.injEq] at h
      obtain ⟨rfl, rfl⟩ := h
      have hparents := FanoutCounts.parents_increment hinc
      have hself : counts₁.parents v = counts.parents v + 1 := by simp [hparents v]
      obtain ⟨hv, hbefore, -, -⟩ := FanoutCounts.increment_eq_ok_iff.1 hinc
      refine ⟨hv, FanoutCounts.size_increment hinc, hself, ?_, ?_⟩
      · intro u hu
        rw [hparents u, if_neg (Ne.symm hu)]
      · simp [hself, hbefore]
        rfl
  | dereference =>
    unfold move at h
    cases hdec : counts.decrement v with
    | error fault => simp [hdec] at h
    | ok result =>
      obtain ⟨after, counts₁⟩ := result
      simp only [hdec, Except.ok.injEq, Prod.mk.injEq] at h
      obtain ⟨rfl, rfl⟩ := h
      have hparents := FanoutCounts.parents_decrement hdec
      obtain ⟨hv, hbefore, -⟩ := FanoutCounts.decrement_eq_ok_iff.1 hdec
      have hself : counts₁.parents v = after := by simp [hparents v, hbefore]
      refine ⟨hv, FanoutCounts.size_decrement hdec, ?_, ?_, ?_⟩
      · rw [hself, hbefore]
        rfl
      · intro u hu
        rw [hparents u, if_neg (Ne.symm hu)]
      · simp [hself, hbefore]
        rfl

/-- Moves take up the room of a count. -/
theorem room_moved {before k : Nat} (h : direction.Moved before k (counts.parents v)) :
    direction.room (counts.parents v) + k = direction.room before := by
  have hle := counts.parents_le v
  cases direction with
  | reference =>
    simp only [Moved] at h
    simp only [room]
    omega
  | dereference => exact h

/-- Inside the store a move can fail only at a node whose count has no room for it. -/
theorem move_eq_error {fault : Fault} (h : direction.move v counts = .error fault)
    (hv : v < counts.size) :
    direction.room (counts.parents v) = 0 ∧ fault = direction.breach v := by
  cases direction with
  | reference =>
    by_cases hlt : counts.parents v < FanoutCounts.maxCount
    · have hinc := FanoutCounts.increment_eq_ok_iff.2 ⟨hv, rfl, hlt, rfl⟩
      simp [move, hinc] at h
    · have hfull := Nat.not_lt.1 hlt
      rw [move, FanoutCounts.increment_of_full hv hfull, Except.error.injEq] at h
      exact ⟨Nat.sub_eq_zero_of_le hfull, h.symm⟩
  | dereference =>
    cases hcount : counts.parents v with
    | zero =>
      rw [move, FanoutCounts.decrement_of_dead hv hcount, Except.error.injEq] at h
      exact ⟨rfl, h.symm⟩
    | succ k =>
      have hdec := FanoutCounts.decrement_eq_ok_iff.2 ⟨hv, hcount, rfl⟩
      simp [move, hdec] at h

/-- A move sets one entry. -/
theorem exists_set_of_move (h : direction.move v counts = .ok (changed, counts')) :
    ∃ hv k, counts' = ⟨counts.entries.set v k hv⟩ := by
  cases direction with
  | reference =>
    unfold move at h
    cases hinc : counts.increment v with
    | error fault => simp [hinc] at h
    | ok result =>
      simp only [hinc, Except.ok.injEq, Prod.mk.injEq] at h
      obtain ⟨hv, -, -, hset⟩ := FanoutCounts.increment_eq_ok_iff.1 hinc
      exact ⟨hv, _, h.2.symm.trans hset⟩
  | dereference =>
    unfold move at h
    cases hdec : counts.decrement v with
    | error fault => simp [hdec] at h
    | ok result =>
      simp only [hdec, Except.ok.injEq, Prod.mk.injEq] at h
      obtain ⟨hv, -, hset⟩ := FanoutCounts.decrement_eq_ok_iff.1 hdec
      exact ⟨hv, _, h.2.symm.trans hset⟩

/-- An entry that is set leaves the reserve with its old value and joins it with the new one. -/
theorem reserve_set (h : v < counts.entries.size) (k : UInt32) :
    direction.reserve ⟨counts.entries.set v k h⟩ + (direction.canFlip (counts.parents v)).toNat =
      direction.reserve counts + (direction.canFlip k.toNat).toNat := by
  have hboole : ∀ b : Bool, b.toNat = if b = true then 1 else 0 := by decide
  have hle := Array.boole_getElem_le_countP
    (p := fun k : UInt32 => direction.canFlip k.toNat) h
  simp only [reserve, Array.countP_set, FanoutCounts.parents_of_lt h, hboole] at hle ⊢
  omega

/-- A count that can still change no longer can once it has changed. -/
theorem canFlip_moved {now next : Nat} (h : direction.Moved now 1 next) :
    (direction.canFlip next).toNat + (decide (now = 0) != decide (next = 0)).toNat =
      (direction.canFlip now).toNat := by
  cases direction with
  | reference =>
    obtain rfl : next = now + 1 := h
    cases now <;> simp [canFlip]
  | dereference =>
    obtain rfl : next + 1 = now := h
    cases next <;> simp [canFlip]

/-- A reported change takes one node from the reserve. -/
theorem reserve_move (h : direction.move v counts = .ok (changed, counts')) :
    direction.reserve counts' + changed.toNat = direction.reserve counts := by
  obtain ⟨-, -, hmoved, -, hchanged⟩ := move_eq_ok h
  obtain ⟨hv, k, rfl⟩ := exists_set_of_move h
  have hset : direction.reserve ⟨counts.entries.set v k hv⟩ + _ = _ + _ := reserve_set hv k
  have hflip := canFlip_moved hmoved
  rw [← hchanged, FanoutCounts.parents_set, if_pos rfl] at hflip
  omega

theorem reserve_le_size (direction : Direction) (counts : FanoutCounts) :
    direction.reserve counts ≤ counts.size := by
  unfold reserve
  exact Array.countP_le_size

end Direction

end FanoutCone
