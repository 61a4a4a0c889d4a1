import FanoutCone.Fault

/-!
# Fanout counts

One counter for each node of an arena: how many live parents consume the node.
A count is a 32-bit number, and counts only move by one. `increment` reports the
count before, `decrement` the count after, so that either report is zero exactly
when the node changed between dead and alive. Taking a parent from a node that
has none is a fault, never a clamp at zero, and so is adding one to a node that
has as many as can be counted. `parents` is the total view: a node outside the
store has none.

A network grows its store with `grow`, as one node after another comes in.
`resize` takes any length, and refuses one that no store can have.
-/
namespace FanoutCone

/-- The number of live parents of each node, by index. -/
structure FanoutCounts where
  entries : Array UInt32
deriving DecidableEq

namespace FanoutCounts

/-- The most parents that can be counted. -/
def maxCount : Nat := 4294967295

def empty : FanoutCounts := ⟨#[]⟩

def size (c : FanoutCounts) : Nat := c.entries.size

/-- Grows the store to `len` nodes, the new ones without parents. Never shrinks it. -/
def grow (c : FanoutCounts) (len : Nat) : FanoutCounts :=
  ⟨c.entries ++ Array.replicate (len - c.entries.size) 0⟩

/-- Grows the store to `len` nodes, if a store can hold as many. -/
def resize (c : FanoutCounts) (len : Nat) : Except Fault FanoutCounts :=
  if len ≤ Node.maxStored then .ok (c.grow len) else .error (.storeTooLarge len)

/-- The number of live parents of `n`, zero outside the store. -/
def parents (c : FanoutCounts) (n : Nat) : Nat := (c.entries.getD n 0).toNat

/-- The number of live parents of `n`, which has to be in the store. -/
def count (c : FanoutCounts) (n : Nat) : Except Fault Nat :=
  match c.entries[n]? with
  | some k => .ok k.toNat
  | none => .error (.absentNode n)

/-- Adds a parent to `n` and returns the count before. -/
def increment (c : FanoutCounts) (n : Nat) : Except Fault (Nat × FanoutCounts) :=
  match c with
  | ⟨entries⟩ =>
    if h : n < entries.size then
      let before := entries[n]
      if before.toNat < maxCount then .ok (before.toNat, ⟨entries.set n (before + 1) h⟩)
      else .error (.overflow n)
    else .error (.absentNode n)

/-- Takes a parent from `n` and returns the count after. -/
def decrement (c : FanoutCounts) (n : Nat) : Except Fault (Nat × FanoutCounts) :=
  match c with
  | ⟨entries⟩ =>
    if h : n < entries.size then
      let before := entries[n]
      if 0 < before.toNat then
        let after := before - 1
        .ok (after.toNat, ⟨entries.set n after h⟩)
      else .error (.underflow n)
    else .error (.absentNode n)

/-- Adds a parent to each node of a list, in order. -/
def incrementAll (c : FanoutCounts) (nodes : List Nat) : Except Fault FanoutCounts :=
  nodes.foldlM (fun c n => (c.increment n).map Prod.snd) c

/-- Takes a parent from each node of a list, in order. -/
def decrementAll (c : FanoutCounts) (nodes : List Nat) : Except Fault FanoutCounts :=
  nodes.foldlM (fun c n => (c.decrement n).map Prod.snd) c

/-- Whether the nodes of a list can get a parent each time that it names them. -/
def RoomFor (c : FanoutCounts) (nodes : List Nat) : Prop :=
  ∀ n ∈ nodes, c.parents n + nodes.count n ≤ maxCount

instance (c : FanoutCounts) (nodes : List Nat) : Decidable (c.RoomFor nodes) :=
  inferInstanceAs (Decidable (∀ n ∈ nodes, c.parents n + nodes.count n ≤ maxCount))

theorem toNat_add_one {k : UInt32} (h : k.toNat < maxCount) : (k + 1).toNat = k.toNat + 1 := by
  rw [UInt32.toNat_add, UInt32.toNat_one]
  exact Nat.mod_eq_of_lt (Nat.succ_lt_succ h)

theorem toNat_sub_one {k : UInt32} (h : 0 < k.toNat) : (k - 1).toNat = k.toNat - 1 :=
  UInt32.toNat_sub_of_le k 1 (UInt32.le_iff_toNat_le.2 (by rwa [UInt32.toNat_one]))

@[simp] theorem size_empty : empty.size = 0 := rfl

@[simp] theorem size_grow (c : FanoutCounts) (len : Nat) :
    (c.grow len).size = max c.size len := by
  simp [grow, size]; omega

theorem resize_eq_ok_iff {c c' : FanoutCounts} {len : Nat} :
    c.resize len = .ok c' ↔ len ≤ Node.maxStored ∧ c' = c.grow len := by
  by_cases h : len ≤ Node.maxStored
  · simp [resize, h, eq_comm]
  · simp [resize, h]

theorem count_eq_ok {c : FanoutCounts} {n k : Nat} (h : c.count n = .ok k) : k = c.parents n := by
  unfold count at h
  cases hn : c.entries[n]? with
  | none => simp [hn] at h
  | some k' =>
    rw [hn, Except.ok.injEq] at h
    rw [← h, parents, Array.getD_eq_getD_getElem?, hn]
    rfl

theorem parents_of_lt {c : FanoutCounts} {n : Nat} (h : n < c.entries.size) :
    c.parents n = c.entries[n].toNat := by
  simp [parents, h]

theorem parents_eq_zero_of_le {c : FanoutCounts} {n : Nat} (h : c.size ≤ n) : c.parents n = 0 := by
  have h' : ¬ n < c.entries.size := Nat.not_lt.2 h
  simp [parents, h']

theorem parents_le (c : FanoutCounts) (n : Nat) : c.parents n ≤ maxCount :=
  Nat.le_of_lt_succ (UInt32.toNat_lt _)

@[simp] theorem parents_grow (c : FanoutCounts) (len n : Nat) :
    (c.grow len).parents n = c.parents n := by
  obtain ⟨entries⟩ := c
  simp only [grow, parents, Array.getD_eq_getD_getElem?, Array.getElem?_append]
  split
  · rfl
  · rename_i h
    rw [Array.getElem?_replicate, Array.getElem?_eq_none (Nat.not_lt.1 h)]
    split <;> rfl

theorem parents_set {c : FanoutCounts} {n : Nat} (h : n < c.entries.size) (k : UInt32) (m : Nat) :
    parents ⟨c.entries.set n k h⟩ m = if n = m then k.toNat else c.parents m := by
  simp only [parents, Array.getD_eq_getD_getElem?, Array.getElem?_set]
  split <;> rfl

/-- A parent is added inside the store only, to a node that can get one more, and the report is the
count before. -/
theorem increment_eq_ok_iff {c c' : FanoutCounts} {n before : Nat} :
    c.increment n = .ok (before, c') ↔
      ∃ h : n < c.entries.size, before = c.parents n ∧ c.parents n < maxCount ∧
        c' = ⟨c.entries.set n (c.entries[n] + 1) h⟩ := by
  obtain ⟨entries⟩ := c
  by_cases h : n < entries.size
  · by_cases hlt : entries[n].toNat < maxCount
    · simp [increment, h, hlt, parents_of_lt, eq_comm]
    · simp [increment, h, hlt, parents_of_lt]
  · simp [increment, h]

theorem increment_of_full {c : FanoutCounts} {n : Nat} (h : n < c.size)
    (hfull : maxCount ≤ c.parents n) : c.increment n = .error (.overflow n) := by
  have hn : n < c.entries.size := h
  rw [parents_of_lt hn] at hfull
  simp [increment, hn, Nat.not_lt.2 hfull]

/-- A parent is taken from a node that has one only, and the report is the count after. -/
theorem decrement_eq_ok_iff {c c' : FanoutCounts} {n after : Nat} :
    c.decrement n = .ok (after, c') ↔
      ∃ h : n < c.entries.size, c.parents n = after + 1 ∧
        c' = ⟨c.entries.set n (c.entries[n] - 1) h⟩ := by
  obtain ⟨entries⟩ := c
  by_cases h : n < entries.size
  · by_cases hpos : 0 < entries[n].toNat
    · have hafter : (entries[n] - 1).toNat + 1 = entries[n].toNat := by
        rw [toNat_sub_one hpos, Nat.sub_add_cancel hpos]
      simp only [decrement, h, hpos, dif_pos, if_pos, exists_true_left, parents_of_lt,
        Except.ok.injEq, Prod.mk.injEq, eq_comm (a := c')]
      rw [← hafter, Nat.add_right_cancel_iff]
    · simp only [decrement, h, hpos, dif_pos, if_false, exists_true_left, parents_of_lt,
        reduceCtorEq, false_iff]
      omega
  · simp [decrement, h]

theorem decrement_of_dead {c : FanoutCounts} {n : Nat} (h : n < c.size) (hdead : c.parents n = 0) :
    c.decrement n = .error (.underflow n) := by
  have hn : n < c.entries.size := h
  rw [parents_of_lt hn] at hdead
  simp [decrement, hn, hdead]

theorem parents_increment {c c' : FanoutCounts} {n before : Nat}
    (h : c.increment n = .ok (before, c')) (m : Nat) :
    c'.parents m = if n = m then c.parents m + 1 else c.parents m := by
  obtain ⟨hn, -, hlt, rfl⟩ := increment_eq_ok_iff.1 h
  rw [parents_set]
  split
  · rename_i hm
    subst hm
    rw [parents_of_lt hn] at hlt ⊢
    exact toNat_add_one hlt
  · rfl

theorem parents_decrement {c c' : FanoutCounts} {n after : Nat}
    (h : c.decrement n = .ok (after, c')) (m : Nat) :
    c'.parents m = if n = m then c.parents m - 1 else c.parents m := by
  obtain ⟨hn, hk, rfl⟩ := decrement_eq_ok_iff.1 h
  rw [parents_set]
  split
  · rename_i hm
    subst hm
    rw [parents_of_lt hn] at hk ⊢
    exact toNat_sub_one (by omega)
  · rfl

theorem size_increment {c c' : FanoutCounts} {n before : Nat}
    (h : c.increment n = .ok (before, c')) : c'.size = c.size := by
  obtain ⟨_, _, _, rfl⟩ := increment_eq_ok_iff.1 h
  simp [size]

theorem size_decrement {c c' : FanoutCounts} {n after : Nat}
    (h : c.decrement n = .ok (after, c')) : c'.size = c.size := by
  obtain ⟨_, _, rfl⟩ := decrement_eq_ok_iff.1 h
  simp [size]

end FanoutCounts

end FanoutCone
