import FanoutCone.Fault

/-!
# Traversal marks

Each node remembers the generation in which it was last marked, and a mark holds
only while that generation is the current one. Advancing the generation thus
forgets every mark at once. Generations are 32-bit numbers; where the next one
would not fit, every stamp is cleared and counting starts again at one.
Generation zero is never current, so a fresh node is unmarked.
-/
namespace FanoutCone

/-- The stamps of all nodes and the generation that is current. -/
structure Marks where
  generation : Nat
  stamps : Array Nat
deriving DecidableEq

namespace Marks

/-- The last generation before counting starts again, the largest 32-bit number. -/
def maxGeneration : Nat := 4294967295

/-- No nodes, first generation. -/
def empty : Marks := ⟨1, #[]⟩

def size (m : Marks) : Nat := m.stamps.size

/-- Grows the store to `len` nodes, the new ones unmarked. Never shrinks it. -/
def grow (m : Marks) (len : Nat) : Marks :=
  match m with
  | ⟨generation, stamps⟩ => ⟨generation, stamps ++ Array.replicate (len - stamps.size) 0⟩

/-- Grows the store to `len` nodes, if a store can hold as many. -/
def resize (m : Marks) (len : Nat) : Except Fault Marks :=
  if len ≤ Node.maxStored then .ok (m.grow len) else .error (.storeTooLarge len)

/-- Starts a new generation, in which nothing is marked. -/
def advance (m : Marks) : Marks :=
  match m with
  | ⟨generation, stamps⟩ =>
    if generation < maxGeneration then ⟨generation + 1, stamps⟩
    else ⟨1, stamps.map fun _ => 0⟩

/-- Makes `generation` the current one and leaves the stamps alone. -/
def withGeneration (m : Marks) (generation : Nat) : Marks := ⟨generation, m.stamps⟩

/-- The generation in which `n` was last marked. -/
def stamp (m : Marks) (n : Nat) : Except Fault Nat :=
  match m.stamps[n]? with
  | some s => .ok s
  | none => .error (.absentNode n)

/-- Whether `n` is in the store and marked. -/
def isMarked (m : Marks) (n : Nat) : Bool := m.stamps[n]? == some m.generation

/-- Whether `n`, which has to be in the store, is marked. -/
def isCurrent (m : Marks) (n : Nat) : Except Fault Bool :=
  match m.stamps[n]? with
  | some s => .ok (s == m.generation)
  | none => .error (.absentNode n)

/-- Replaces the stamp of `n`, which has to be in the store. -/
def setStamp (m : Marks) (n : Nat) (stamp : Nat) : Except Fault Marks :=
  match m with
  | ⟨generation, stamps⟩ =>
    if h : n < stamps.size then .ok ⟨generation, stamps.set n stamp h⟩
    else .error (.absentNode n)

def mark (m : Marks) (n : Nat) : Except Fault Marks := m.setStamp n m.generation

/-- Forgets any mark on `n`. -/
def unmark (m : Marks) (n : Nat) : Except Fault Marks := m.setStamp n 0

/-- Forgets any mark on `n`, which may be outside the store. -/
def clear (m : Marks) (n : Nat) : Marks :=
  match m with
  | ⟨generation, stamps⟩ => ⟨generation, stamps.setIfInBounds n 0⟩

def markAll (m : Marks) (nodes : List Nat) : Except Fault Marks := nodes.foldlM mark m

/-- The marked nodes, in index order. -/
def current (m : Marks) : List Nat :=
  (List.range m.stamps.size).filter m.isMarked

@[simp] theorem size_grow (m : Marks) (len : Nat) : (m.grow len).size = max m.size len := by
  simp [grow, size]; omega

theorem resize_eq_ok_iff {m m' : Marks} {len : Nat} :
    m.resize len = .ok m' ↔ len ≤ Node.maxStored ∧ m' = m.grow len := by
  by_cases h : len ≤ Node.maxStored
  · simp [resize, h, eq_comm]
  · simp [resize, h]

@[simp] theorem size_advance (m : Marks) : m.advance.size = m.size := by
  simp only [advance, size]; split <;> simp

theorem isCurrent_eq_ok_iff {m : Marks} {n : Nat} {b : Bool} :
    m.isCurrent n = .ok b ↔ n < m.size ∧ b = m.isMarked n := by
  by_cases h : n < m.stamps.size
  · simp [isCurrent, isMarked, size, h, eq_comm]
  · simp [isCurrent, size, h]

theorem setStamp_eq_ok_iff {m m' : Marks} {n s : Nat} :
    m.setStamp n s = .ok m' ↔
      ∃ h : n < m.stamps.size, m' = ⟨m.generation, m.stamps.set n s h⟩ := by
  obtain ⟨generation, stamps⟩ := m
  by_cases h : n < stamps.size
  · simp [setStamp, h, eq_comm]
  · simp [setStamp, h]

/-- Marking a node marks that node and no other. -/
theorem isMarked_mark {m m' : Marks} {k : Nat} (h : m.mark k = .ok m') (n : Nat) :
    m'.isMarked n = (n == k || m.isMarked n) := by
  obtain ⟨hk, rfl⟩ := setStamp_eq_ok_iff.1 h
  simp only [isMarked, Array.getElem?_set]
  by_cases hn : k = n
  · subst hn
    simp
  · have hn' : (n == k) = false := by simp; omega
    simp [hn, hn']

/-- Unmarking a node unmarks that node and no other, in a generation other than zero. -/
theorem isMarked_unmark {m m' : Marks} {k : Nat} (h : m.unmark k = .ok m')
    (hgen : m.generation ≠ 0) (n : Nat) : m'.isMarked n = (n != k && m.isMarked n) := by
  obtain ⟨hk, rfl⟩ := setStamp_eq_ok_iff.1 h
  simp only [isMarked, Array.getElem?_set]
  by_cases hn : k = n
  · subst hn
    simp [Ne.symm hgen]
  · have hn' : (n != k) = true := by simp; omega
    simp [hn, hn']

@[simp] theorem mem_current {m : Marks} {n : Nat} : n ∈ m.current ↔ m.isMarked n = true := by
  simp only [current, List.mem_filter, List.mem_range, and_iff_right_iff_imp]
  intro h
  by_cases hn : n < m.stamps.size
  · exact hn
  · simp [isMarked, hn] at h

@[simp] theorem generation_grow (m : Marks) (len : Nat) :
    (m.grow len).generation = m.generation := rfl

end Marks

end FanoutCone
