import Mathlib.Data.List.Induction
import Mathlib.Data.Set.Insert
import FanoutCone.Proofs.Generations

/-!
# Runs of marks

A store of marks stands for a plain set of nodes. Every call on the store is one
change of the set: growing leaves it alone, a new generation empties it, and
marking and unmarking put one node in and take one out. No stamp ever lies above
the generation and the generation is never zero, so this is kept where counting
starts again at one, as often as that happens.

A run of calls is thus told by the calls alone: a node is marked when a call has
marked it and no later call has begun a generation or unmarked it.
-/
namespace FanoutCone

inductive MarkCall where
  | resize (len : Nat)
  | advance
  | mark (n : Nat)
  | unmark (n : Nat)
deriving DecidableEq

namespace MarkCall

def perform (m : Marks) : MarkCall → Except Fault Marks
  | .resize len => m.resize len
  | .advance => .ok m.advance
  | .mark n => m.mark n
  | .unmark n => m.unmark n

/-- Whether the call concerns nodes of a store for `size` nodes, and asks for no more nodes than a
store can hold. -/
def InRange (size : Nat) : MarkCall → Prop
  | .resize len => len ≤ Node.maxStored
  | .advance => True
  | .mark n | .unmark n => n < size

def sizeAfter (size : Nat) : MarkCall → Nat
  | .resize len => max size len
  | .advance | .mark _ | .unmark _ => size

/-- What the call makes of a plain set. -/
def onSet (marked : Set Nat) : MarkCall → Set Nat
  | .resize _ => marked
  | .advance => ∅
  | .mark n => insert n marked
  | .unmark n => marked \ {n}

/-- Whether each call of a run is in range when it is made. -/
def AllInRange : (size : Nat) → List MarkCall → Prop
  | _, [] => True
  | size, call :: calls => call.InRange size ∧ AllInRange (call.sizeAfter size) calls

/-- Whether the calls have marked `n` after the last new generation, and have not unmarked it after
that. -/
def Held (calls : List MarkCall) (n : Nat) : Prop :=
  ∃ earlier later, calls = earlier ++ .mark n :: later ∧ .advance ∉ later ∧ .unmark n ∉ later

end MarkCall

namespace Marks

variable {m m' : Marks} {marked : Set Nat} {call : MarkCall} {calls : List MarkCall}

/-- Growing a store marks nothing, since the stamps of new nodes are of generation zero. -/
theorem isMarked_grow (hgen : 0 < m.generation) (len n : Nat) :
    (m.grow len).isMarked n = m.isMarked n := by
  obtain ⟨generation, stamps⟩ := m
  dsimp only at hgen
  simp only [grow, isMarked, Array.getElem?_append]
  split
  · rfl
  · rename_i hn
    rw [Array.getElem?_replicate, Array.getElem?_eq_none (Nat.not_lt.1 hn)]
    split
    · simp only [Option.some_beq_some, beq_eq_false_iff_ne, ne_eq, Option.none_beq_some]
      omega
    · rfl

/-- The generation is a 32-bit number again after it was advanced. -/
theorem generation_advance_le (m : Marks) : m.advance.generation ≤ maxGeneration := by
  obtain ⟨generation, stamps⟩ := m
  by_cases hlast : generation < maxGeneration
  · simp only [advance, hlast, if_true]
    exact hlast
  · simp only [advance, hlast, if_false]
    decide

theorem exists_setStamp {n : Nat} (h : n < m.size) (stamp : Nat) :
    ∃ m', m.setStamp n stamp = .ok m' := ⟨_, setStamp_eq_ok_iff.2 ⟨h, rfl⟩⟩

theorem generation_setStamp {n stamp : Nat} (h : m.setStamp n stamp = .ok m') :
    m'.generation = m.generation := by
  obtain ⟨-, rfl⟩ := setStamp_eq_ok_iff.1 h
  rfl

theorem size_setStamp {n stamp : Nat} (h : m.setStamp n stamp = .ok m') : m'.size = m.size := by
  obtain ⟨-, rfl⟩ := setStamp_eq_ok_iff.1 h
  simp [size]

/-- A store that stands for the set `marked`, with what keeps it so. -/
structure Represents (m : Marks) (marked : Set Nat) : Prop where
  mem_iff : ∀ n, n ∈ marked ↔ m.isMarked n = true
  bounded : m.Bounded
  generation_pos : 0 < m.generation
  generation_le : m.generation ≤ maxGeneration

theorem represents_empty : empty.Represents ∅ where
  mem_iff n := by simp [isMarked, empty]
  bounded := bounded_empty
  generation_pos := Nat.one_pos
  generation_le := by decide

namespace Represents

theorem grow (h : m.Represents marked) (len : Nat) : (m.grow len).Represents marked where
  mem_iff n := by rw [h.mem_iff, isMarked_grow h.generation_pos]
  bounded := h.bounded.grow len
  generation_pos := h.generation_pos
  generation_le := h.generation_le

theorem advance (h : m.Represents marked) : m.advance.Represents ∅ where
  mem_iff n := by simp [isMarked_advance h.bounded n]
  bounded := bounded_advance h.bounded
  generation_pos := generation_advance_pos m
  generation_le := generation_advance_le m

theorem mark {n : Nat} (h : m.Represents marked) (hmark : m.mark n = .ok m') :
    m'.Represents (insert n marked) where
  mem_iff v := by rw [Set.mem_insert_iff, h.mem_iff, isMarked_mark hmark]; simp
  bounded := h.bounded.mark hmark
  generation_pos := by rw [generation_mark hmark]; exact h.generation_pos
  generation_le := by rw [generation_mark hmark]; exact h.generation_le

theorem unmark {n : Nat} (h : m.Represents marked) (hunmark : m.unmark n = .ok m') :
    m'.Represents (marked \ {n}) where
  mem_iff v := by
    rw [Set.mem_sdiff, Set.mem_singleton_iff, h.mem_iff,
      isMarked_unmark hunmark (Nat.ne_of_gt h.generation_pos)]
    simp [and_comm]
  bounded := h.bounded.setStamp (Nat.zero_le _) hunmark
  generation_pos := by rw [generation_setStamp hunmark]; exact h.generation_pos
  generation_le := by rw [generation_setStamp hunmark]; exact h.generation_le

/-- One call in range returns, and changes the store as it changes the set. -/
theorem perform (h : m.Represents marked) (hcall : call.InRange m.size) :
    ∃ m', call.perform m = .ok m' ∧ m'.size = call.sizeAfter m.size ∧
      m'.Represents (call.onSet marked) := by
  cases call with
  | resize len =>
    exact ⟨m.grow len, resize_eq_ok_iff.2 ⟨hcall, rfl⟩, size_grow m len, h.grow len⟩
  | advance => exact ⟨m.advance, rfl, size_advance m, h.advance⟩
  | mark n =>
    obtain ⟨m', hmark⟩ := exists_setStamp hcall m.generation
    exact ⟨m', hmark, size_setStamp hmark, h.mark hmark⟩
  | unmark n =>
    obtain ⟨m', hunmark⟩ := exists_setStamp hcall 0
    exact ⟨m', hunmark, size_setStamp hunmark, h.unmark hunmark⟩

/-- A run of calls in range returns, and changes the store as it changes the set. -/
theorem run (h : m.Represents marked) (hcalls : MarkCall.AllInRange m.size calls) :
    ∃ m', calls.foldlM MarkCall.perform m = .ok m' ∧
      m'.size = calls.foldl MarkCall.sizeAfter m.size ∧
      m'.Represents (calls.foldl MarkCall.onSet marked) := by
  induction calls generalizing m marked with
  | nil => exact ⟨m, rfl, rfl, h⟩
  | cons call calls ih =>
    obtain ⟨hcall, hrest⟩ := hcalls
    obtain ⟨m₁, hperform, hsize, h₁⟩ := h.perform hcall
    rw [← hsize] at hrest
    obtain ⟨m', hrun, hsize', h'⟩ := ih h₁ hrest
    refine ⟨m', ?_, ?_, h'⟩
    · rw [List.foldlM_cons, hperform]
      exact hrun
    · rw [hsize', hsize]
      rfl

end Represents

end Marks

namespace MarkCall

variable {calls : List MarkCall} {call : MarkCall} {n : Nat}

theorem not_held_nil : ¬ Held [] n := by
  rintro ⟨earlier, later, heq, -⟩
  simp at heq

/-- The last call marks `n` itself, or it leaves alone what the calls before it have marked. -/
theorem held_append_iff :
    Held (calls ++ [call]) n ↔
      call = .mark n ∨ (Held calls n ∧ call ≠ .advance ∧ call ≠ .unmark n) := by
  constructor
  · rintro ⟨earlier, later, heq, hadvance, hunmark⟩
    cases later using List.reverseRecOn with
    | nil =>
      obtain ⟨-, hlast⟩ := List.append_inj' heq rfl
      exact Or.inl (List.singleton_inj.1 hlast)
    | append_singleton later last =>
      have heq' : calls ++ [call] = (earlier ++ .mark n :: later) ++ [last] := by simpa using heq
      obtain ⟨rfl, hlast⟩ := List.append_inj' heq' rfl
      obtain rfl := List.singleton_inj.1 hlast
      rw [List.mem_append, List.mem_singleton, not_or] at hadvance hunmark
      exact Or.inr ⟨⟨earlier, later, rfl, hadvance.1, hunmark.1⟩, Ne.symm hadvance.2,
        Ne.symm hunmark.2⟩
  · rintro (rfl | ⟨⟨earlier, later, rfl, hadvance, hunmark⟩, hcall, hcall'⟩)
    · exact ⟨calls, [], rfl, List.not_mem_nil, List.not_mem_nil⟩
    · refine ⟨earlier, later ++ [call], by simp, ?_, ?_⟩
      · simp [hadvance, hcall.symm]
      · simp [hunmark, hcall'.symm]

/-- The set that a run of calls makes of the empty set. -/
theorem mem_foldl_onSet_iff : n ∈ calls.foldl onSet ∅ ↔ Held calls n := by
  induction calls using List.reverseRecOn with
  | nil => exact iff_of_false (Set.notMem_empty n) not_held_nil
  | append_singleton calls call ih =>
    rw [List.foldl_append, held_append_iff, ← ih, List.foldl_cons, List.foldl_nil]
    cases call with
    | resize len => simp [onSet]
    | advance => simp [onSet]
    | mark k => simp [onSet, eq_comm]
    | unmark k => simp [onSet, eq_comm]

/-- Marks refine a plain set over every run. Calls in range return, and a node of the store is then
current exactly when the calls have marked it after the last new generation, or since the start if
there was none, and not unmarked it after that. So nothing is current in a new generation, nor in
the slots by which the store grows. -/
theorem run_refines (h : AllInRange 0 calls) :
    ∃ m, calls.foldlM perform Marks.empty = .ok m ∧ m.size = calls.foldl sizeAfter 0 ∧
      (∀ n < m.size, ∃ current, m.isCurrent n = .ok current ∧ (current = true ↔ Held calls n)) ∧
      (∀ n < m.size, m.advance.isCurrent n = .ok false) ∧
      ∀ len m', m.resize len = .ok m' → ∀ n, m.size ≤ n → n < m'.size →
        m'.isCurrent n = .ok false := by
  obtain ⟨m, hrun, hsize, hrepresents⟩ := Marks.represents_empty.run h
  refine ⟨m, hrun, hsize, fun n hn => ?_, fun n hn => ?_, fun len m' hresize n hle hlt => ?_⟩
  · refine ⟨m.isMarked n, Marks.isCurrent_eq_ok_iff.2 ⟨hn, rfl⟩, ?_⟩
    rw [← hrepresents.mem_iff, mem_foldl_onSet_iff]
  · rw [Marks.isCurrent_eq_ok_iff, Marks.size_advance, Marks.isMarked_advance hrepresents.bounded]
    exact ⟨hn, rfl⟩
  · obtain ⟨-, rfl⟩ := Marks.resize_eq_ok_iff.1 hresize
    have hout : m.isMarked n = false := by
      have hle' : m.stamps.size ≤ n := hle
      simp [Marks.isMarked, hle']
    rw [Marks.isCurrent_eq_ok_iff, Marks.isMarked_grow hrepresents.generation_pos, hout]
    exact ⟨hlt, rfl⟩

/-- Marks on two nodes, with `k` new generations between them. -/
def spaced (k : Nat) : List MarkCall :=
  [.resize 2, .mark 0] ++ List.replicate k .advance ++ [.mark 1]

theorem allInRange_replicate_advance (size k : Nat) (h : AllInRange size calls) :
    AllInRange size (List.replicate k .advance ++ calls) := by
  induction k with
  | zero => exact h
  | succ k ih => exact ⟨trivial, ih⟩

theorem foldl_sizeAfter_replicate_advance (size k : Nat) :
    (List.replicate k .advance).foldl sizeAfter size = size := by
  induction k with
  | zero => rfl
  | succ k ih => exact ih

theorem allInRange_spaced (k : Nat) : AllInRange 0 (spaced k) := by
  have hlen : 2 ≤ Node.maxStored := by decide
  have hfirst : 0 < max 0 2 := by decide
  have hlast : 1 < max 0 2 := by decide
  rw [spaced, List.append_assoc]
  exact ⟨hlen, hfirst, allInRange_replicate_advance _ k ⟨hlast, trivial⟩⟩

theorem size_spaced (k : Nat) : (spaced k).foldl sizeAfter 0 = 2 := by
  rw [spaced, List.foldl_append, List.foldl_append, foldl_sizeAfter_replicate_advance]
  rfl

theorem held_spaced_iff {k : Nat} (hk : 0 < k) : Held (spaced k) n ↔ n = 1 := by
  obtain ⟨k, rfl⟩ := Nat.exists_eq_succ_of_ne_zero (Nat.ne_of_gt hk)
  rw [spaced, held_append_iff, List.replicate_succ', ← List.append_assoc, held_append_iff]
  simp [eq_comm]

/-- The first mark is forgotten, though the generation has come back to the one it was made in. -/
theorem run_refines_spaced :
    ∃ m, (spaced Marks.maxGeneration).foldlM perform Marks.empty = .ok m ∧
      m.isCurrent 0 = .ok false ∧ m.isCurrent 1 = .ok true := by
  obtain ⟨m, hrun, hsize, hheld, -⟩ := run_refines (allInRange_spaced Marks.maxGeneration)
  rw [size_spaced] at hsize
  obtain ⟨first, hfirst, hiff⟩ := hheld 0 (by omega)
  obtain ⟨second, hsecond, hiff'⟩ := hheld 1 (by omega)
  rw [held_spaced_iff (by decide)] at hiff hiff'
  refine ⟨m, hrun, ?_, ?_⟩
  · rw [hfirst, Bool.eq_false_iff.2 fun htrue => Nat.zero_ne_one (hiff.1 htrue)]
  · rw [hsecond, hiff'.2 rfl]

end MarkCall

end FanoutCone
