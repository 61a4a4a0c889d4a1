/-!
# Arenas with reusable slots

Values lie in numbered slots, and a slot's number stays valid until its value is
erased. Erased slots wait on a stack: a new value takes the slot freed last, or
a new slot at the end when none waits. `get?` is the view, with one law for each
operation.
-/
namespace FanoutCone

/-- Values in numbered slots, some of them vacant. -/
structure SlotArena (α : Type) where
  slots : Array (Option α)
  /-- The vacant slots, the one freed last first. -/
  free : List Nat
deriving DecidableEq

namespace SlotArena

variable {α : Type}

def empty : SlotArena α := ⟨#[], []⟩

/-- The value in a slot, if the slot exists and is occupied. -/
def get? (a : SlotArena α) (i : Nat) : Option α := a.slots[i]?.join

/-- Stores a value and returns its slot. -/
def insert (a : SlotArena α) (x : α) : Nat × SlotArena α :=
  match a with
  | ⟨slots, i :: free⟩ => (i, ⟨slots.setIfInBounds i (some x), free⟩)
  | ⟨slots, []⟩ =>
    let i := slots.size
    (i, ⟨slots.push (some x), []⟩)

/-- Changes the value in a slot; a vacant slot stays vacant. -/
def modify (a : SlotArena α) (i : Nat) (f : α → α) : SlotArena α :=
  match a with
  | ⟨slots, free⟩ => ⟨slots.modify i (Option.map f), free⟩

/-- Vacates an occupied slot. -/
def erase (a : SlotArena α) (i : Nat) : SlotArena α :=
  match a with
  | ⟨slots, free⟩ =>
    match slots[i]? with
    | some (some _) => ⟨slots.setIfInBounds i none, i :: free⟩
    | _ => ⟨slots, free⟩

def occupied (a : SlotArena α) : List Nat :=
  (List.range a.slots.size).filter fun i => (a.get? i).isSome

def count (a : SlotArena α) : Nat := a.slots.countP Option.isSome

/-- Storing a value leaves every other slot as it was. -/
theorem get?_insert_of_ne (a : SlotArena α) (x : α) {j : Nat} (h : j ≠ (a.insert x).1) :
    (a.insert x).2.get? j = a.get? j := by
  obtain ⟨slots, free⟩ := a
  cases free with
  | nil =>
    have hj : j ≠ slots.size := h
    simp only [insert, get?, Array.getElem?_push, if_neg hj]
  | cons i free =>
    have hj : i ≠ j := fun hij => h hij.symm
    simp only [insert, get?, Array.getElem?_setIfInBounds, if_neg hj]

/-- A stored value is found at its slot, provided that the waiting slots exist. -/
theorem get?_insert_self (a : SlotArena α) (x : α) (h : ∀ i ∈ a.free, i < a.slots.size) :
    (a.insert x).2.get? (a.insert x).1 = some x := by
  obtain ⟨slots, free⟩ := a
  cases free with
  | nil => simp [insert, get?]
  | cons i free =>
    have hi : i < slots.size := h i (by simp)
    simp [insert, get?, hi]

theorem get?_modify (a : SlotArena α) (i j : Nat) (f : α → α) :
    (a.modify i f).get? j = if i = j then (a.get? j).map f else a.get? j := by
  obtain ⟨slots, free⟩ := a
  simp only [modify, get?, Array.getElem?_modify]
  split
  · cases h : slots[j]? with
    | none => simp
    | some x => cases x <;> simp
  · rfl

theorem get?_erase (a : SlotArena α) (i j : Nat) :
    (a.erase i).get? j = if i = j then none else a.get? j := by
  obtain ⟨slots, free⟩ := a
  simp only [erase]
  split
  · rename_i x hx
    simp only [get?, Array.getElem?_setIfInBounds]
    by_cases hij : i = j
    · subst hij
      by_cases hi : i < slots.size <;> simp [hi]
    · simp [hij]
  · rename_i hvacant
    by_cases hij : i = j
    · subst hij
      simp only [get?, if_true]
      cases h : slots[i]? with
      | none => rfl
      | some x =>
        cases x with
        | none => rfl
        | some x => exact absurd h (hvacant x)
    · simp [get?, hij]

end SlotArena

end FanoutCone
