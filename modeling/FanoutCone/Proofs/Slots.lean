import FanoutCone.SlotArena

/-!
# Laws of slot arenas

In a sound arena the waiting slots are the vacant ones, each waiting once. So a
value is always stored where nothing was, and an occupied slot keeps its value
until it is erased.
-/
namespace FanoutCone.SlotArena

variable {α : Type} {a : SlotArena α} {i j : Nat} {x : α}

/-- The waiting slots are the vacant ones. -/
structure Sound (a : SlotArena α) : Prop where
  nodup : a.free.Nodup
  mem_free_iff : ∀ i, i ∈ a.free ↔ i < a.slots.size ∧ a.get? i = none

theorem lt_size_of_get? (h : a.get? i = some x) : i < a.slots.size := by
  apply Nat.lt_of_not_le
  intro hle
  simp [get?, Array.getElem?_eq_none hle] at h

theorem get?_eq_some_iff : a.get? i = some x ↔ a.slots[i]? = some (some x) := by
  unfold get?
  rw [Option.join_eq_some_iff]

theorem sound_empty : (empty : SlotArena α).Sound := by
  refine ⟨List.nodup_nil, fun i => ?_⟩
  simp [empty]

@[simp] theorem get?_empty (i : Nat) : (empty : SlotArena α).get? i = none := by
  simp [empty, get?]

/-- The slot of a new value was vacant. -/
theorem get?_insert_fst (h : a.Sound) (x : α) : a.get? (a.insert x).1 = none := by
  obtain ⟨slots, free⟩ := a
  cases free with
  | nil => simp [insert, get?]
  | cons i free => exact ((h.mem_free_iff i).1 List.mem_cons_self).2

/-- Where no slot waits, a new value takes a new slot, and still no slot waits. -/
theorem insert_of_free_eq_nil (h : a.free = []) (x : α) :
    (a.insert x).1 = a.slots.size ∧ (a.insert x).2.free = [] ∧
      (a.insert x).2.slots.size = a.slots.size + 1 := by
  obtain ⟨slots, free⟩ := a
  dsimp only at h
  subst h
  exact ⟨rfl, rfl, Array.size_push _⟩

theorem get?_insert (h : a.Sound) (x : α) (j : Nat) :
    (a.insert x).2.get? j = if j = (a.insert x).1 then some x else a.get? j := by
  split
  · rename_i hj
    rw [hj]
    exact get?_insert_self a x fun i hi => ((h.mem_free_iff i).1 hi).1
  · rename_i hj
    exact get?_insert_of_ne a x hj

theorem Sound.insert (h : a.Sound) (x : α) : (a.insert x).2.Sound := by
  have hget := get?_insert h x
  obtain ⟨slots, free⟩ := a
  cases free with
  | nil =>
    refine ⟨List.nodup_nil, fun i => ?_⟩
    have hvacant := h.mem_free_iff i
    have hi : SlotArena.get? ⟨slots.push (some x), []⟩ i =
        if i = slots.size then some x else SlotArena.get? ⟨slots, []⟩ i := hget i
    simp only [SlotArena.insert, List.not_mem_nil, false_iff] at hvacant ⊢
    rintro ⟨hlt, hnone⟩
    rw [hnone] at hi
    by_cases hne : i = slots.size
    · rw [if_pos hne] at hi
      cases hi
    · rw [if_neg hne] at hi
      rw [Array.size_push] at hlt
      exact hvacant ⟨by omega, hi.symm⟩
  | cons i free =>
    have hnodup := List.nodup_cons.1 h.nodup
    refine ⟨hnodup.2, fun j => ?_⟩
    have hvacant := h.mem_free_iff j
    have hj := hget j
    simp only [SlotArena.insert, List.mem_cons, Array.size_setIfInBounds] at hvacant hj ⊢
    rw [hj]
    by_cases hij : j = i
    · subst hij
      simp [hnodup.1]
    · simpa [hij] using hvacant

@[simp] theorem size_modify (a : SlotArena α) (i : Nat) (f : α → α) :
    (a.modify i f).slots.size = a.slots.size := by
  simp [modify]

theorem Sound.modify (h : a.Sound) (i : Nat) (f : α → α) : (a.modify i f).Sound := by
  refine ⟨h.nodup, fun j => ?_⟩
  rw [size_modify, get?_modify]
  show j ∈ a.free ↔ _
  rw [h.mem_free_iff j]
  split
  · rw [Option.map_eq_none_iff]
  · rfl

theorem Sound.erase (h : a.Sound) (i : Nat) : (a.erase i).Sound := by
  have hget := get?_erase a i
  cases hi : a.get? i with
  | none =>
    have hsame : a.erase i = a := by
      obtain ⟨slots, free⟩ := a
      simp only [SlotArena.erase]
      split
      · rename_i x hx
        rw [get?_eq_some_iff.2 hx] at hi
        cases hi
      · rfl
    rwa [hsame]
  | some x =>
    have hlt := lt_size_of_get? hi
    have herase : a.erase i = ⟨a.slots.setIfInBounds i none, i :: a.free⟩ := by
      obtain ⟨slots, free⟩ := a
      have hx : slots[i]? = some (some x) := get?_eq_some_iff.1 hi
      simp [SlotArena.erase, hx]
    rw [herase] at hget ⊢
    have hoccupied : i ∉ a.free := by
      intro hmem
      rw [((h.mem_free_iff i).1 hmem).2] at hi
      cases hi
    refine ⟨List.nodup_cons.2 ⟨hoccupied, h.nodup⟩, fun j => ?_⟩
    rw [hget j, List.mem_cons, h.mem_free_iff j, Array.size_setIfInBounds]
    by_cases hij : i = j
    · subst hij
      simp [hlt]
    · simp [hij, Ne.symm hij]

theorem mem_occupied : i ∈ a.occupied ↔ (a.get? i).isSome = true := by
  unfold occupied
  rw [List.mem_filter, List.mem_range, and_iff_right_iff_imp]
  intro hsome
  obtain ⟨x, hx⟩ := Option.isSome_iff_exists.1 hsome
  exact lt_size_of_get? hx

theorem nodup_occupied (a : SlotArena α) : a.occupied.Nodup := List.nodup_range.filter _

theorem count_eq_length_occupied (a : SlotArena α) : a.count = a.occupied.length := by
  obtain ⟨slots, free⟩ := a
  unfold count occupied
  have hmap : slots.toList = (List.range slots.size).map fun i => slots[i]?.join := by
    apply List.ext_getElem (by simp)
    intro i h₁ h₂
    have hi : i < slots.size := by simpa using h₁
    simp [hi]
  rw [← List.countP_eq_length_filter, ← Array.countP_toList, hmap, List.countP_map]
  rfl

end FanoutCone.SlotArena
