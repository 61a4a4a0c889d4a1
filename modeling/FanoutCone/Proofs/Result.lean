/-!
# Results that can fail

An operation in sequence succeeds when each of its parts does. These lemmas take
a sequence apart, so that no proof has to unfold how faults are passed on.
-/
namespace FanoutCone

variable {ε α β : Type}

@[simp] theorem ok_bind (a : α) (f : α → Except ε β) : (Except.ok a >>= f) = f a := rfl

@[simp] theorem error_bind (e : ε) (f : α → Except ε β) :
    ((Except.error e : Except ε α) >>= f) = .error e := rfl

@[simp] theorem pure_eq_ok (a : α) : (pure a : Except ε α) = .ok a := rfl

@[simp] theorem map_ok (f : α → β) (a : α) : (Except.ok a : Except ε α).map f = .ok (f a) := rfl

@[simp] theorem map_error (f : α → β) (e : ε) :
    (Except.error e : Except ε α).map f = .error e := rfl

@[simp] theorem mapError_ok {ε' : Type} (f : ε → ε') (a : α) :
    (Except.ok a : Except ε α).mapError f = .ok a := rfl

@[simp] theorem mapError_error {ε' : Type} (f : ε → ε') (e : ε) :
    (Except.error e : Except ε α).mapError f = .error (f e) := rfl

theorem bind_eq_ok_iff {x : Except ε α} {f : α → Except ε β} {b : β} :
    (x >>= f) = .ok b ↔ ∃ a, x = .ok a ∧ f a = .ok b := by
  cases x with
  | error e => simp
  | ok a => simp

theorem map_eq_ok_iff {x : Except ε α} {f : α → β} {b : β} :
    x.map f = .ok b ↔ ∃ a, x = .ok a ∧ f a = b := by
  cases x with
  | error e => simp
  | ok a => simp

theorem map_eq_error_iff {x : Except ε α} {f : α → β} {e : ε} :
    x.map f = .error e ↔ x = .error e := by
  cases x with
  | error e' => simp
  | ok a => simp

theorem mapError_eq_ok_iff {ε' : Type} {x : Except ε α} {f : ε → ε'} {a : α} :
    x.mapError f = .ok a ↔ x = .ok a := by
  cases x with
  | error e => simp
  | ok a' => simp

theorem mapError_eq_error_iff {ε' : Type} {x : Except ε α} {f : ε → ε'} {e' : ε'} :
    x.mapError f = .error e' ↔ ∃ e, x = .error e ∧ f e = e' := by
  cases x with
  | error e => simp
  | ok a => simp

/-- A loop over numbered elements ends, and keeps what each step keeps. -/
theorem exists_foldlM_zipIdx {I : Nat → β → Prop} {f : β → α × Nat → Except ε β} {l : List α}
    {k : Nat} {b : β} (h : I k b)
    (step : ∀ i x b, l[i]? = some x → I (k + i) b →
      ∃ b', f b (x, k + i) = .ok b' ∧ I (k + i + 1) b') :
    ∃ b', (l.zipIdx k).foldlM f b = .ok b' ∧ I (k + l.length) b' := by
  induction l generalizing k b with
  | nil => exact ⟨b, rfl, h⟩
  | cons x l ih =>
    obtain ⟨b₁, hfirst, h₁⟩ := step 0 x b rfl h
    obtain ⟨b', hrest, h'⟩ := ih h₁ fun i y b hy hb => by
      have hstep := step (i + 1) y b hy
      rw [Nat.add_zero, Nat.add_right_comm k 1 i]
      exact hstep (by rwa [Nat.add_zero, Nat.add_right_comm k 1 i] at hb)
    refine ⟨b', ?_, ?_⟩
    · rw [List.zipIdx_cons, List.foldlM_cons]
      change f b (x, k) = _ at hfirst
      rw [hfirst]
      exact hrest
    · rwa [Nat.add_zero, Nat.add_assoc, Nat.add_comm 1] at h'

/-- A loop ends, and keeps what each step keeps. -/
theorem exists_foldlM {I : β → Prop} {f : β → α → Except ε β} {l : List α} {b : β} (h : I b)
    (step : ∀ x ∈ l, ∀ b, I b → ∃ b', f b x = .ok b' ∧ I b') :
    ∃ b', l.foldlM f b = .ok b' ∧ I b' := by
  induction l generalizing b with
  | nil => exact ⟨b, rfl, h⟩
  | cons x l ih =>
    obtain ⟨b₁, hfirst, h₁⟩ := step x List.mem_cons_self b h
    obtain ⟨b', hrest, h'⟩ := ih h₁ fun y hy => step y (List.mem_cons_of_mem x hy)
    refine ⟨b', ?_, h'⟩
    rw [List.foldlM_cons, hfirst]
    exact hrest

end FanoutCone
