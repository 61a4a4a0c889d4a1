import FanoutCone.Proofs.Settling

/-!
# Runs that agree

Two runs agree when both return and what they return is related, or when both
break off. A run that was allowed too few steps agrees with none, so an
operation that agrees with itself never breaks off for want of steps. Parts that
agree make runs in sequence that agree.

The primitive operations agree with themselves, and a walk agrees with the walk
of the other traversal: the one breaks off exactly where the other does, though
not for the same fault.
-/
namespace FanoutCone

/-- Both runs return related results, or both break off. Neither was allowed too few steps. -/
inductive Agree {α β : Type} (R : α → β → Prop) : Except Fault α → Except Fault β → Prop
  | ok {a : α} {b : β} (h : R a b) : Agree R (.ok a) (.ok b)
  | error {fault fault' : Fault} (h : fault ≠ .exhausted) (h' : fault' ≠ .exhausted) :
    Agree R (.error fault) (.error fault')

namespace Agree

variable {α β γ δ : Type} {R : α → β → Prop} {S : γ → δ → Prop}
variable {x : Except Fault α} {y : Except Fault β}

theorem ne_exhausted (h : Agree R x y) : x ≠ .error .exhausted := by
  cases h with
  | ok h => exact fun heq => by cases heq
  | error h h' =>
    intro heq
    exact h (Except.error.inj heq)

theorem refl_of_ne {R : α → α → Prop} (h : x ≠ .error .exhausted) (hR : ∀ a, R a a) :
    Agree R x x := by
  cases x with
  | ok a => exact .ok (hR a)
  | error fault =>
    have hfault : fault ≠ .exhausted := fun heq => h (by rw [heq])
    exact .error hfault hfault

/-- Of two runs that agree one returns if the other does. -/
theorem exists_of_ok {a : α} (h : Agree R x y) (hx : x = .ok a) : ∃ b, y = .ok b ∧ R a b := by
  cases h with
  | ok h =>
    cases hx
    exact ⟨_, rfl, h⟩
  | error h h' => cases hx

theorem mono {R' : α → β → Prop} (h : Agree R x y) (hR : ∀ a b, R a b → R' a b) :
    Agree R' x y := by
  cases h with
  | ok h => exact .ok (hR _ _ h)
  | error h h' => exact .error h h'

/-- What each of the results is known to be can be used to relate them. -/
theorem refine {R' : α → β → Prop} (h : Agree R x y)
    (hR : ∀ a b, x = .ok a → y = .ok b → R a b → R' a b) : Agree R' x y := by
  cases h with
  | ok h => exact .ok (hR _ _ rfl rfl h)
  | error h h' => exact .error h h'

theorem bind {f : α → Except Fault γ} {g : β → Except Fault δ} (h : Agree R x y)
    (hfg : ∀ a b, R a b → Agree S (f a) (g b)) : Agree S (x >>= f) (y >>= g) := by
  cases h with
  | ok h => exact hfg _ _ h
  | error h h' => exact .error h h'

theorem map {f : α → γ} {g : β → δ} (h : Agree R x y) (hfg : ∀ a b, R a b → S (f a) (g b)) :
    Agree S (x.map f) (y.map g) := by
  cases h with
  | ok h => exact .ok (hfg _ _ h)
  | error h h' => exact .error h h'

/-- Loops over one list agree when their steps do. -/
theorem foldlM {ι : Type} {f : α → ι → Except Fault α} {g : β → ι → Except Fault β}
    (hstep : ∀ i a b, R a b → Agree R (f a i) (g b i)) (l : List ι) {a : α} {b : β} (h : R a b) :
    Agree R (l.foldlM f a) (l.foldlM g b) := by
  induction l generalizing a b with
  | nil => exact .ok h
  | cons i l ih =>
    rw [List.foldlM_cons, List.foldlM_cons]
    exact (hstep i a b h).bind fun _ _ => ih

end Agree

namespace Network

theorem site_agree (net : Network) (n : Nat) :
    Agree (fun site site' => site' = site ∧ net.site? n = some site) (net.site n) (net.site n) := by
  unfold site
  cases hsite : net.site? n with
  | none => exact .error Fault.noConfusion Fault.noConfusion
  | some site => exact .ok ⟨rfl, rfl⟩

theorem isLeaf_agree (net : Network) (n : Nat) :
    Agree (fun leaf leaf' => leaf' = leaf) (net.isLeaf n) (net.isLeaf n) :=
  (net.site_agree n).map fun site site' h => by rw [h.1]

end Network

namespace FanoutCounts

theorem count_agree (c : FanoutCounts) (n : Nat) :
    Agree (fun k k' => k' = k) (c.count n) (c.count n) := by
  unfold count
  cases c.entries[n]? with
  | none => exact .error Fault.noConfusion Fault.noConfusion
  | some k => exact .ok rfl

theorem increment_agree (c : FanoutCounts) (n : Nat) :
    Agree (fun r r' => r' = r) (c.increment n) (c.increment n) := by
  refine .refl_of_ne (fun h => ?_) fun _ => rfl
  by_cases hn : n < c.entries.size
  · by_cases hlt : c.entries[n].toNat < maxCount <;> simp [increment, hn, hlt] at h
  · simp [increment, hn] at h

theorem decrement_agree (c : FanoutCounts) (n : Nat) :
    Agree (fun r r' => r' = r) (c.decrement n) (c.decrement n) := by
  refine .refl_of_ne (fun h => ?_) fun _ => rfl
  by_cases hn : n < c.entries.size
  · by_cases hpos : 0 < c.entries[n].toNat <;> simp [decrement, hn, hpos] at h
  · simp [decrement, hn] at h

theorem incrementAll_agree (c : FanoutCounts) (nodes : List Nat) :
    Agree (fun c c' => c' = c) (c.incrementAll nodes) (c.incrementAll nodes) := by
  refine .foldlM (fun n c c' h => ?_) nodes rfl
  subst h
  exact (c'.increment_agree n).map fun r r' h => by rw [h]

theorem decrementAll_agree (c : FanoutCounts) (nodes : List Nat) :
    Agree (fun c c' => c' = c) (c.decrementAll nodes) (c.decrementAll nodes) := by
  refine .foldlM (fun n c c' h => ?_) nodes rfl
  subst h
  exact (c'.decrement_agree n).map fun r r' h => by rw [h]

end FanoutCounts

/-- A move never breaks off for want of steps. -/
theorem Direction.move_ne_exhausted {direction : Direction} {counts : FanoutCounts} {v : Nat} :
    direction.move v counts ≠ .error .exhausted := by
  intro h
  cases direction with
  | reference =>
    have hne := (counts.increment_agree v).ne_exhausted
    cases hinc : counts.increment v with
    | ok r => simp [move, hinc] at h
    | error fault =>
      simp only [move, hinc, Except.error.injEq] at h
      exact hne (by rw [hinc, h])
  | dereference =>
    have hne := (counts.decrement_agree v).ne_exhausted
    cases hdec : counts.decrement v with
    | ok r => simp [move, hdec] at h
    | error fault =>
      simp only [move, hdec, Except.error.injEq] at h
      exact hne (by rw [hdec, h])

section
variable {net : Network} {filter : EdgeFilter} {traversal : Traversal} {direction : Direction}
variable {root : Nat} {counts : FanoutCounts} {breakdown : Breakdown}

theorem Agenda.Halted.fault_ne_exhausted {a : Agenda}
    (h : Halted net filter direction a breakdown) : breakdown.fault ≠ .exhausted := by
  intro hfault
  obtain ⟨-, ⟨n, -, hsite⟩ | ⟨fanin, -, hcross⟩⟩ := h
  · rw [hfault] at hsite
    exact (net.site_agree n).ne_exhausted hsite
  · rcases (Trail.cross_eq_error hcross).2 with ⟨-, hsevered⟩ | ⟨v, -, hmove⟩
    · rw [hfault] at hsevered
      cases hsevered
    · rw [hfault] at hmove
      exact Direction.move_ne_exhausted hmove

/-- No walk on any network breaks off for want of steps. -/
theorem fault_ne_exhausted_of_walk
    (h : walk net filter traversal direction root counts = .error breakdown) :
    breakdown.fault ≠ .exhausted := by
  have hfollows := walk_follows net filter traversal direction root counts
  rw [h] at hfollows
  obtain ⟨a, -, hhalted⟩ := hfollows
  exact hhalted.fault_ne_exhausted

/-- The same walk in two traversals ends in both, having passed the same nodes and left the same
counts, or breaks off in both. -/
theorem walk_agree (net : Network) (filter : EdgeFilter) (traversal traversal' : Traversal)
    (direction : Direction) (root : Nat) (counts : FanoutCounts) :
    (∃ t t', walk net filter traversal direction root counts = .ok t ∧
      walk net filter traversal' direction root counts = .ok t' ∧ t'.passed.Perm t.passed ∧
      t'.counts = t.counts) ∨
    ∃ breakdown breakdown', walk net filter traversal direction root counts = .error breakdown ∧
      walk net filter traversal' direction root counts = .error breakdown' := by
  cases h : walk net filter traversal direction root counts with
  | ok t =>
    obtain ⟨t', h', hperm, hcounts⟩ := exists_walk_of_walk h traversal'
    exact Or.inl ⟨t, t', rfl, h', hperm, hcounts⟩
  | error breakdown =>
    cases h' : walk net filter traversal' direction root counts with
    | error breakdown' => exact Or.inr ⟨breakdown, breakdown', rfl, rfl⟩
    | ok t' =>
      obtain ⟨t, ht, -⟩ := exists_walk_of_walk h' traversal
      rw [h] at ht
      cases ht

end

end FanoutCone
