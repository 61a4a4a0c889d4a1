import FanoutCone.Proofs.Course

/-!
# Agendas

Both traversals do the same work in different orders. An agenda is what a walk
still has to do, without an order: the nodes that wait to be entered and the
fanin edges that wait to be crossed. Each step takes one of them. The recursive
and the iterative walk both follow steps, and where they break off, some waiting
node or edge is at fault.

Steps keep an invariant that ties the trail to the course of the walk, so a walk
that ends has followed the one outcome of its course.
-/
namespace FanoutCone

/-- The work left to a walk, and how far it has come. -/
structure Agenda where
  /-- The nodes to be entered. -/
  waiting : Multiset Nat
  /-- The fanin edges to be crossed. -/
  fanins : Multiset (Option Edge)
  trail : Trail

namespace Agenda

/-- The waiting nodes once a fanin was found whose liveness changed. -/
def await : Option Nat → Multiset Nat → Multiset Nat
  | some v, waiting => v ::ₘ waiting
  | none, waiting => waiting

@[simp] theorem await_none (waiting : Multiset Nat) : await none waiting = waiting := rfl

@[simp] theorem await_some (v : Nat) (waiting : Multiset Nat) :
    await (some v) waiting = v ::ₘ waiting := rfl

/-- One step of a walk that takes its work in any order. -/
inductive Step (net : Network) (filter : EdgeFilter) (direction : Direction) :
    Agenda → Agenda → Prop
  /-- A leaf is left at once. -/
  | skip {n : Nat} {site : Site} {waiting : Multiset Nat} {fanins : Multiset (Option Edge)}
      {trail : Trail} (hsite : net.site? n = some site) (hkind : site.kind = .leaf) :
      Step net filter direction ⟨n ::ₘ waiting, fanins, trail⟩ ⟨waiting, fanins, trail⟩
  /-- An internal node is passed, and its fanin edges are to be crossed. -/
  | pass {n : Nat} {site : Site} {waiting : Multiset Nat} {fanins : Multiset (Option Edge)}
      {trail : Trail} (hsite : net.site? n = some site) (hkind : site.kind = .internal) :
      Step net filter direction ⟨n ::ₘ waiting, fanins, trail⟩
        ⟨waiting, (site.fanins : Multiset (Option Edge)) + fanins, trail.pass n⟩
  /-- A fanin edge is crossed. -/
  | cross {fanin : Option Edge} {found : Option Nat} {waiting : Multiset Nat}
      {fanins : Multiset (Option Edge)} {trail trail' : Trail}
      (hcross : trail.cross filter direction fanin = .ok (found, trail')) :
      Step net filter direction ⟨waiting, fanin ::ₘ fanins, trail⟩
        ⟨await found waiting, fanins, trail'⟩

def Steps (net : Network) (filter : EdgeFilter) (direction : Direction) : Agenda → Agenda → Prop :=
  Relation.ReflTransGen (Step net filter direction)

/-- Some waiting node or edge is why a walk breaks off at an agenda. -/
def Halted (net : Network) (filter : EdgeFilter) (direction : Direction) (a : Agenda)
    (breakdown : Breakdown) : Prop :=
  breakdown.passed = a.trail.passed ∧
    ((∃ n ∈ a.waiting, net.site n = .error breakdown.fault) ∨
      ∃ fanin ∈ a.fanins, a.trail.cross filter direction fanin = .error breakdown)

/-- Work that starts at one agenda leads to that of its result, or halts on the way. -/
def Follows {α : Type} (net : Network) (filter : EdgeFilter) (direction : Direction) (a : Agenda)
    (target : α → Agenda) : Except Breakdown α → Prop
  | .ok result => Steps net filter direction a (target result)
  | .error breakdown =>
    ∃ a', Steps net filter direction a a' ∧ Halted net filter direction a' breakdown

section
variable {net : Network} {filter : EdgeFilter} {direction : Direction}
variable {α : Type} {a a' : Agenda} {target : α → Agenda} {r : Except Breakdown α}

theorem Follows.of_steps (h : Steps net filter direction a a')
    (hr : Follows net filter direction a' target r) : Follows net filter direction a target r := by
  cases r with
  | ok result => exact Relation.ReflTransGen.trans h hr
  | error breakdown =>
    obtain ⟨a₁, hsteps, hhalted⟩ := hr
    exact ⟨a₁, Relation.ReflTransGen.trans h hsteps, hhalted⟩

theorem Follows.of_step (h : Step net filter direction a a')
    (hr : Follows net filter direction a' target r) : Follows net filter direction a target r :=
  Follows.of_steps (Relation.ReflTransGen.single h) hr

end

end Agenda

@[simp] theorem Trail.counts_pass (t : Trail) (n : Nat) : (t.pass n).counts = t.counts := rfl

@[simp] theorem Trail.passed_pass (t : Trail) (n : Nat) : (t.pass n).passed = n :: t.passed := rfl

/-- What crossing a fanin edge does: nothing if the filter drops it, and one move otherwise. -/
theorem Trail.cross_eq_ok {filter : EdgeFilter} {direction : Direction} {fanin : Option Edge}
    {found : Option Nat} {t t' : Trail} (h : t.cross filter direction fanin = .ok (found, t')) :
    (keptSource filter fanin = none ∧ found = none ∧ t' = t) ∨
      ∃ v changed counts, keptSource filter fanin = some v ∧
        direction.move v t.counts = .ok (changed, counts) ∧
        found = (if changed then some v else none) ∧ t' = ⟨t.passed, counts⟩ := by
  obtain ⟨passed, counts⟩ := t
  cases fanin with
  | none => simp [cross, breakOff] at h
  | some e =>
    by_cases hkeep : filter.keeps e = true
    · cases hmove : direction.move e.node counts with
      | error fault => simp [cross, hkeep, hmove] at h
      | ok result =>
        obtain ⟨changed, counts'⟩ := result
        simp only [cross, hkeep, hmove, if_true, Except.ok.injEq, Prod.mk.injEq] at h
        refine Or.inr ⟨e.node, changed, counts', by simp [keptSource_some, hkeep], hmove, ?_, ?_⟩
        · exact h.1.symm
        · exact h.2.symm
    · rw [Bool.not_eq_true] at hkeep
      simp only [cross, hkeep, Bool.false_eq_true, if_false, Except.ok.injEq, Prod.mk.injEq] at h
      exact Or.inl ⟨by simp [keptSource_some, hkeep], h.1.symm, h.2.symm⟩

/-- Why an edge cannot be crossed: it was deleted, or its source has no parent to give. -/
theorem Trail.cross_eq_error {filter : EdgeFilter} {direction : Direction} {fanin : Option Edge}
    {breakdown : Breakdown} {t : Trail} (h : t.cross filter direction fanin = .error breakdown) :
    breakdown.passed = t.passed ∧
      ((fanin = none ∧ breakdown.fault = .severedFanin) ∨
        ∃ v, keptSource filter fanin = some v ∧
          direction.move v t.counts = .error breakdown.fault) := by
  obtain ⟨passed, counts⟩ := t
  cases fanin with
  | none =>
    simp only [cross, breakOff, Except.error.injEq] at h
    subst h
    exact ⟨rfl, Or.inl ⟨rfl, rfl⟩⟩
  | some e =>
    by_cases hkeep : filter.keeps e = true
    · cases hmove : direction.move e.node counts with
      | error fault =>
        simp only [cross, hkeep, hmove, if_true, Except.error.injEq] at h
        subst h
        exact ⟨rfl, Or.inr ⟨e.node, by simp [keptSource_some, hkeep], hmove⟩⟩
      | ok result => simp [cross, hkeep, hmove] at h
    · rw [Bool.not_eq_true] at hkeep
      simp [cross, hkeep] at h

section
variable {net : Network} {filter : EdgeFilter} {direction : Direction}

/-- A fanin whose liveness changed comes out of the reserve. -/
theorem Trail.reserve_cross {fanin : Option Edge} {found : Option Nat} {t t' : Trail}
    (h : t.cross filter direction fanin = .ok (found, t')) :
    direction.reserve t'.counts + found.isSome.toNat = direction.reserve t.counts := by
  rcases Trail.cross_eq_ok h with ⟨-, rfl, rfl⟩ | ⟨v, changed, counts, -, hmove, rfl, rfl⟩
  · rfl
  · rw [← Direction.reserve_move hmove]
    cases changed <;> rfl

namespace Agenda

theorem card_await (found : Option Nat) (waiting : Multiset Nat) :
    (await found waiting).card = waiting.card + found.isSome.toNat := by
  cases found <;> simp

/-- What bounds the nodes that are still to be entered: those waiting and the reserve. -/
def budget (direction : Direction) (a : Agenda) : Nat :=
  a.waiting.card + direction.reserve a.trail.counts

theorem Step.reserve_le {a a' : Agenda} (h : Step net filter direction a a') :
    direction.reserve a'.trail.counts ≤ direction.reserve a.trail.counts := by
  cases h with
  | skip => exact le_rfl
  | pass => exact le_rfl
  | cross hcross =>
    have hreserve := Trail.reserve_cross hcross
    dsimp only
    omega

theorem Step.budget_le {a a' : Agenda} (h : Step net filter direction a a') :
    a'.budget direction ≤ a.budget direction := by
  cases h with
  | skip => simp [budget]
  | pass =>
    simp only [budget, Multiset.card_cons]
    exact Nat.add_le_add_right (Nat.le_succ _) _
  | cross hcross =>
    have hreserve := Trail.reserve_cross hcross
    simp only [budget, card_await]
    omega

theorem Steps.reserve_le {a a' : Agenda} (h : Steps net filter direction a a') :
    direction.reserve a'.trail.counts ≤ direction.reserve a.trail.counts := by
  induction h with
  | refl => exact le_rfl
  | tail _ hstep ih => exact hstep.reserve_le.trans ih

theorem Steps.budget_le {a a' : Agenda} (h : Steps net filter direction a a') :
    a'.budget direction ≤ a.budget direction := by
  induction h with
  | refl => exact le_rfl
  | tail _ hstep ih => exact hstep.budget_le.trans ih

theorem Halted.of_site {n : Nat} {fault : Fault} {waiting : Multiset Nat}
    {fanins : Multiset (Option Edge)} {t : Trail} (h : net.site n = .error fault) :
    Halted net filter direction ⟨n ::ₘ waiting, fanins, t⟩ ⟨fault, t.passed⟩ :=
  ⟨rfl, Or.inl ⟨n, Multiset.mem_cons_self n waiting, h⟩⟩

theorem Halted.of_cross {fanin : Option Edge} {breakdown : Breakdown} {waiting : Multiset Nat}
    {fanins : Multiset (Option Edge)} {t : Trail}
    (h : t.cross filter direction fanin = .error breakdown) :
    Halted net filter direction ⟨waiting, fanin ::ₘ fanins, t⟩ breakdown :=
  ⟨(Trail.cross_eq_error h).1, Or.inr ⟨fanin, Multiset.mem_cons_self fanin fanins, h⟩⟩

end Agenda

open Agenda

/-- Crossing the fanins of a node follows the agenda if what is done below a fanin does. -/
theorem crossEach_follows {below : Nat → Trail → Except Breakdown Trail} {depth : Nat}
    (hbelow : ∀ v t waiting fanins, direction.reserve t.counts < depth →
      Follows net filter direction ⟨v ::ₘ waiting, fanins, t⟩ (⟨waiting, fanins, ·⟩) (below v t))
    (edges : List (Option Edge)) (t : Trail) (waiting : Multiset Nat)
    (fanins : Multiset (Option Edge)) (ht : direction.reserve t.counts ≤ depth) :
    Follows net filter direction ⟨waiting, (edges : Multiset (Option Edge)) + fanins, t⟩
      (⟨waiting, fanins, ·⟩) (crossEach filter direction below edges t) := by
  induction edges generalizing t with
  | nil =>
    rw [crossEach, Multiset.coe_nil, zero_add]
    exact Relation.ReflTransGen.refl
  | cons edge edges ih =>
    rw [← Multiset.cons_coe, Multiset.cons_add]
    unfold crossEach
    cases hcross : t.cross filter direction edge with
    | error breakdown => exact ⟨_, Relation.ReflTransGen.refl, Halted.of_cross hcross⟩
    | ok result =>
      obtain ⟨found, t₁⟩ := result
      have hreserve := Trail.reserve_cross hcross
      have hstep : Step net filter direction
          ⟨waiting, edge ::ₘ ((edges : Multiset (Option Edge)) + fanins), t⟩
          ⟨await found waiting, (edges : Multiset (Option Edge)) + fanins, t₁⟩ := .cross hcross
      cases found with
      | none => exact .of_step hstep (ih t₁ (by omega))
      | some v =>
        have hless : direction.reserve t₁.counts < depth := by
          rw [Option.isSome_some, Bool.toNat_true] at hreserve
          omega
        have hv := hbelow v t₁ waiting ((edges : Multiset (Option Edge)) + fanins) hless
        refine .of_step hstep ?_
        dsimp only
        cases hresult : below v t₁ with
        | error breakdown =>
          rw [hresult] at hv
          exact hv
        | ok t₂ =>
          rw [hresult] at hv
          have hle : direction.reserve t₂.counts ≤ direction.reserve t₁.counts :=
            Steps.reserve_le hv
          exact .of_steps hv (ih t₂ (by omega))

/-- The recursive walk follows the agenda when it may go deeper than the reserve is large. -/
theorem descend_follows (depth n : Nat) (t : Trail) (waiting : Multiset Nat)
    (fanins : Multiset (Option Edge)) (ht : direction.reserve t.counts < depth) :
    Follows net filter direction ⟨n ::ₘ waiting, fanins, t⟩ (⟨waiting, fanins, ·⟩)
      (descend net filter direction depth n t) := by
  induction depth generalizing n t waiting fanins with
  | zero => omega
  | succ depth ih =>
    unfold descend
    cases hsite : net.site n with
    | error fault => exact ⟨_, Relation.ReflTransGen.refl, Halted.of_site hsite⟩
    | ok site =>
      have hsite' := Network.site_eq_ok hsite
      dsimp only
      cases hkind : site.kind with
      | leaf => exact Relation.ReflTransGen.single (.skip hsite' hkind)
      | internal =>
        refine .of_step (.pass hsite' hkind) ?_
        exact crossEach_follows (fun v t waiting fanins => ih v t waiting fanins)
          site.fanins (t.pass n) waiting fanins (Nat.le_of_lt_succ ht)

/-- Crossing all fanins of a node at once follows the agenda, too. -/
theorem crossAll_follows (edges : List (Option Edge)) (waiting : List Nat) (t : Trail) :
    Follows net filter direction ⟨waiting, edges, t⟩ (fun r => ⟨r.1, 0, r.2⟩)
      (crossAll filter direction edges waiting t) := by
  induction edges generalizing waiting t with
  | nil => exact Relation.ReflTransGen.refl
  | cons edge edges ih =>
    rw [← Multiset.cons_coe]
    unfold crossAll
    cases hcross : t.cross filter direction edge with
    | error breakdown => exact ⟨_, Relation.ReflTransGen.refl, Halted.of_cross hcross⟩
    | ok result =>
      obtain ⟨found, t₁⟩ := result
      have hstep : Step net filter direction ⟨waiting, edge ::ₘ edges, t⟩
          ⟨await found waiting, edges, t₁⟩ := .cross hcross
      cases found with
      | none => exact .of_step hstep (ih waiting t₁)
      | some v => exact .of_step hstep (ih (v :: waiting) t₁)

/-- The iterative walk follows the agenda when it may take as many steps as its budget says. -/
theorem drain_follows (steps : Nat) (waiting : List Nat) (t : Trail)
    (ht : waiting.length + direction.reserve t.counts ≤ steps) :
    Follows net filter direction ⟨waiting, 0, t⟩ (⟨0, 0, ·⟩)
      (drain net filter direction steps waiting t) := by
  induction steps generalizing waiting t with
  | zero =>
    obtain rfl : waiting = [] := List.eq_nil_of_length_eq_zero (by omega)
    exact Relation.ReflTransGen.refl
  | succ steps ih =>
    cases waiting with
    | nil => exact Relation.ReflTransGen.refl
    | cons n waiting =>
      rw [← Multiset.cons_coe]
      rw [List.length_cons] at ht
      unfold drain
      cases hsite : net.site n with
      | error fault => exact ⟨_, Relation.ReflTransGen.refl, Halted.of_site hsite⟩
      | ok site =>
        have hsite' := Network.site_eq_ok hsite
        dsimp only
        cases hkind : site.kind with
        | leaf => exact .of_step (.skip hsite' hkind) (ih waiting t (by omega))
        | internal =>
          have hpass : Step net filter direction ⟨n ::ₘ waiting, 0, t⟩
              ⟨waiting, site.fanins, t.pass n⟩ := by
            have h : Step net filter direction ⟨n ::ₘ waiting, 0, t⟩
                ⟨waiting, (site.fanins : Multiset (Option Edge)) + 0, t.pass n⟩ :=
              .pass hsite' hkind
            rwa [add_zero] at h
          have hall : Follows net filter direction ⟨waiting, site.fanins, t.pass n⟩
              (fun r => ⟨r.1, 0, r.2⟩) (crossAll filter direction site.fanins waiting (t.pass n)) :=
            crossAll_follows site.fanins waiting (t.pass n)
          refine .of_step hpass ?_
          dsimp only
          cases hresult : crossAll filter direction site.fanins waiting (t.pass n) with
          | error breakdown =>
            rw [hresult] at hall
            exact hall
          | ok result =>
            obtain ⟨waiting', t'⟩ := result
            rw [hresult] at hall
            have hbudget := Steps.budget_le hall
            simp only [budget, Multiset.coe_card, Trail.counts_pass] at hbudget
            exact .of_steps hall (ih waiting' t' (by omega))

end

end FanoutCone
