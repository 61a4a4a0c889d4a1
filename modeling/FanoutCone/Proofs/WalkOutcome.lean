import FanoutCone.Proofs.Agenda

/-!
# Outcomes of walks

At every agenda that a walk comes to, the moves made so far and the edges still
to be crossed account for what the nodes passed use, and the nodes passed or
waiting are those that have fallen due. Where nothing is left to do, the trail
is therefore an outcome of the course, in either traversal.

In a closed network the one thing that can stop a walk is a count without room:
a node that has no parent left to lose, or as many as can be counted. Where the
counts have room for everything that falls due, the walk ends.
-/
namespace FanoutCone

/-- The course of a walk from `root` over the given counts. -/
def Course.ofCounts (net : Network) (filter : EdgeFilter) (direction : Direction) (root : Nat)
    (counts : FanoutCounts) : Course :=
  ⟨net, filter, direction, root, counts.parents⟩

namespace Agenda

theorem count_await_self (v : Nat) (changed : Bool) (waiting : Multiset Nat) :
    (await (if changed then some v else none) waiting).count v =
      waiting.count v + changed.toNat := by
  cases changed <;> simp

theorem count_await_of_ne {u v : Nat} (h : u ≠ v) {changed : Bool} {waiting : Multiset Nat} :
    (await (if changed then some v else none) waiting).count u = waiting.count u := by
  cases changed <;> simp [h]

/-- What holds at every agenda that a walk comes to. `crossed` says how many edges from each node
were crossed. -/
structure OnCourse (c : Course) (crossed : Nat → Nat) (a : Agenda) : Prop where
  /-- The edges crossed and those to be crossed are the uses of the nodes passed. -/
  uses_eq : ∀ v, crossed v + (a.fanins.filterMap (keptSource c.filter)).count v =
    c.uses a.trail.passed v
  moved : ∀ v, c.direction.Moved (c.before v) (crossed v) (a.trail.counts.parents v)
  /-- A node is entered only when it is due. -/
  count_le : ∀ v, a.trail.passed.count v + a.waiting.count v ≤
    (v == c.root).toNat + (c.direction.flips (c.before v) (crossed v)).toNat
  /-- An internal node that is due waits or was passed. -/
  le_count : ∀ v, c.net.Internal v →
    (v == c.root).toNat + (c.direction.flips (c.before v) (crossed v)).toNat ≤
      a.trail.passed.count v + a.waiting.count v
  legal : c.Legal a.trail.passed

namespace OnCourse

variable {c : Course} {crossed : Nat → Nat} {waiting : Multiset Nat}
variable {fanins : Multiset (Option Edge)} {t t' : Trail} {n : Nat} {site : Site}

theorem start (counts : FanoutCounts) (net : Network) (filter : EdgeFilter)
    (direction : Direction) (root : Nat) :
    OnCourse (.ofCounts net filter direction root counts) (fun _ => 0)
      ⟨{root}, 0, ⟨[], counts⟩⟩ where
  uses_eq v := by simp [Course.uses]
  moved v := Direction.moved_zero _
  count_le v := by
    by_cases hv : v = root
    · simp [Course.ofCounts, hv]
    · simp [Course.ofCounts, hv]
  le_count v _ := by
    by_cases hv : v = root
    · simp [Course.ofCounts, hv]
    · simp [Course.ofCounts, hv]
  legal := trivial

theorem skip (h : OnCourse c crossed ⟨n ::ₘ waiting, fanins, t⟩)
    (hsite : c.net.site? n = some site) (hkind : site.kind = .leaf) :
    OnCourse c crossed ⟨waiting, fanins, t⟩ where
  uses_eq := h.uses_eq
  moved := h.moved
  count_le v := by
    have hv := h.count_le v
    have hcount := Multiset.count_le_count_cons v n waiting
    dsimp only at hv ⊢
    omega
  le_count v hinternal := by
    have hne : v ≠ n := by
      rintro rfl
      obtain ⟨site', hsite', hkind'⟩ := hinternal
      rw [hsite] at hsite'
      cases hsite'
      rw [hkind] at hkind'
      cases hkind'
    have hv := h.le_count v hinternal
    dsimp only at hv ⊢
    rwa [Multiset.count_cons_of_ne hne] at hv
  legal := h.legal

theorem pass (h : OnCourse c crossed ⟨n ::ₘ waiting, fanins, t⟩)
    (hsite : c.net.site? n = some site) (hkind : site.kind = .internal) :
    OnCourse c crossed ⟨waiting, (site.fanins : Multiset (Option Edge)) + fanins, t.pass n⟩ where
  uses_eq v := by
    have hv := h.uses_eq v
    have hsources : c.net.sources c.filter n = site.fanins.filterMap (keptSource c.filter) :=
      Network.sources_of_internal hsite hkind
    simp only [Trail.passed_pass, Course.uses_cons, hsources, Multiset.filterMap_add,
      Multiset.filterMap_coe, Multiset.count_add, Multiset.coe_count] at hv ⊢
    omega
  moved := h.moved
  count_le v := by
    have hv := h.count_le v
    simp only [Trail.passed_pass, Multiset.count_cons, List.count_cons, beq_iff_eq,
      eq_comm (b := n)] at hv ⊢
    omega
  le_count v hinternal := by
    have hv := h.le_count v hinternal
    simp only [Trail.passed_pass, Multiset.count_cons, List.count_cons, beq_iff_eq,
      eq_comm (b := n)] at hv ⊢
    omega
  legal := by
    have hn := h.count_le n
    have hcrossed : crossed n ≤ c.uses t.passed n := by
      have hn' := h.uses_eq n
      dsimp only at hn'
      omega
    have hflips : (c.direction.flips (c.before n) (crossed n)).toNat ≤
        (c.direction.flips (c.before n) (c.uses t.passed n)).toNat :=
      Direction.flips_toNat_mono hcrossed
    refine ⟨h.legal, ⟨site, hsite, hkind⟩, ?_⟩
    simp only [Multiset.count_cons_self] at hn
    unfold Course.due
    omega

theorem cross {fanin : Option Edge} {found : Option Nat}
    (h : OnCourse c crossed ⟨waiting, fanin ::ₘ fanins, t⟩)
    (hcross : t.cross c.filter c.direction fanin = .ok (found, t')) :
    ∃ crossed', OnCourse c crossed' ⟨await found waiting, fanins, t'⟩ := by
  rcases Trail.cross_eq_ok hcross with
    ⟨hkept, rfl, rfl⟩ | ⟨v, changed, counts, hkept, hmove, rfl, rfl⟩
  · refine ⟨crossed, ?_, h.moved, h.count_le, h.le_count, h.legal⟩
    intro u
    have hu := h.uses_eq u
    rwa [Multiset.filterMap_cons_none _ _ hkept] at hu
  · obtain ⟨-, -, hself, hother, hchanged⟩ := Direction.move_eq_ok hmove
    obtain ⟨hmoved, hflips⟩ := Direction.flips_succ (h.moved v) hself
    rw [← hchanged] at hflips
    refine ⟨Function.update crossed v (crossed v + 1), ?_, ?_, ?_, ?_, h.legal⟩
    · intro u
      have hu := h.uses_eq u
      simp only [Multiset.filterMap_cons_some _ _ _ hkept] at hu ⊢
      by_cases huv : u = v
      · subst huv
        simp only [Function.update_self, Multiset.count_cons_self] at hu ⊢
        omega
      · simpa only [Function.update_of_ne huv, Multiset.count_cons_of_ne huv] using hu
    · intro u
      by_cases huv : u = v
      · subst huv
        simpa only [Function.update_self] using hmoved
      · have hu := h.moved u
        dsimp only at hu ⊢
        rwa [Function.update_of_ne huv, hother u huv]
    · intro u
      have hu := h.count_le u
      by_cases huv : u = v
      · subst huv
        simp only [Function.update_self, count_await_self, hflips] at hu ⊢
        omega
      · simp only [Function.update_of_ne huv, count_await_of_ne huv] at hu ⊢
        exact hu
    · intro u hinternal
      have hu := h.le_count u hinternal
      by_cases huv : u = v
      · subst huv
        simp only [Function.update_self, count_await_self, hflips] at hu ⊢
        omega
      · simp only [Function.update_of_ne huv, count_await_of_ne huv] at hu ⊢
        exact hu

end OnCourse

/-- Every step stays on the course. -/
theorem Steps.onCourse {c : Course} {a a' : Agenda}
    (h : Steps c.net c.filter c.direction a a') (ha : ∃ crossed, OnCourse c crossed a) :
    ∃ crossed, OnCourse c crossed a' := by
  induction h with
  | refl => exact ha
  | tail _ hstep ih =>
    obtain ⟨crossed, hcourse⟩ := ih
    cases hstep with
    | skip hsite hkind => exact ⟨crossed, hcourse.skip hsite hkind⟩
    | pass hsite hkind => exact ⟨crossed, hcourse.pass hsite hkind⟩
    | cross hcross => exact hcourse.cross hcross

/-- Only nodes that are present wait, and only edges from present nodes are to be crossed. -/
def Grounded (net : Network) (a : Agenda) : Prop :=
  (∀ n ∈ a.waiting, net.Present n) ∧
    ∀ fanin ∈ a.fanins, ∃ e, fanin = some e ∧ net.Present e.node

/-- In a closed network every step leads to present nodes. -/
theorem Steps.grounded {net : Network} {filter : EdgeFilter} {direction : Direction} {bound : Nat}
    (hclosed : net.Closed bound) {a a' : Agenda} (h : Steps net filter direction a a')
    (ha : a.Grounded net) : a'.Grounded net := by
  induction h with
  | refl => exact ha
  | tail _ hstep ih =>
    obtain ⟨hwaiting, hfanins⟩ := ih
    cases hstep with
    | skip hsite hkind => exact ⟨fun m hm => hwaiting m (Multiset.mem_cons_of_mem hm), hfanins⟩
    | pass hsite hkind =>
      refine ⟨fun m hm => hwaiting m (Multiset.mem_cons_of_mem hm), fun fanin hfanin => ?_⟩
      rcases Multiset.mem_add.1 hfanin with hnew | hold
      · exact hclosed.fanin_of_mem hsite hnew
      · exact hfanins fanin hold
    | @cross fanin found waiting fanins t t' hcross =>
      obtain ⟨e, hfanin, hpresent⟩ := hfanins fanin (Multiset.mem_cons_self fanin fanins)
      refine ⟨fun m hm => ?_, fun f hf => hfanins f (Multiset.mem_cons_of_mem hf)⟩
      rcases Trail.cross_eq_ok hcross with ⟨-, rfl, -⟩ | ⟨v, changed, counts, hkept, -, rfl, -⟩
      · exact hwaiting m hm
      · obtain ⟨e', he', -, rfl⟩ := keptSource_eq_some.1 hkept
        rw [hfanin] at he'
        cases he'
        cases changed with
        | false => exact hwaiting m hm
        | true =>
          rcases Multiset.mem_cons.1 hm with rfl | hm
          · exact hpresent
          · exact hwaiting m hm

/-- Steps keep the size of the store. -/
theorem Steps.size_eq {net : Network} {filter : EdgeFilter} {direction : Direction}
    {a a' : Agenda} (h : Steps net filter direction a a') :
    a'.trail.counts.size = a.trail.counts.size := by
  induction h with
  | refl => rfl
  | tail _ hstep ih =>
    rw [← ih]
    cases hstep with
    | skip => rfl
    | pass => rfl
    | cross hcross =>
      rcases Trail.cross_eq_ok hcross with ⟨-, -, rfl⟩ | ⟨v, changed, counts, -, hmove, -, rfl⟩
      · rfl
      · exact (Direction.move_eq_ok hmove).2.1

end Agenda

section
variable {net : Network} {filter : EdgeFilter} {traversal : Traversal} {direction : Direction}
variable {root : Nat} {counts : FanoutCounts}

/-- Either traversal works off the agenda that holds the root. -/
theorem walk_follows (net : Network) (filter : EdgeFilter) (traversal : Traversal)
    (direction : Direction) (root : Nat) (counts : FanoutCounts) :
    Agenda.Follows net filter direction ⟨{root}, 0, ⟨[], counts⟩⟩ (⟨0, 0, ·⟩)
      (walk net filter traversal direction root counts) := by
  have hreserve := Direction.reserve_le_size direction counts
  cases traversal with
  | recursive => exact descend_follows (counts.size + 1) root ⟨[], counts⟩ 0 0 (by
      simpa using Nat.lt_succ_of_le hreserve)
  | iterative => exact drain_follows (counts.size + 1) [root] ⟨[], counts⟩ (by
      simp only [List.length_singleton]
      omega)

/-- What a walk that ends has done: it has passed the outcome of its course, and moved each count
as often as the nodes passed use the node. -/
theorem walk_eq_ok {t : Trail} (h : walk net filter traversal direction root counts = .ok t) :
    (Course.ofCounts net filter direction root counts).IsOutcome t.passed ∧
      (∀ v, direction.Moved (counts.parents v) (net.uses filter t.passed v)
        (t.counts.parents v)) ∧
      t.counts.size = counts.size := by
  have hsteps := walk_follows net filter traversal direction root counts
  rw [h] at hsteps
  obtain ⟨crossed, hcourse⟩ := Agenda.Steps.onCourse
    (c := .ofCounts net filter direction root counts) hsteps ⟨_, .start counts _ _ _ _⟩
  have hcrossed : ∀ v, crossed v = net.uses filter t.passed v := by
    intro v
    have hv := hcourse.uses_eq v
    rwa [Multiset.filterMap_zero, Multiset.count_zero, Nat.add_zero] at hv
  refine ⟨⟨hcourse.legal, fun v hv => ?_⟩, fun v => ?_, Agenda.Steps.size_eq hsteps⟩
  · have hdue := hcourse.le_count v hv
    rw [hcrossed v, Multiset.count_zero, Nat.add_zero] at hdue
    rw [Multiset.coe_count]
    exact hdue
  · have hmoved := hcourse.moved v
    rwa [hcrossed v] at hmoved

/-- Why a walk in a closed network breaks off: the nodes it has passed use some node more often
than the count of that had room for. -/
theorem walk_eq_error {breakdown : Breakdown} (hclosed : net.Closed counts.size)
    (hroot : net.Present root)
    (h : walk net filter traversal direction root counts = .error breakdown) :
    (Course.ofCounts net filter direction root counts).Legal breakdown.passed ∧
      ∃ v, breakdown.fault = direction.breach v ∧
        direction.room (counts.parents v) < net.uses filter breakdown.passed v := by
  have hfollows := walk_follows net filter traversal direction root counts
  rw [h] at hfollows
  obtain ⟨a, hsteps, hpassed, hhalted⟩ := hfollows
  obtain ⟨crossed, hcourse⟩ := Agenda.Steps.onCourse
    (c := .ofCounts net filter direction root counts) hsteps ⟨_, .start counts _ _ _ _⟩
  obtain ⟨hwaiting, hfanins⟩ := Agenda.Steps.grounded hclosed hsteps
    ⟨by simpa using hroot, by simp⟩
  rw [hpassed]
  rcases hhalted with ⟨n, hn, hsite⟩ | ⟨fanin, hfanin, hcross⟩
  · obtain ⟨site, hsite'⟩ := hwaiting n hn
    simp [Network.site, hsite'] at hsite
  · obtain ⟨e, rfl, hpresent⟩ := hfanins fanin hfanin
    rcases (Trail.cross_eq_error hcross).2 with ⟨hnone, -⟩ | ⟨v, hkept, hmove⟩
    · cases hnone
    · obtain ⟨e', he', -, rfl⟩ := keptSource_eq_some.1 hkept
      cases he'
      have hlt : e.node < a.trail.counts.size := by
        rw [Agenda.Steps.size_eq hsteps]
        exact hclosed.lt_of_present hpresent
      obtain ⟨hfull, hfault⟩ := Direction.move_eq_error hmove hlt
      refine ⟨hcourse.legal, e.node, hfault, ?_⟩
      have hroom := Direction.room_moved (hcourse.moved e.node)
      have huses := hcourse.uses_eq e.node
      have hpos : 0 < (a.fanins.filterMap (keptSource filter)).count e.node := by
        rw [Multiset.count_pos, Multiset.mem_filterMap]
        exact ⟨some e, hfanin, hkept⟩
      simp only [Course.ofCounts, Course.uses] at hroom huses
      omega

/-- In a closed network a walk ends when every count has room for what complete passes use. -/
theorem exists_walk_of_complete {M : Multiset Nat} (hclosed : net.Closed counts.size)
    (hroot : net.Present root)
    (hcomplete : (Course.ofCounts net filter direction root counts).Complete M)
    (hroom : ∀ v, net.uses filter M v ≤ direction.room (counts.parents v)) :
    ∃ t, walk net filter traversal direction root counts = .ok t := by
  cases h : walk net filter traversal direction root counts with
  | ok t => exact ⟨t, rfl⟩
  | error breakdown =>
    obtain ⟨hlegal, v, -, hover⟩ := walk_eq_error hclosed hroot h
    have hle : net.uses filter breakdown.passed v ≤ net.uses filter M v :=
      Network.uses_mono (hlegal.le_of_complete hcomplete) v
    exact absurd (hle.trans (hroom v)) (Nat.not_le.2 hover)

end

end FanoutCone
