import Mathlib.Order.WellFoundedSet
import FanoutCone.Proofs.Consistency
import FanoutCone.Proofs.Errands
import FanoutCone.Proofs.MaximumCone

/-!
# References undone

A dereference undoes the reference before it where the network has no cycle,
whatever the counts were. A node that a reference revives has no parent before,
so all that it has afterwards come from nodes passed. When these give them back
it dies again; on a cycle they may each wait for the other.

Nothing is asked of the network but that it has no cycle. Where the reference
came, the nodes were there and their fanin edges could be crossed, and the
dereference comes nowhere else.
-/
namespace FanoutCone

/-- In a set of nodes that have no cycle, what holds of a node whenever it holds of all that read it
holds of every node. -/
theorem Network.Acyclic.induction {net : Network} (hacyclic : net.Acyclic) {nodes : List Nat}
    {P : Nat → Prop} (step : ∀ v ∈ nodes, (∀ u ∈ nodes, net.Reads u v → P u) → P v) :
    ∀ v ∈ nodes, P v := by
  have : IsStrictOrder Nat (Relation.TransGen net.Reads) :=
    { irrefl := hacyclic, trans := fun _ _ _ => Relation.TransGen.trans }
  have hfounded := nodes.toFinset.wellFoundedOn (r := Relation.TransGen net.Reads)
  intro v hv
  refine hfounded.induction (List.mem_toFinset.2 hv) fun w hw ih => ?_
  exact step w (List.mem_toFinset.1 hw) fun u hu hread =>
    ih u (List.mem_toFinset.2 hu) (.single hread)

namespace Course

variable {c : Course} {passed passed' : List Nat} {M : Multiset Nat}

/-- The walk that takes away the parents which the nodes of `M` have given. -/
def undone (c : Course) (M : Multiset Nat) : Course :=
  { c with direction := .dereference, before := fun v => c.before v + c.uses M v }

/-- Nodes that leave nothing due on the way up leave nothing due on the way down. -/
theorem Complete.undone (h : c.Complete M) (hup : c.direction = .reference) :
    (c.undone M).Complete M := by
  intro v hv
  have hdue := h v hv
  rw [due, hup] at hdue
  refine le_trans (Nat.add_le_add_left (le_of_eq (congrArg Bool.toNat ?_)) _) hdue
  show Direction.flips .dereference (c.before v + c.uses M v) (c.uses M v) = _
  rw [Bool.eq_iff_iff, Direction.flips_reference_iff, Direction.flips_dereference_iff]
  omega

/-- Without cycles, the way down passes all the nodes that the way up has passed: one that was
revived has lost every parent once all passed nodes that read it are passed again. -/
theorem IsOutcome.subset_undone (h : c.IsOutcome passed) (hup : c.direction = .reference)
    (hacyclic : c.net.Acyclic) (h' : (c.undone passed).IsOutcome passed') :
    ∀ v ∈ passed, v ∈ passed' := by
  have hnodup : passed.Nodup := h.legal.nodup hacyclic
  have hnodup' : passed'.Nodup := h'.legal.nodup hacyclic
  refine hacyclic.induction fun v hv ih => h'.mem_iff.2 ?_
  obtain ⟨hinternal, hdue⟩ := h.mem_iff.1 hv
  refine ⟨hinternal, hdue.imp_right fun hflips => ?_⟩
  have huses : c.uses passed v ≤ c.uses passed' v := by
    rw [uses, uses, Network.uses_eq_sum hnodup, Network.uses_eq_sum hnodup']
    refine Finset.sum_le_sum_of_ne_zero fun u hu hne => List.mem_toFinset.2 ?_
    have hread := List.count_pos_iff.1 (Nat.pos_of_ne_zero hne)
    exact ih u (List.mem_toFinset.1 hu) (Network.reads_of_mem_sources hread)
  rw [hup, Direction.flips_reference_iff] at hflips
  show Direction.flips .dereference (c.before v + c.uses passed v) (c.uses passed' v) = true
  rw [Direction.flips_dereference_iff]
  omega

/-- Without cycles, a way down that comes to its end has passed what the way up had passed. -/
theorem IsOutcome.perm_undone (h : c.IsOutcome passed) (hup : c.direction = .reference)
    (hacyclic : c.net.Acyclic) (h' : (c.undone passed).IsOutcome passed') :
    passed'.Perm passed := by
  refine (List.perm_ext_iff_of_nodup (h'.legal.nodup hacyclic) (h.legal.nodup hacyclic)).2
    fun v => ⟨fun hv => ?_, h.subset_undone hup hacyclic h' v⟩
  have hle := h'.legal.le_of_complete (h.complete.undone hup)
  exact Multiset.mem_coe.1 (Multiset.mem_of_le hle (Multiset.mem_coe.2 hv))

end Course

section
variable {net : Network} {filter : EdgeFilter} {direction : Direction}
variable {tasks : Multiset Task} {task : Task} {M : Multiset Nat} {counts counts' : FanoutCounts}
variable {y : Yield}

/-- A task moves one count at most, and a node whose liveness changes is to be entered. -/
theorem Task.enter_mem_of_yield? (h : task.yield? net filter direction counts = some y) {v : Nat}
    (hv : (decide (counts.parents v = 0) != decide (y.counts.parents v = 0)) = true) :
    .enter v ∈ y.tasks := by
  cases task with
  | enter n =>
    rw [(yield?_enter h).1] at hv
    simp at hv
  | cross fanin =>
    obtain ⟨e, rfl, ⟨-, rfl⟩ | ⟨-, changed, counts₁, hmove, rfl⟩⟩ := yield?_cross h
    · simp at hv
    · obtain ⟨-, -, -, hother, hchanged⟩ := Direction.move_eq_ok hmove
      obtain rfl : v = e.node := by
        by_contra hne
        simp [hother v hne] at hv
      rw [hchanged, hv]
      simp

theorem Task.size_of_yield? (h : task.yield? net filter direction counts = some y) :
    y.counts.size = counts.size := by
  cases task with
  | enter n => rw [(yield?_enter h).1]
  | cross fanin =>
    obtain ⟨e, rfl, ⟨-, rfl⟩ | ⟨-, changed, counts₁, hmove, rfl⟩⟩ := yield?_cross h
    · rfl
    · exact (Direction.move_eq_ok hmove).2.1

/-- The fanin edges of a node that is passed are to be crossed. -/
theorem Task.cross_mem_of_yield? (h : task.yield? net filter direction counts = some y) {u : Nat}
    (hu : u ∈ y.passed) {site : Site} (hsite : net.site? u = some site) {fanin : Option Edge}
    (hfanin : fanin ∈ site.fanins) : .cross fanin ∈ y.tasks := by
  cases task with
  | cross fanin =>
    obtain ⟨e, rfl, ⟨-, rfl⟩ | ⟨-, changed, counts₁, -, rfl⟩⟩ := yield?_cross h <;> cases hu
  | enter n =>
    cases hn : net.site? n with
    | none => simp [yield?, hn] at h
    | some site' =>
      obtain ⟨kind, fanins⟩ := site'
      cases kind with
      | leaf =>
        simp only [yield?, hn, Option.some.injEq] at h
        subst h
        cases hu
      | internal =>
        simp only [yield?, hn, Option.some.injEq] at h
        subst h
        obtain rfl := Multiset.mem_singleton.1 hu
        obtain rfl := Option.some.inj (hn.symm.trans hsite)
        exact Multiset.mem_map_of_mem _ (Multiset.mem_coe.2 hfanin)

namespace Settles

/-- A node whose liveness has changed is there. -/
theorem present_of_changed (h : Settles net filter direction tasks counts M counts') {v : Nat}
    (hv : (decide (counts.parents v = 0) != decide (counts'.parents v = 0)) = true) :
    net.Present v := by
  induction h with
  | done counts => simp at hv
  | @take task rest counts counts' y M htask hrest ih =>
    by_cases hnow : decide (y.counts.parents v = 0) = decide (counts.parents v = 0)
    · exact ih (by rw [hnow]; exact hv)
    · have henter : .enter v ∈ y.tasks :=
        Task.enter_mem_of_yield? htask (bne_iff_ne.2 (Ne.symm hnow))
      exact hrest.present_of_enter (Multiset.mem_add.2 (Or.inl henter))

/-- The fanin edges of a node passed are there, and there is a count for each source that is
kept. -/
theorem fanin_of_passed (h : Settles net filter direction tasks counts M counts') {u : Nat}
    (hu : u ∈ M) {site : Site} (hsite : net.site? u = some site) {fanin : Option Edge}
    (hfanin : fanin ∈ site.fanins) :
    ∃ e, fanin = some e ∧ (filter.keeps e = true → e.node < counts.size) := by
  induction h with
  | done counts => cases hu
  | @take task rest counts counts' y M htask hrest ih =>
    rw [← Task.size_of_yield? htask]
    rcases Multiset.mem_add.1 hu with hu | hu
    · have hcross := Task.cross_mem_of_yield? htask hu hsite hfanin
      obtain ⟨y', hyield⟩ := hrest.exists_yield (Multiset.mem_add.2 (Or.inl hcross))
      obtain ⟨e, rfl, ⟨hdrops, -⟩ | ⟨-, changed, counts₁, hmove, -⟩⟩ := Task.yield?_cross hyield
      · exact ⟨e, rfl, fun hkeeps => absurd hkeeps (by simp [hdrops])⟩
      · exact ⟨e, rfl, fun _ => (Direction.move_eq_ok hmove).1⟩
    · exact ih hu

end Settles

/-- The edges that a walk still has to cross are fanins of nodes that it has passed. -/
theorem Agenda.Steps.exists_passed {a a' : Agenda} (h : Steps net filter direction a a')
    (ha : ∀ fanin ∈ a.fanins, ∃ u ∈ a.trail.passed, ∃ site, net.site? u = some site ∧
      fanin ∈ site.fanins) :
    ∀ fanin ∈ a'.fanins, ∃ u ∈ a'.trail.passed, ∃ site, net.site? u = some site ∧
      fanin ∈ site.fanins := by
  induction h with
  | refl => exact ha
  | tail _ hstep ih =>
    cases hstep with
    | skip hsite hkind => exact ih
    | @pass n site waiting fanins trail hsite hkind =>
      intro fanin hfanin
      rcases Multiset.mem_add.1 hfanin with hnew | hold
      · exact ⟨n, List.mem_cons_self, site, hsite, hnew⟩
      · obtain ⟨u, hu, hfanin⟩ := ih fanin hold
        exact ⟨u, List.mem_cons_of_mem n hu, hfanin⟩
    | @cross fanin found waiting fanins trail trail' hcross =>
      have hpassed : trail'.passed = trail.passed := by
        rcases Trail.cross_eq_ok hcross with ⟨-, -, rfl⟩ | ⟨v, changed, counts, -, -, -, rfl⟩
        · rfl
        · rfl
      intro fanin' hfanin'
      rw [hpassed]
      exact ih fanin' (Multiset.mem_cons_of_mem hfanin')

end

section
variable {net : Network} {filter : EdgeFilter} {traversal : Traversal} {root : Nat}
variable {counts : FanoutCounts} {t : Trail}

/-- The course down over the counts that a reference has left. -/
theorem ofCounts_eq_undone (hup : walk net filter traversal .reference root counts = .ok t) :
    Course.ofCounts net filter .dereference root t.counts =
      (Course.ofCounts net filter .reference root counts).undone t.passed := by
  have hafter := (walk_eq_ok hup).2.1
  simp only [Course.ofCounts, Course.undone, Course.mk.injEq, true_and]
  exact funext hafter

/-- After a reference the dereference breaks off nowhere: whatever it comes to, the reference has
come to as well, and has given the parents that are taken. -/
theorem not_halted_undone (hup : walk net filter traversal .reference root counts = .ok t)
    {a : Agenda} {breakdown : Breakdown}
    (hsteps : Agenda.Steps net filter .dereference ⟨{root}, 0, ⟨[], t.counts⟩⟩ a) :
    ¬ a.Halted net filter .dereference breakdown := by
  obtain ⟨houtcome, hmoved, hsize⟩ := walk_eq_ok hup
  have hsettles := settles_of_walk hup
  obtain ⟨crossed, hcourse⟩ := Agenda.Steps.onCourse
    (c := .ofCounts net filter .dereference root t.counts) hsteps ⟨_, .start t.counts _ _ _ _⟩
  have hpassed : (a.trail.passed : Multiset Nat) ≤ t.passed := by
    have hlegal := hcourse.legal
    rw [ofCounts_eq_undone hup] at hlegal
    exact hlegal.le_of_complete (houtcome.complete.undone rfl)
  have hcrossed : ∀ v, crossed v + (a.fanins.filterMap (keptSource filter)).count v ≤
      net.uses filter t.passed v := by
    intro v
    exact (hcourse.uses_eq v).le.trans (Network.uses_mono hpassed v)
  rintro ⟨-, ⟨n, hn, hsite⟩ | ⟨fanin, hfanin, hcross⟩⟩
  · -- A node that waits is the root, or had no parents before the reference and was revived.
    obtain ⟨site, hpresent⟩ : net.Present n := by
      by_cases hroot : n = root
      · rw [hroot]
        exact hsettles.present_of_enter (Multiset.mem_singleton_self _)
      · have hdue := hcourse.count_le n
        have hwaits := Multiset.count_pos.2 hn
        have hflips : Direction.flips .dereference (t.counts.parents n) (crossed n) = true := by
          by_contra hfalse
          rw [Bool.not_eq_true] at hfalse
          simp only [Course.ofCounts, hfalse, beq_eq_false_iff_ne.2 hroot, Bool.toNat_false] at hdue
          omega
        have hn := hmoved n
        have hle := hcrossed n
        rw [Direction.flips_dereference_iff] at hflips
        simp only [Direction.Moved] at hn
        refine hsettles.present_of_changed (bne_iff_ne.2 fun heq => ?_)
        rw [decide_eq_decide] at heq
        omega
    simp [Network.site, hpresent] at hsite
  · obtain ⟨u, hu, site, hsite, hmem⟩ := hsteps.exists_passed (by simp) fanin hfanin
    obtain ⟨e, rfl, hlt⟩ :=
      hsettles.fanin_of_passed (Multiset.mem_of_le hpassed (Multiset.mem_coe.2 hu)) hsite hmem
    rcases (Trail.cross_eq_error hcross).2 with ⟨hnone, -⟩ | ⟨v, hkept, hmove⟩
    · cases hnone
    · obtain ⟨e', he', hkeeps, rfl⟩ := keptSource_eq_some.1 hkept
      cases he'
      have hlt' : e.node < a.trail.counts.size := by
        rw [hsteps.size_eq, hsize]
        exact hlt hkeeps
      have hdead : a.trail.counts.parents e.node = 0 := (Direction.move_eq_error hmove hlt').1
      have hpos : 0 < (a.fanins.filterMap (keptSource filter)).count e.node := by
        rw [Multiset.count_pos, Multiset.mem_filterMap]
        exact ⟨some e, hfanin, hkept⟩
      have hafter := hmoved e.node
      have hnow := hcourse.moved e.node
      have hle := hcrossed e.node
      simp only [Course.ofCounts, Direction.Moved, hdead] at hafter hnow
      omega

/-- Without cycles a dereference undoes a reference, in any two traversals. -/
theorem exists_walk_undone (hacyclic : net.Acyclic)
    (hup : walk net filter traversal .reference root counts = .ok t) (back : Traversal) :
    ∃ t', walk net filter back .dereference root t.counts = .ok t' ∧ t'.passed.Perm t.passed ∧
      t'.counts = counts := by
  obtain ⟨houtcome, hmoved, hsize⟩ := walk_eq_ok hup
  cases hdown : walk net filter back .dereference root t.counts with
  | error breakdown =>
    have hfollows := walk_follows net filter back .dereference root t.counts
    rw [hdown] at hfollows
    obtain ⟨a, hsteps, hhalted⟩ := hfollows
    exact absurd hhalted (not_halted_undone hup hsteps)
  | ok t' =>
    obtain ⟨houtcome', hmoved', hsize'⟩ := walk_eq_ok hdown
    rw [ofCounts_eq_undone hup] at houtcome'
    have hperm := houtcome.perm_undone rfl hacyclic houtcome'
    refine ⟨t', rfl, hperm, FanoutCounts.ext_parents (hsize'.trans hsize) fun v => ?_⟩
    have hv := hmoved v
    have hv' := hmoved' v
    rw [Multiset.coe_eq_coe.2 hperm] at hv'
    simp only [Direction.Moved] at hv hv'
    omega

end

namespace CountingWalk

variable {net : Network} {root size : Nat} {s s₁ : Stores} {w : CountingWalk}

/-- Dereference undoes reference. In any network without cycles, over any counts, let a reference
return. Then the dereference from there by the same edges returns the same number, whichever
traversals the two have and whether or not they label, and every count is as it was. -/
theorem dereference_undoes_reference {up down : CountingWalk} (hacyclic : net.Acyclic)
    (hfilter : down.filter = up.filter)
    (hmarks : down.label = true → ∀ n, net.Internal n → n < s.marks.size)
    (hup : up.reference net root s = .ok (size, s₁)) :
    ∃ s₂, down.dereference net root s₁ = .ok (size, s₂) ∧ s₂.counts = s.counts := by
  obtain ⟨t, hwalk, rfl, hcounts, hevolves⟩ := run_eq_ok hup
  obtain ⟨t', hback, hperm, hrestored⟩ := exists_walk_undone hacyclic hwalk down.traversal
  rw [← hfilter, ← hcounts] at hback
  obtain ⟨s₂, hdown, hcounts₂⟩ := exists_run_of_lt (w := down) (fun hlabel n hn => by
    rw [hevolves.size_eq]
    exact hmarks hlabel n ((walk_eq_ok hback).1.legal.internal_of_mem hn)) hback
  refine ⟨s₂, ?_, hcounts₂.trans hrestored⟩
  rw [← hperm.length_eq]
  exact hdown

/-- A gate that reads a gate twice, and once more through a third, over a leaf. All but the root
have been dereferenced. -/
def spent : FaninTable :=
  .ofRows [(.leaf, []), (.internal, [⟨0, false⟩, ⟨0, true⟩]),
    (.internal, [⟨1, false⟩, ⟨0, false⟩]), (.internal, [⟨1, false⟩, ⟨2, false⟩, ⟨1, false⟩])]
    [0, 0, 0, 7]

theorem dereference_undoes_reference_spent :
    ∃ s₁ s₂, reference ⟨.uncomplemented, true, .recursive⟩ (FaninTable.networkOf spent.rows) 3
        spent.stores = .ok (3, s₁) ∧
      dereference ⟨.uncomplemented, true, .iterative⟩ (FaninTable.networkOf spent.rows) 3 s₁ =
        .ok (3, s₂) ∧
      s₂.counts = spent.stores.counts := by
  have hclosed : (FaninTable.networkOf spent.rows).Closed 4 :=
    FaninTable.closed_networkOf (by decide)
  have hup : reference ⟨.uncomplemented, true, .recursive⟩ (FaninTable.networkOf spent.rows) 3
      spent.stores = .ok (3, ⟨⟨#[2, 3, 1, 7]⟩, ⟨1, #[0, 1, 1, 1]⟩⟩) := by rfl
  obtain ⟨s₂, hdown, hcounts⟩ := @dereference_undoes_reference (FaninTable.networkOf spent.rows)
    3 3 spent.stores _ _ ⟨.uncomplemented, true, .iterative⟩
    (FaninTable.acyclic_networkOf (by decide)) rfl (fun _ _ => hclosed.lt_of_internal) hup
  exact ⟨_, s₂, hup, hdown, hcounts⟩

/-- On a cycle the way down stops short. Where two gates read each other, the way up comes back to
the root, and so gives the other gate twice the parents that the way down takes from it. -/
example :
    reference {} (FaninTable.networkOf ConeQuery.feedback.rows) 0
        ⟨⟨#[0, 0, 0]⟩, ConeQuery.feedback.stores.marks⟩ =
      .ok (3, ⟨⟨#[1, 4, 1]⟩, ConeQuery.feedback.stores.marks⟩) ∧
    dereference {} (FaninTable.networkOf ConeQuery.feedback.rows) 0
        ⟨⟨#[1, 4, 1]⟩, ConeQuery.feedback.stores.marks⟩ =
      .ok (1, ⟨⟨#[1, 2, 1]⟩, ConeQuery.feedback.stores.marks⟩) :=
  ⟨rfl, rfl⟩

end CountingWalk

end FanoutCone
