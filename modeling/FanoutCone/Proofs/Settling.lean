import FanoutCone.Proofs.Tallies
import FanoutCone.Proofs.WalkOutcome

/-!
# Work that settles

A walk is made of tasks: nodes to be entered and fanin edges to be crossed. What
a task yields depends on the counts, but no two tasks get in each other's way.
If one after the other can be done, they can be done the other way round, and
then yield the same together.

`Settles` says that some order of the tasks does all of them. By the exchange of
neighbours any task may come first, so every order does the same work, passes
the same nodes and leaves the same counts. That needs nothing of the network:
where one order meets a missing node, a severed edge or a count without room,
every order does.
-/
namespace FanoutCone

namespace Direction

variable {direction : Direction} {counts counts' : FanoutCounts} {u v : Nat}

theorem moved_unique {before k after after' : Nat} (h : direction.Moved before k after)
    (h' : direction.Moved before k after') : after = after' := by
  cases direction <;> simp only [Moved] at h h' <;> omega

/-- A move succeeds inside the store at a count with room. -/
theorem exists_move (hv : v < counts.size) (hroom : 0 < direction.room (counts.parents v)) :
    ∃ changed counts', direction.move v counts = .ok (changed, counts') := by
  cases h : direction.move v counts with
  | ok result => exact ⟨result.1, result.2, rfl⟩
  | error fault =>
    have hfull := (move_eq_error h hv).1
    omega

theorem room_pos_of_move {changed : Bool}
    (h : direction.move v counts = .ok (changed, counts')) :
    0 < direction.room (counts.parents v) := by
  have hroom := room_moved (move_eq_ok h).2.2.1
  omega

/-- Two moves can be made in either order. At different nodes each reports what it reported; at one
node the earlier move reports what the earlier one did. -/
theorem move_comm {a b : Bool} {counts₁ : FanoutCounts}
    (hu : direction.move u counts = .ok (a, counts₁))
    (hv : direction.move v counts₁ = .ok (b, counts')) :
    ∃ a' b' counts₂, direction.move v counts = .ok (b', counts₂) ∧
      direction.move u counts₂ = .ok (a', counts') ∧
      (u = v ∧ a' = b ∧ b' = a ∨ u ≠ v ∧ a' = a ∧ b' = b) := by
  by_cases huv : u = v
  · subst huv
    exact ⟨b, a, counts₁, hu, hv, Or.inl ⟨rfl, rfl, rfl⟩⟩
  · obtain ⟨hult, husize, humoved, huother, ha⟩ := move_eq_ok hu
    obtain ⟨hvlt, hvsize, hvmoved, hvother, hb⟩ := move_eq_ok hv
    have hvbefore : counts₁.parents v = counts.parents v := huother v (Ne.symm huv)
    obtain ⟨b', counts₂, hv'⟩ : ∃ b' counts₂, direction.move v counts = .ok (b', counts₂) :=
      exists_move (by rwa [husize] at hvlt) (by
        have hroom := room_pos_of_move hv
        rwa [hvbefore] at hroom)
    obtain ⟨-, hsize₂, hmoved₂, hother₂, hb'⟩ := move_eq_ok hv'
    have hubefore : counts₂.parents u = counts.parents u := hother₂ u huv
    obtain ⟨a', counts₃, hu'⟩ : ∃ a' counts₃, direction.move u counts₂ = .ok (a', counts₃) :=
      exists_move (by rwa [hsize₂]) (by
        rw [hubefore]
        exact room_pos_of_move hu)
    obtain ⟨-, hsize₃, hmoved₃, hother₃, ha'⟩ := move_eq_ok hu'
    rw [hvbefore] at hvmoved hb
    rw [hubefore] at hmoved₃ ha'
    have hvafter : counts₂.parents v = counts'.parents v := moved_unique hmoved₂ hvmoved
    have huafter : counts₃.parents u = counts₁.parents u := moved_unique hmoved₃ humoved
    obtain rfl : counts₃ = counts' := by
      apply FanoutCounts.ext_parents
      · rw [hsize₃, hsize₂, hvsize, husize]
      · intro w
        by_cases hwu : w = u
        · rw [hwu, huafter, hvother u huv]
        · by_cases hwv : w = v
          · rw [hother₃ w hwu, hwv, hvafter]
          · rw [hother₃ w hwu, hother₂ w hwv, hvother w hwv, huother w hwu]
    refine ⟨a', b', counts₂, hv', hu', Or.inr ⟨huv, ?_, ?_⟩⟩
    · rw [ha', ha, huafter]
    · rw [hb', hb, hvafter]

end Direction

inductive Task where
  | enter (n : Nat)
  | cross (fanin : Option Edge)

/-- What comes of a task that was done: further tasks, the node passed if any, and the counts. -/
structure Yield where
  tasks : Multiset Task
  passed : Multiset Nat
  counts : FanoutCounts

namespace Task

/-- What a task yields, if it can be done. -/
def yield? (net : Network) (filter : EdgeFilter) (direction : Direction) :
    Task → FanoutCounts → Option Yield
  | .enter n, counts =>
    match net.site? n with
    | none => none
    | some ⟨.leaf, _⟩ => some ⟨0, 0, counts⟩
    | some ⟨.internal, fanins⟩ =>
      some ⟨(fanins : Multiset (Option Edge)).map .cross, {n}, counts⟩
  | .cross none, _ => none
  | .cross (some e), counts =>
    if filter.keeps e then
      match direction.move e.node counts with
      | .error _ => none
      | .ok (changed, counts) => some ⟨if changed then {.enter e.node} else 0, 0, counts⟩
    else some ⟨0, 0, counts⟩

variable {net : Network} {filter : EdgeFilter} {direction : Direction} {e : Edge} {n : Nat}
variable {counts counts' : FanoutCounts} {y y' : Yield}

/-- Entering a node leaves the counts alone and does not depend on them. -/
theorem yield?_enter (h : yield? net filter direction (.enter n) counts = some y) :
    y.counts = counts ∧ ∀ counts', yield? net filter direction (.enter n) counts' =
      some ⟨y.tasks, y.passed, counts'⟩ := by
  unfold yield? at h
  cases hsite : net.site? n with
  | none => simp [hsite] at h
  | some site =>
    obtain ⟨kind, fanins⟩ := site
    cases kind with
    | leaf =>
      simp only [hsite, Option.some.injEq] at h
      subst h
      exact ⟨rfl, fun counts' => by simp only [yield?, hsite]⟩
    | internal =>
      simp only [hsite, Option.some.injEq] at h
      subst h
      exact ⟨rfl, fun counts' => by simp only [yield?, hsite]⟩

/-- Crossing an edge does nothing if the filter drops it, and is one move otherwise. -/
theorem yield?_cross {fanin : Option Edge}
    (h : yield? net filter direction (.cross fanin) counts = some y) :
    ∃ e, fanin = some e ∧ (filter.keeps e = false ∧ y = ⟨0, 0, counts⟩ ∨
      filter.keeps e = true ∧ ∃ changed counts', direction.move e.node counts =
        .ok (changed, counts') ∧ y = ⟨if changed then {.enter e.node} else 0, 0, counts'⟩) := by
  cases fanin with
  | none => simp [yield?] at h
  | some e =>
    refine ⟨e, rfl, ?_⟩
    cases hkeep : filter.keeps e with
    | false =>
      simp only [yield?, hkeep, Bool.false_eq_true, if_false, Option.some.injEq] at h
      exact Or.inl ⟨rfl, h.symm⟩
    | true =>
      cases hmove : direction.move e.node counts with
      | error fault => simp [yield?, hkeep, hmove] at h
      | ok result =>
        obtain ⟨changed, counts'⟩ := result
        simp only [yield?, hkeep, hmove, if_true, Option.some.injEq] at h
        exact Or.inr ⟨rfl, changed, counts', rfl, h.symm⟩

theorem yield?_of_drops (hkeep : filter.keeps e = false) (counts : FanoutCounts) :
    yield? net filter direction (.cross (some e)) counts = some ⟨0, 0, counts⟩ := by
  simp [yield?, hkeep]

theorem yield?_of_keeps (hkeep : filter.keeps e = true) {changed : Bool}
    (hmove : direction.move e.node counts = .ok (changed, counts')) :
    yield? net filter direction (.cross (some e)) counts =
      some ⟨if changed then {.enter e.node} else 0, 0, counts'⟩ := by
  simp [yield?, hkeep, hmove]

/-- The exchange of neighbours: two tasks done one after the other can be done the other way round,
with the same yield together. -/
theorem yield?_comm {i j : Task} (hi : i.yield? net filter direction counts = some y)
    (hj : j.yield? net filter direction y.counts = some y') :
    ∃ z z', j.yield? net filter direction counts = some z ∧
      i.yield? net filter direction z.counts = some z' ∧ z'.counts = y'.counts ∧
      z.tasks + z'.tasks = y.tasks + y'.tasks ∧ z.passed + z'.passed = y.passed + y'.passed := by
  cases i with
  | enter n =>
    obtain ⟨hcounts, hall⟩ := yield?_enter hi
    rw [hcounts] at hj
    exact ⟨y', _, hj, hall _, rfl, add_comm _ _, add_comm _ _⟩
  | cross fanin =>
    cases j with
    | enter n =>
      obtain ⟨hcounts, hall⟩ := yield?_enter hj
      exact ⟨_, y, hall _, hi, hcounts.symm, add_comm _ _, add_comm _ _⟩
    | cross fanin' =>
      obtain ⟨e, rfl, ⟨hkeep, rfl⟩ | ⟨hkeep, a, counts₁, hmove, rfl⟩⟩ := yield?_cross hi
      · exact ⟨y', _, hj, yield?_of_drops hkeep _, rfl, add_comm _ _, add_comm _ _⟩
      · obtain ⟨e', rfl, ⟨hkeep', rfl⟩ | ⟨hkeep', b, counts₂, hmove', rfl⟩⟩ := yield?_cross hj
        · exact ⟨_, _, yield?_of_drops hkeep' _, hi, rfl, add_comm _ _, add_comm _ _⟩
        · obtain ⟨a', b', counts₃, h₃, h₄, hreports⟩ := Direction.move_comm hmove hmove'
          refine ⟨_, _, yield?_of_keeps hkeep' h₃, yield?_of_keeps hkeep h₄, rfl, ?_, rfl⟩
          rcases hreports with ⟨hnode, rfl, rfl⟩ | ⟨-, rfl, rfl⟩
          · dsimp only
            rw [hnode]
          · exact add_comm _ _

end Task

/-- Some order of the tasks does all of them. Starting from the given counts it passes the nodes
`M` and leaves the counts `counts'`. -/
inductive Settles (net : Network) (filter : EdgeFilter) (direction : Direction) :
    Multiset Task → FanoutCounts → (M : Multiset Nat) → (counts' : FanoutCounts) → Prop
  | done (counts : FanoutCounts) : Settles net filter direction 0 counts 0 counts
  | take {task : Task} {rest : Multiset Task} {counts counts' : FanoutCounts} {y : Yield}
      {M : Multiset Nat} (htask : task.yield? net filter direction counts = some y)
      (hrest : Settles net filter direction (y.tasks + rest) y.counts M counts') :
      Settles net filter direction (task ::ₘ rest) counts (y.passed + M) counts'

namespace Settles

variable {net : Network} {filter : EdgeFilter} {direction : Direction}
variable {tasks rest : Multiset Task} {task : Task} {M M' : Multiset Nat}
variable {counts counts' counts₁ : FanoutCounts}

theorem eq_of_zero (h : Settles net filter direction 0 counts M counts') :
    M = 0 ∧ counts' = counts := by
  generalize hzero : (0 : Multiset Task) = tasks at h
  cases h with
  | done => exact ⟨rfl, rfl⟩
  | take => exact absurd hzero (Multiset.zero_ne_cons)

/-- Of tasks that settle each can be done first, and the others settle to the same end. -/
theorem take_first (h : Settles net filter direction tasks counts M counts')
    (htasks : tasks = task ::ₘ rest) :
    ∃ y M', task.yield? net filter direction counts = some y ∧ M = y.passed + M' ∧
      Settles net filter direction (y.tasks + rest) y.counts M' counts' := by
  induction h generalizing rest with
  | done counts => exact absurd htasks Multiset.zero_ne_cons
  | @take other rest₁ counts counts' y M hother hrest ih =>
    rcases Multiset.cons_eq_cons.1 htasks with ⟨rfl, rfl⟩ | ⟨-, rest₂, rfl, rfl⟩
    · exact ⟨y, M, hother, rfl, hrest⟩
    · obtain ⟨y₁, M₁, htask, rfl, hsettles⟩ := ih (Multiset.add_cons _ _ _)
      obtain ⟨z, z', hz, hz', hcounts, htasks', hpassed⟩ := Task.yield?_comm hother htask
      refine ⟨z, z'.passed + M₁, hz, by rw [← add_assoc, ← add_assoc, hpassed], ?_⟩
      rw [Multiset.add_cons]
      refine .take hz' ?_
      rwa [hcounts, ← add_assoc, add_comm z'.tasks, htasks', add_comm y.tasks, add_assoc]

/-- Each task of those that settle can be done. -/
theorem exists_yield (h : Settles net filter direction tasks counts M counts')
    (htask : task ∈ tasks) : ∃ y, task.yield? net filter direction counts = some y := by
  obtain ⟨rest, rfl⟩ := Multiset.exists_cons_of_mem htask
  obtain ⟨y, -, hyield, -⟩ := h.take_first rfl
  exact ⟨y, hyield⟩

theorem present_of_enter (h : Settles net filter direction tasks counts M counts') {v : Nat}
    (hv : .enter v ∈ tasks) : net.Present v := by
  obtain ⟨y, hyield⟩ := h.exists_yield hv
  cases hsite : net.site? v with
  | none => simp [Task.yield?, hsite] at hyield
  | some site => exact ⟨site, hsite⟩

/-- Tasks that settle one after the other settle together. -/
theorem append (h : Settles net filter direction tasks counts M counts₁)
    (h' : Settles net filter direction rest counts₁ M' counts') :
    Settles net filter direction (tasks + rest) counts (M + M') counts' := by
  induction h with
  | done counts => simpa using h'
  | take htask hrest ih =>
    rw [Multiset.cons_add, add_assoc]
    refine .take htask ?_
    rw [← add_assoc]
    exact ih h'

end Settles

namespace Agenda

variable {net : Network} {filter : EdgeFilter} {direction : Direction} {a a' : Agenda}

def tasks (a : Agenda) : Multiset Task := a.waiting.map .enter + a.fanins.map .cross

/-- Crossing an edge on a trail yields the wait for its source, if that changed. -/
theorem yield?_cross_eq (net : Network) (fanin : Option Edge) (t : Trail) :
    Task.yield? net filter direction (.cross fanin) t.counts =
      (t.cross filter direction fanin).toOption.map fun r =>
        ⟨(await r.1 0).map .enter, 0, r.2.counts⟩ := by
  obtain ⟨passed, counts⟩ := t
  cases fanin with
  | none => rfl
  | some e =>
    cases hkeep : filter.keeps e with
    | false => simp [Task.yield?, Trail.cross, hkeep, Except.toOption]
    | true =>
      cases hmove : direction.move e.node counts with
      | error fault => simp [Task.yield?, Trail.cross, hkeep, hmove, Except.toOption]
      | ok result =>
        obtain ⟨changed, counts'⟩ := result
        cases changed <;> simp [Task.yield?, Trail.cross, hkeep, hmove, Except.toOption]

/-- A step does one task of the work left. -/
theorem Step.exists_yield (h : Step net filter direction a a') :
    ∃ task rest y, a.tasks = task ::ₘ rest ∧
      task.yield? net filter direction a.trail.counts = some y ∧ a'.tasks = y.tasks + rest ∧
      (a'.trail.passed : Multiset Nat) = y.passed + a.trail.passed ∧
      a'.trail.counts = y.counts := by
  cases h with
  | @skip n site waiting fanins trail hsite hkind =>
    obtain ⟨kind, edges⟩ := site
    subst hkind
    exact ⟨.enter n, waiting.map .enter + fanins.map .cross, ⟨0, 0, trail.counts⟩,
      by simp [tasks], by simp [Task.yield?, hsite], by simp [tasks], by simp, rfl⟩
  | @pass n site waiting fanins trail hsite hkind =>
    obtain ⟨kind, edges⟩ := site
    subst hkind
    refine ⟨.enter n, waiting.map .enter + fanins.map .cross,
      ⟨(edges : Multiset (Option Edge)).map .cross, {n}, trail.counts⟩,
      by simp [tasks], by simp [Task.yield?, hsite], ?_, by simp, rfl⟩
    simp only [tasks, Multiset.map_add]
    exact add_left_comm _ _ _
  | @cross fanin found waiting fanins trail trail' hcross =>
    have hpassed : trail'.passed = trail.passed := by
      rcases Trail.cross_eq_ok hcross with ⟨-, -, rfl⟩ | ⟨v, changed, counts, -, -, -, rfl⟩ <;> rfl
    refine ⟨.cross fanin, waiting.map .enter + fanins.map .cross, _, by simp [tasks],
      (yield?_cross_eq net fanin trail).trans (by rw [hcross]; rfl), ?_, by simp [hpassed], rfl⟩
    cases found <;> simp [tasks]

/-- Where a walk halts, some task cannot be done. -/
theorem Halted.exists_stuck {breakdown : Breakdown} (h : Halted net filter direction a breakdown) :
    ∃ task ∈ a.tasks, task.yield? net filter direction a.trail.counts = none := by
  obtain ⟨-, ⟨n, hn, hsite⟩ | ⟨fanin, hfanin, hcross⟩⟩ := h
  · refine ⟨.enter n, by simp [tasks, hn], ?_⟩
    cases hn : net.site? n with
    | none => simp [Task.yield?, hn]
    | some site => simp [Network.site, hn] at hsite
  · refine ⟨.cross fanin, by simp [tasks, hfanin], ?_⟩
    rw [yield?_cross_eq, hcross]
    rfl

variable {tasks rest : Multiset Task} {M : Multiset Nat} {counts counts' : FanoutCounts} {t : Trail}

/-- Steps that do all the work of an agenda settle it. -/
theorem Steps.settles (h : Steps net filter direction a ⟨0, 0, t⟩) :
    ∃ M, Settles net filter direction a.tasks a.trail.counts M t.counts ∧
      (t.passed : Multiset Nat) = M + a.trail.passed := by
  induction h using Relation.ReflTransGen.head_induction_on with
  | refl => exact ⟨0, .done t.counts, (zero_add _).symm⟩
  | head hstep _ ih =>
    obtain ⟨M, hsettles, hpassed⟩ := ih
    obtain ⟨task, rest, y, htasks, hyield, htasks', hpassed', hcounts⟩ := hstep.exists_yield
    rw [htasks', hcounts] at hsettles
    refine ⟨y.passed + M, ?_, ?_⟩
    · rw [htasks]
      exact .take hyield hsettles
    · rw [hpassed, hpassed', add_left_comm, add_assoc]

end Agenda

namespace Settles

variable {net : Network} {filter : EdgeFilter} {direction : Direction}
variable {rest : Multiset Task} {M : Multiset Nat} {counts counts' : FanoutCounts}

/-- Steps never spoil work that settles, and neither does other work beside it. -/
theorem of_steps {a a' : Agenda} (hsteps : Agenda.Steps net filter direction a a')
    (h : Settles net filter direction (a.tasks + rest) a.trail.counts M counts') :
    ∃ M', Settles net filter direction (a'.tasks + rest) a'.trail.counts M' counts' ∧
      (a'.trail.passed : Multiset Nat) + M' = a.trail.passed + M := by
  induction hsteps with
  | refl => exact ⟨M, h, rfl⟩
  | tail _ hstep ih =>
    obtain ⟨M₁, hsettles, hpassed⟩ := ih
    obtain ⟨task, rest₁, y, htasks, hyield, htasks', hpassed', hcounts⟩ := hstep.exists_yield
    rw [htasks, Multiset.cons_add] at hsettles
    obtain ⟨y', M', hyield', rfl, hrest⟩ := hsettles.take_first rfl
    obtain rfl : y = y' := Option.some.inj (hyield.symm.trans hyield')
    refine ⟨M', ?_, ?_⟩
    · rwa [htasks', hcounts, add_assoc]
    · rw [hpassed', ← hpassed, add_comm y.passed, add_assoc]

/-- Where the work from a root settles beside other work, the walk from the root ends in either
traversal, and the other work settles from the counts that the walk leaves. -/
theorem exists_walk {root : Nat}
    (h : Settles net filter direction (.enter root ::ₘ rest) counts M counts')
    (traversal : Traversal) :
    ∃ t M', walk net filter traversal direction root counts = .ok t ∧ M = t.passed + M' ∧
      Settles net filter direction rest t.counts M' counts' := by
  have hfollows := walk_follows net filter traversal direction root counts
  have hstart : Settles net filter direction
      ((⟨{root}, 0, ⟨[], counts⟩⟩ : Agenda).tasks + rest) counts M counts' := by
    simpa [Agenda.tasks] using h
  cases hwalk : walk net filter traversal direction root counts with
  | ok t =>
    rw [hwalk] at hfollows
    obtain ⟨M', hsettles, hpassed⟩ := hstart.of_steps hfollows
    refine ⟨t, M', rfl, ?_, ?_⟩
    · simpa using hpassed.symm
    · simpa [Agenda.tasks] using hsettles
  | error breakdown =>
    rw [hwalk] at hfollows
    obtain ⟨a, hsteps, hhalted⟩ := hfollows
    obtain ⟨M', hsettles, -⟩ := hstart.of_steps hsteps
    obtain ⟨task, hmem, hstuck⟩ := hhalted.exists_stuck
    obtain ⟨others, hothers⟩ := Multiset.exists_cons_of_mem hmem
    rw [hothers, Multiset.cons_add] at hsettles
    obtain ⟨y, -, hyield, -⟩ := hsettles.take_first rfl
    rw [hstuck] at hyield
    cases hyield

end Settles

section
variable {net : Network} {filter : EdgeFilter} {traversal : Traversal} {direction : Direction}
variable {root : Nat} {counts : FanoutCounts} {t : Trail}

/-- A walk that ends has settled the work from its root. -/
theorem settles_of_walk (h : walk net filter traversal direction root counts = .ok t) :
    Settles net filter direction {.enter root} counts t.passed t.counts := by
  have hsteps := walk_follows net filter traversal direction root counts
  rw [h] at hsteps
  obtain ⟨M, hsettles, hpassed⟩ := Agenda.Steps.settles hsteps
  obtain rfl : (t.passed : Multiset Nat) = M := by simpa using hpassed
  simpa [Agenda.tasks] using hsettles

/-- Both traversals of a walk end, or neither does. They pass the same nodes and leave the same
counts. -/
theorem exists_walk_of_walk (h : walk net filter traversal direction root counts = .ok t)
    (traversal' : Traversal) :
    ∃ t', walk net filter traversal' direction root counts = .ok t' ∧ t'.passed.Perm t.passed ∧
      t'.counts = t.counts := by
  obtain ⟨t', M', hwalk, hpassed, hrest⟩ := (settles_of_walk h).exists_walk traversal'
  obtain ⟨rfl, hcounts⟩ := hrest.eq_of_zero
  refine ⟨t', hwalk, Multiset.coe_eq_coe.1 ?_, hcounts.symm⟩
  rw [hpassed, add_zero]

end

end FanoutCone
