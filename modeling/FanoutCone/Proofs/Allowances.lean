import FanoutCone.Proofs.Coverage
import FanoutCone.Proofs.Expansions
import FanoutCone.Proofs.Queries

/-!
# Walks and collections end

A walk keeps no note of the nodes that it has seen, so that on a cycle nothing
tells it to stop. What stops it are the counts. A run of moves in one direction
takes a count between dead and alive once, and a node is passed when that
happens to it; the root is passed once more, since the walk begins with it. So a
walk passes each other node once at most and the root twice, whether it returns
or breaks off, and one step more than there are nodes is all that it needs. Any
larger allowance gives the same walk.

A collection marks a node before it goes below it, and goes below unmarked nodes
only.
-/
namespace FanoutCone

def expansions : Except Breakdown Trail → List Nat
  | .ok t => t.passed
  | .error breakdown => breakdown.passed

/-- Whether a walk has ended for another reason than its allowance. -/
def Ended {α : Type} (r : Except Breakdown α) : Prop :=
  ∀ breakdown, r = .error breakdown → breakdown.fault ≠ .exhausted

/-- What bounds a walk in a network of `n` nodes. -/
structure EndsWithin (n root : Nat) (r : Except Breakdown Trail) : Prop where
  ended : Ended r
  count_le : ∀ v, v ≠ root → (expansions r).count v ≤ 1
  count_root_le : (expansions r).count root ≤ 2
  length_le : (expansions r).length ≤ n + 1

section
variable {net : Network} {filter : EdgeFilter} {direction : Direction} {traversal : Traversal}
variable {root n : Nat} {counts : FanoutCounts} {t : Trail} {fanins : List (Option Edge)}

section Allowance

theorem not_ended_breakOff {α : Type} (t : Trail) :
    ¬ Ended (t.breakOff .exhausted : Except Breakdown α) := fun h => h _ rfl rfl

/-- Where the work below a fanin does not depend on the allowance, neither does that at all. -/
theorem crossEach_mono {below below' : Nat → Trail → Except Breakdown Trail}
    (hbelow : ∀ v t, Ended (below v t) → below' v t = below v t)
    (h : Ended (crossEach filter direction below fanins t)) :
    crossEach filter direction below' fanins t = crossEach filter direction below fanins t := by
  induction fanins generalizing t with
  | nil => rfl
  | cons fanin fanins ih =>
    unfold crossEach at h ⊢
    cases hcross : t.cross filter direction fanin with
    | error breakdown => rfl
    | ok result =>
      rw [hcross] at h
      obtain ⟨_ | v, t₁⟩ := result
      · exact ih h
      · dsimp only at h ⊢
        have hv : Ended (below v t₁) := by
          intro breakdown hv
          rw [hv] at h
          exact h breakdown rfl
        rw [hbelow v t₁ hv]
        cases hresult : below v t₁ with
        | error breakdown => rfl
        | ok t₂ =>
          rw [hresult] at h
          exact ih h

/-- A recursive walk that ended goes the same way if it may go deeper. -/
theorem descend_mono {depth depth' : Nat} (hdepth : depth ≤ depth')
    (h : Ended (descend net filter direction depth n t)) :
    descend net filter direction depth' n t = descend net filter direction depth n t := by
  induction depth generalizing depth' n t with
  | zero => exact absurd h (not_ended_breakOff t)
  | succ depth ih =>
    obtain ⟨depth', rfl⟩ := Nat.exists_eq_succ_of_ne_zero (by omega : depth' ≠ 0)
    unfold descend at h ⊢
    cases hsite : net.site n with
    | error fault => rfl
    | ok site =>
      rw [hsite] at h
      dsimp only at h ⊢
      cases hkind : site.kind with
      | leaf => rfl
      | internal =>
        rw [hkind] at h
        exact crossEach_mono (fun v t hv => ih (by omega) hv) h

/-- An iterative walk that ended goes the same way if it may take more steps. -/
theorem drain_mono {steps steps' : Nat} (hsteps : steps ≤ steps') {waiting : List Nat}
    (h : Ended (drain net filter direction steps waiting t)) :
    drain net filter direction steps' waiting t = drain net filter direction steps waiting t := by
  induction steps generalizing steps' waiting t with
  | zero =>
    cases waiting with
    | nil => cases steps' <;> rfl
    | cons n waiting => exact absurd h (not_ended_breakOff t)
  | succ steps ih =>
    obtain ⟨steps', rfl⟩ := Nat.exists_eq_succ_of_ne_zero (by omega : steps' ≠ 0)
    cases waiting with
    | nil => rfl
    | cons n waiting =>
      unfold drain at h ⊢
      cases hsite : net.site n with
      | error fault => rfl
      | ok site =>
        rw [hsite] at h
        dsimp only at h ⊢
        cases hkind : site.kind with
        | leaf =>
          rw [hkind] at h
          exact ih (by omega) h
        | internal =>
          rw [hkind] at h
          dsimp only at h ⊢
          cases hall : crossAll filter direction site.fanins waiting (t.pass n) with
          | error breakdown => rfl
          | ok result =>
            rw [hall] at h
            exact ih (by omega) h

end Allowance

theorem ended_walk (net : Network) (filter : EdgeFilter) (traversal : Traversal)
    (direction : Direction) (root : Nat) (counts : FanoutCounts) :
    Ended (walk net filter traversal direction root counts) :=
  fun _ => fault_ne_exhausted_of_walk

/-- Whether it returns or breaks off, a walk has passed no node before it was due. -/
theorem legal_expansions (net : Network) (filter : EdgeFilter) (traversal : Traversal)
    (direction : Direction) (root : Nat) (counts : FanoutCounts) :
    (Course.ofCounts net filter direction root counts).Legal
      (expansions (walk net filter traversal direction root counts)) := by
  cases hwalk : walk net filter traversal direction root counts with
  | ok t => exact (walk_eq_ok hwalk).1.legal
  | error breakdown =>
    have hfollows := walk_follows net filter traversal direction root counts
    rw [hwalk] at hfollows
    obtain ⟨a, hsteps, hpassed, -⟩ := hfollows
    obtain ⟨crossed, hcourse⟩ := Agenda.Steps.onCourse
      (c := .ofCounts net filter direction root counts) hsteps ⟨_, .start counts _ _ _ _⟩
    show Course.Legal _ breakdown.passed
    rw [hpassed]
    exact hcourse.legal

/-- A node falls due once, and the root once more. -/
theorem Course.Legal.count_le {c : Course} {passed : List Nat} (h : c.Legal passed) (v : Nat) :
    passed.count v ≤ (v == c.root).toNat + 1 :=
  (h.count_le_due v).trans (Nat.add_le_add_left (Bool.toNat_le _) _)

/-- In a network of `n` nodes no walk passes more than `n + 1`. -/
theorem Course.Legal.length_le {c : Course} {passed : List Nat} (h : c.Legal passed)
    (hclosed : c.net.Closed n) : passed.length ≤ n + 1 := by
  have hle : (passed : Multiset Nat) ≤ c.root ::ₘ Multiset.range n := by
    refine Multiset.le_iff_count.2 fun v => ?_
    rw [Multiset.coe_count]
    by_cases hv : v ∈ passed
    · have hlt : v < n := hclosed.lt_of_internal (h.internal_of_mem hv)
      have hrange : (Multiset.range n).count v = 1 :=
        Multiset.count_eq_one_of_mem (Multiset.nodup_range n) (Multiset.mem_range.2 hlt)
      have hcount := h.count_le v
      rw [Multiset.count_cons, hrange]
      by_cases hroot : v = c.root
      · simp only [hroot, beq_self_eq_true, Bool.toNat_true, if_true] at hcount ⊢
        omega
      · simp only [hroot, beq_eq_false_iff_ne.2 hroot, Bool.toNat_false, if_false] at hcount ⊢
        omega
    · rw [List.count_eq_zero_of_not_mem hv]
      exact Nat.zero_le _
  have hcard := Multiset.card_le_card hle
  simpa using hcard

/-- Every walk ends, and passes no node more often than it may. -/
theorem endsWithin_walk (hclosed : net.Closed n) (filter : EdgeFilter) (traversal : Traversal)
    (direction : Direction) (root : Nat) (counts : FanoutCounts) :
    EndsWithin n root (walk net filter traversal direction root counts) := by
  have hlegal := legal_expansions net filter traversal direction root counts
  refine ⟨ended_walk net filter traversal direction root counts, fun v hv => ?_, ?_,
    hlegal.length_le hclosed⟩
  · have hcount := hlegal.count_le v
    simpa [Course.ofCounts, beq_eq_false_iff_ne.2 hv] using hcount
  · have hcount := hlegal.count_le root
    simpa [Course.ofCounts] using hcount

/-- A configured walk does not run out of its allowance either, and counts the nodes that it has
passed. -/
theorem CountingWalk.run_ended (w : CountingWalk) (direction : Direction) (net : Network)
    (root : Nat) (s : Stores) :
    w.run direction net root s ≠ .error .exhausted ∧
      ∀ k s', w.run direction net root s = .ok (k, s') → k = (expansions
        (FanoutCone.walk net w.filter w.traversal direction root s.counts)).length := by
  refine ⟨fun h => ?_, fun k s' h => ?_⟩
  · have hended := ended_walk net w.filter w.traversal direction root s.counts
    obtain ⟨counts, marks⟩ := s
    unfold run at h
    dsimp only at h hended
    cases hwalk : FanoutCone.walk net w.filter w.traversal direction root counts with
    | error breakdown =>
      rw [hwalk] at h
      exact hended breakdown hwalk (Except.error.inj h)
    | ok t =>
      rw [hwalk] at h
      dsimp only at h
      split at h
      · cases hmark : marks.markAll t.passed with
        | ok marks' => simp [hmark] at h
        | error fault =>
          simp only [hmark, Except.error.injEq] at h
          exact Marks.markAll_ne_exhausted marks t.passed (by rw [hmark, h])
      · cases h
  · obtain ⟨t, hwalk, rfl, -⟩ := run_eq_ok h
    rw [hwalk]
    rfl

end

namespace Collection

variable {c : Collection} {root : Nat} {p p' : Progress} {l : List Nat}
variable {fanins : List (Option Edge)} {marks : Marks}

/-- The nodes that an exploration goes below were not marked before and are marked after. It goes
below each of them once. -/
theorem Expands.nodup (h : c.Expands fanins p l p') :
    l.Nodup ∧ ∀ v ∈ l, p.marks.isMarked v = false ∧ p'.marks.isMarked v = true := by
  induction h with
  | done p => exact ⟨List.nodup_nil, fun v hv => absurd hv List.not_mem_nil⟩
  | @pass e fanins p p₁ p₂ l hmeet hrest ih =>
    obtain ⟨hnodup, hmarks⟩ := ih
    exact ⟨hnodup, fun v hv =>
      ⟨(meet_eq_ok hmeet).grows.fresh (hmarks v hv).1, (hmarks v hv).2⟩⟩
  | @expand e site fanins p p₁ p₂ p₃ l l' hmeet hsite hbelow hrest ihbelow ihrest =>
    obtain ⟨hnodup, hmarks⟩ := ihbelow
    obtain ⟨hnodup', hmarks'⟩ := ihrest
    have hmet := meet_eq_ok hmeet
    have hfresh : p.marks.isMarked e.node = false := (hmet.below_iff.1 rfl).1
    have hopened : p₁.marks.isMarked e.node = true :=
      hmet.isMarked_iff.2 (Or.inr ⟨rfl, Or.inl rfl⟩)
    have hrest' : ∀ v, p₂.marks.isMarked v = true → p₃.marks.isMarked v = true :=
      hrest.explores.grows.marked
    have hlater : ∀ v ∈ l', p₂.marks.isMarked v = false := fun v hv => (hmarks' v hv).1
    refine ⟨List.nodup_cons.2 ⟨?_, hnodup.append hnodup' fun v hv hv' => ?_⟩, fun v hv => ?_⟩
    · rw [List.mem_append]
      rintro (hv | hv)
      · rw [(hmarks _ hv).1] at hopened
        cases hopened
      · have hmarked := hbelow.explores.grows.marked _ hopened
        rw [hlater _ hv] at hmarked
        cases hmarked
    · have hmarked := (hmarks v hv).2
      rw [hlater v hv'] at hmarked
      cases hmarked
    · rcases List.mem_cons.1 hv with rfl | hv
      · exact ⟨hfresh, hrest' _ (hbelow.explores.grows.marked _ hopened)⟩
      · rcases List.mem_append.1 hv with hv | hv
        · exact ⟨hmet.grows.fresh (hmarks v hv).1, hrest' v (hmarks v hv).2⟩
        · exact ⟨hmet.grows.fresh (hbelow.explores.grows.fresh (hlater v hv)), (hmarks' v hv).2⟩

/-- A whole collection goes below no node twice, whatever was marked before. -/
theorem Opens.nodup (h : c.Opens root marks l p) : l.Nodup := by
  cases h with
  | stay hmeet => exact List.nodup_nil
  | expand hmeet hsite hbelow =>
    obtain ⟨hnodup, hmarks⟩ := hbelow.nodup
    refine List.nodup_cons.2 ⟨fun hv => ?_, hnodup⟩
    have hopened := (meet_eq_ok hmeet).isMarked_iff.2 (Or.inr ⟨rfl, Or.inl rfl⟩)
    rw [(hmarks root hv).1] at hopened
    cases hopened

end Collection

/-- Walks and collections end. Take a network of `n` nodes whose fanins are all in range, cyclic or
not, with any counts and marks, and any root. A dereference or reference by any edges, in either
traversal and labelling or not, returns or breaks off after passing each node other than the root
once at most and the root twice, so no more than `n + 1` in all; it never stops for want of steps,
and goes the same way if it is allowed more. A collection in either traversal, with any use of the
boundary and any cut limit, ends and goes below no node twice. -/
theorem walks_and_collections_end {net : Network} {n : Nat} {s : Stores} (hclosed : net.Closed n)
    (hcounts : n ≤ s.counts.size) (hmarks : n ≤ s.marks.size) (root : Nat) :
    (∀ (w : CountingWalk) (direction : Direction),
      EndsWithin n root (walk net w.filter w.traversal direction root s.counts) ∧
      w.run direction net root s ≠ .error .exhausted ∧
      ∀ k s', w.run direction net root s = .ok (k, s') →
        k = (expansions (walk net w.filter w.traversal direction root s.counts)).length) ∧
    (∀ filter direction allowance, s.counts.size < allowance →
      descend net filter direction allowance root ⟨[], s.counts⟩ =
        walk net filter .recursive direction root s.counts ∧
      drain net filter direction allowance [root] ⟨[], s.counts⟩ =
        walk net filter .iterative direction root s.counts) ∧
    ∀ use limit traversal, net.Present root → ∃ opened found marks,
      Collection.logRun ⟨net, s.counts, use, limit⟩ traversal root s.marks =
        .ok (opened, found, marks) ∧
      collectFrom use limit traversal net root s = .ok (found, ⟨s.counts, marks⟩) ∧
      opened.Nodup := by
  refine ⟨fun w direction => ⟨?_, w.run_ended direction net root s⟩,
    fun filter direction allowance hless => ⟨?_, ?_⟩, fun use limit traversal hroot => ?_⟩
  · exact endsWithin_walk hclosed w.filter w.traversal direction root s.counts
  · exact descend_mono hless (ended_walk net filter .recursive direction root s.counts)
  · exact drain_mono hless (ended_walk net filter .iterative direction root s.counts)
  · obtain ⟨found, s', hcollect, -⟩ := exists_collectFrom use limit traversal
      (hclosed.mono hcounts) (hclosed.mono hmarks) hroot
    obtain ⟨opened, p, hlog, hopens, -, rfl⟩ := collectFrom_opens hcollect
    exact ⟨opened, found, p.marks, hlog, hcollect, hopens.nodup⟩

/-- Two gates that read each other and have no other parents. The root dies of its own cycle and is
passed a second time, and then would take a parent that the other gate no longer has. -/
theorem walks_and_collections_end_feedback :
    expansions (walk (FaninTable.networkOf ConeQuery.feedback.rows) .all .recursive .dereference 0
        ⟨#[1, 2, 1]⟩) = [0, 1, 0] ∧
      EndsWithin 3 0 (walk (FaninTable.networkOf ConeQuery.feedback.rows) .all .recursive
        .dereference 0 ⟨#[1, 2, 1]⟩) ∧
      descend (FaninTable.networkOf ConeQuery.feedback.rows) .all .dereference 1000 0
          ⟨[], ⟨#[1, 2, 1]⟩⟩ =
        walk (FaninTable.networkOf ConeQuery.feedback.rows) .all .recursive .dereference 0
          ⟨#[1, 2, 1]⟩ ∧
      ∃ opened found marks, Collection.logRun
          ⟨FaninTable.networkOf ConeQuery.feedback.rows, ⟨#[1, 2, 1]⟩, .ignored, some 1⟩ .iterative
          0 ConeQuery.feedback.stores.marks = .ok (opened, found, marks) ∧ opened.Nodup := by
  have hclosed : (FaninTable.networkOf ConeQuery.feedback.rows).Closed 3 :=
    FaninTable.closed_networkOf (by decide)
  obtain ⟨hwalks, hallowances, hcollections⟩ := @walks_and_collections_end _ 3
    ⟨⟨#[1, 2, 1]⟩, ConeQuery.feedback.stores.marks⟩ hclosed (by decide) (by decide) 0
  obtain ⟨opened, found, marks, hlog, -, hnodup⟩ :=
    hcollections .ignored (some 1) .iterative ⟨_, rfl⟩
  exact ⟨by rfl, (hwalks {} .dereference).1, (hallowances .all .dereference 1000 (by decide)).1,
    opened, found, marks, hlog, hnodup⟩

end FanoutCone
