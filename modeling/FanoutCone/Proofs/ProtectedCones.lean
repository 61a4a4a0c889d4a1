import FanoutCone.Proofs.LaminarCones

/-!
# Protected nodes

A node is protected by one parent more, for the time of a query. It is then no
longer free of fanout, and so is nothing that is reached through it: what is left
of the cone are the nodes that no protected node lies above, on any path of
fanins from the root.

Only whether a count is zero tells a collection where to end, and how often a
node is protected does not matter for that, nor in which order. So the answer,
as well as the marks that are left, depends on the set of protected nodes.

While it is protected, a node has to have its parents counted as well as the ones
that it gets. A node with too many breaks the query off.
-/
namespace FanoutCone

namespace Network

/-- Whether no node of `leaves` but the root lies on a path of fanins from the root to `v`, of which
`v` is a part. -/
def Unprotected (net : Network) (leaves : List Nat) (root v : Nat) : Prop :=
  ∀ w ∈ leaves, w ≠ root →
    ¬ (Relation.ReflTransGen net.Reads root w ∧ Relation.ReflTransGen net.Reads w v)

variable {net : Network} {filter : EdgeFilter} {ext ext' : Nat → Nat} {root v w : Nat}
variable {leaves : List Nat} {S : Set Nat}

theorem Unprotected.of_reads {u : Nat} (h : net.Unprotected leaves root v)
    (hread : net.Reads u v) : net.Unprotected leaves root u :=
  fun w hw hne hbetween => h w hw hne ⟨hbetween.1, hbetween.2.tail hread⟩

namespace FanoutFree

/-- Parents outside can be taken away. -/
theorem of_ext (hS : net.FanoutFree filter ext' root S) (h : ∀ v, ext' v = 0 → ext v = 0) :
    net.FanoutFree filter ext root S where
  internal := hS.internal
  root_mem := hS.root_mem
  unexported v hv hne := h v (hS.unexported v hv hne)
  consumed := hS.consumed
  enclosed := hS.enclosed

theorem mem_of_reads {u : Nat} (hS : net.FanoutFree filter ext root S) (hv : v ∈ S)
    (hne : v ≠ root) (hread : net.Reads u v) : u ∈ S := by
  obtain ⟨e, hconsumes, hnode⟩ := reads_iff_consumes.1 hread
  exact (hS.enclosed v hv hne u e hconsumes hnode).2

/-- In an acyclic network all nodes of the set can be reached from its root. -/
theorem reachable (hwf : WellFounded net.Reads) (hS : net.FanoutFree filter ext root S)
    (hv : v ∈ S) : Relation.ReflTransGen net.Reads root v := by
  induction v using hwf.induction with
  | h v ih =>
    by_cases hne : v = root
    · rw [hne]
    · obtain ⟨u, e, hconsumes, hnode⟩ := hS.consumed v hv hne
      have hread : net.Reads u v := reads_iff_consumes.2 ⟨e, hconsumes, hnode⟩
      exact (ih u hread (hS.mem_of_reads hv hne hread)).tail hread

/-- A path of fanins that ends in the set stays in it, going up, until it meets the root. -/
theorem mem_or_reaches (hS : net.FanoutFree filter ext root S) (hv : v ∈ S)
    (hpath : Relation.ReflTransGen net.Reads w v) :
    w ∈ S ∨ Relation.ReflTransGen net.Reads w root := by
  induction hpath using Relation.ReflTransGen.head_induction_on with
  | refl => exact Or.inl hv
  | @head a b hread hpath ih =>
    rcases ih with hb | hroot
    · by_cases hne : b = root
      · rw [← hne]
        exact Or.inr (.single hread)
      · exact Or.inl (hS.mem_of_reads hb hne hread)
    · exact Or.inr (.head hread hroot)

/-- With parents outside for the protected nodes, the greatest set keeps the root and the nodes
that are unprotected. -/
theorem isGreatest_unprotected {M : Set Nat} (leaves : List Nat) (hwf : WellFounded net.Reads)
    (hacyclic : net.Acyclic) (hM : IsGreatest {S | net.FanoutFree filter ext root S} M)
    (hext : ∀ v, ext' v = 0 ↔ ext v = 0 ∧ v ∉ leaves) :
    IsGreatest {S | net.FanoutFree filter ext' root S}
      {v | v = root ∨ v ∈ M ∧ net.Unprotected leaves root v} := by
  have hsub : ∀ v, v = root ∨ v ∈ M ∧ net.Unprotected leaves root v → v ∈ M := by
    rintro v (rfl | ⟨hv, -⟩)
    · exact hM.1.root_mem
    · exact hv
  constructor
  · refine ⟨fun v hv => hM.1.internal v (hsub v hv), Or.inl rfl, fun v hv hne => ?_,
      fun v hv hne => hM.1.consumed v (hsub v hv) hne, fun v hv hne u e hconsumes hnode => ?_⟩
    · obtain ⟨hvM, hunprotected⟩ := hv.resolve_left hne
      refine (hext v).2 ⟨hM.1.unexported v hvM hne, fun hleaf => ?_⟩
      exact hunprotected v hleaf hne ⟨hM.1.reachable hwf hvM, .refl⟩
    · obtain ⟨hvM, hunprotected⟩ := hv.resolve_left hne
      obtain ⟨hkeep, hu⟩ := hM.1.enclosed v hvM hne u e hconsumes hnode
      exact ⟨hkeep, Or.inr ⟨hu, hunprotected.of_reads (reads_iff_consumes.2 ⟨e, hconsumes, hnode⟩)⟩⟩
  · intro S hS v hv
    refine or_iff_not_imp_left.2 fun _ =>
      ⟨hM.2 (hS.of_ext fun v hv => ((hext v).1 hv).1) hv, fun w hw hne hbetween => ?_⟩
    rcases hS.mem_or_reaches hv hbetween.2 with hwS | hroot
    · exact ((hext w).1 (hS.unexported w hwS hne)).2 hw
    · rcases Relation.reflTransGen_iff_eq_or_transGen.1 hroot with heq | hbelow
      · exact hne heq.symm
      · exact hacyclic root (Relation.TransGen.trans_right hbetween.1 hbelow)

end FanoutFree

end Network

namespace Collection

variable {net : Network} {counts counts' : FanoutCounts} {use : BoundaryUse} {limit : Option Nat}

/-- Of the counts only their number and the zeros of internal nodes matter at a boundary. -/
theorem isBoundary_congr (hsize : counts'.size = counts.size)
    (hzero : ∀ v, net.Internal v → (counts'.parents v = 0 ↔ counts.parents v = 0))
    (atRoot : Bool) (n : Nat) :
    (⟨net, counts', use, limit⟩ : Collection).isBoundary atRoot n =
      (⟨net, counts, use, limit⟩ : Collection).isBoundary atRoot n := by
  unfold isBoundary
  dsimp only
  cases atRoot with
  | true => rfl
  | false =>
    cases hleaf : net.isLeaf n with
    | error fault => rfl
    | ok leaf =>
      obtain ⟨site, hsite, rfl⟩ := map_eq_ok_iff.1 hleaf
      cases hkind : site.kind with
      | leaf => rfl
      | internal =>
        have hiff := hzero n ⟨site, Network.site_eq_ok hsite, hkind⟩
        by_cases hn : n < counts.size
        · have hpos : decide (0 < counts'.parents n) = decide (0 < counts.parents n) :=
            decide_eq_decide.2 (by omega)
          have hcount' := FanoutCounts.count_of_lt (hsize ▸ hn : n < counts'.size)
          rw [FanoutCounts.count_of_lt hn, hcount']
          simp only [ok_bind, hpos]
        · have habsent : ∀ counts : FanoutCounts, ¬ n < counts.size →
              counts.count n = .error (.absentNode n) := fun counts hn => by
            have hn' : ¬ n < counts.entries.size := hn
            simp [FanoutCounts.count, hn']
          rw [habsent counts hn, habsent counts' (by rwa [hsize])]

theorem meet_congr (hsize : counts'.size = counts.size)
    (hzero : ∀ v, net.Internal v → (counts'.parents v = 0 ↔ counts.parents v = 0))
    (atRoot : Bool) (n : Nat) (p : Progress) :
    (⟨net, counts', use, limit⟩ : Collection).meet atRoot n p =
      (⟨net, counts, use, limit⟩ : Collection).meet atRoot n p := by
  have hclass : (⟨net, counts', use, limit⟩ : Collection).classify atRoot n p =
      (⟨net, counts, use, limit⟩ : Collection).classify atRoot n p := by
    unfold classify
    rw [isBoundary_congr hsize hzero]
    rfl
  rw [meet_eq, meet_eq, hclass]
  rfl

theorem visit_congr (hsize : counts'.size = counts.size)
    (hzero : ∀ v, net.Internal v → (counts'.parents v = 0 ↔ counts.parents v = 0))
    (depth : Nat) (atRoot : Bool) (n : Nat) (p : Progress) :
    (⟨net, counts', use, limit⟩ : Collection).visit depth atRoot n p =
      (⟨net, counts, use, limit⟩ : Collection).visit depth atRoot n p := by
  induction depth generalizing atRoot n p with
  | zero => rfl
  | succ depth ih =>
    have hbelow : (⟨net, counts', use, limit⟩ : Collection).visit depth false =
        (⟨net, counts, use, limit⟩ : Collection).visit depth false :=
      funext₂ fun n p => ih false n p
    rw [visit_succ, visit_succ, meet_congr hsize hzero, hbelow]

/-- Over counts with the same zeros the same is collected, in any traversal. -/
theorem run_congr (hsize : counts'.size = counts.size)
    (hzero : ∀ v, net.Internal v → (counts'.parents v = 0 ↔ counts.parents v = 0))
    (traversal traversal' : Traversal) (root : Nat) (marks : Marks) :
    (⟨net, counts', use, limit⟩ : Collection).run traversal' root marks =
      (⟨net, counts, use, limit⟩ : Collection).run traversal root marks := by
  rw [run_eq_recursive, run_eq_recursive ⟨net, counts, use, limit⟩ traversal]
  unfold run
  dsimp only
  rw [visit_congr hsize hzero]

end Collection

section
variable {net : Network} {counts raised : FanoutCounts} {marks : Marks} {ext : Nat → Nat}
variable {root : Nat} {leaves : List Nat} {traversal : Traversal} {t : Trail}

/-- What a protected cone is: what is collected over the counts that the dereference has left. All
counts are restored. -/
theorem protectedCone_of_walk {found : Cone} {marks' : Marks} (hroot : net.Internal root)
    (hclosed : net.Closed counts.size) (hraised : counts.incrementAll leaves = .ok raised)
    (hwalk : walk net .all traversal .dereference root raised = .ok t)
    (hrun : Collection.run ⟨net, t.counts, .listed, none⟩ traversal root marks =
      .ok (found, marks')) :
    protectedCone leaves traversal net root ⟨counts, marks⟩ =
      .ok (found.nodes, ⟨counts, marks'⟩) := by
  have hclosed' : net.Closed raised.size := by
    rwa [(FanoutCounts.incrementAll_eq_ok hraised).1]
  obtain ⟨t', hback, hperm, hrestored⟩ := walk_balanced hclosed' hroot.present hwalk traversal
  have hlowered := FanoutCounts.decrementAll_of_incrementAll hraised
  simp [protectedCone, Network.isLeaf_eq_false_iff.2 hroot, Stores.updateCounts, hraised,
    CountingWalk.excursion, CountingWalk.dereference, CountingWalk.reference, CountingWalk.run,
    hwalk, collectFrom, hrun, hback, hrestored, hperm.length_eq, hlowered]

/-- Protection adds parents outside the structure. -/
theorem Network.Consistent.incrementAll (h : net.Consistent counts ext)
    (hraised : counts.incrementAll leaves = .ok raised) :
    net.Consistent raised fun v => ext v + leaves.count v := by
  obtain ⟨hsize, hparents⟩ := FanoutCounts.incrementAll_eq_ok hraised
  intro v hv
  rw [hparents v, h v hv, hsize, Nat.add_assoc]

/-- What a query with protected nodes comes to: what its dereference has left, and what is collected
there. -/
structure ProtectedRun (net : Network) (ext : Nat → Nat) (counts : FanoutCounts) (marks : Marks)
    (leaves : List Nat) (traversal : Traversal) (root : Nat) (t : Trail) (found : Cone)
    (marks' : Marks) : Prop where
  size_eq : t.counts.size = counts.size
  moved : ∀ v, t.counts.parents v + net.uses .all t.passed v = counts.parents v + leaves.count v
  internal : ∀ v ∈ t.passed, net.Internal v
  nodup : t.passed.Nodup
  greatest : IsGreatest {S | net.FanoutFree .all (fun v => ext v + leaves.count v) root S}
    {v | v ∈ t.passed}
  run_eq : Collection.run ⟨net, t.counts, .listed, none⟩ traversal root marks = .ok (found, marks')
  perm : found.nodes.Perm t.passed
  query_eq : protectedCone leaves traversal net root ⟨counts, marks⟩ =
    .ok (found.nodes, ⟨counts, marks'⟩)

/-- Over stores that fit, such a query returns. -/
theorem Network.Fits.exists_protectedRun (h : net.Fits ext ⟨counts, marks⟩)
    (hroot : net.Internal root) (hleaves : ∀ v ∈ leaves, v < counts.size)
    (hroom : counts.RoomFor leaves) (traversal : Traversal) :
    ∃ t found marks', ProtectedRun net ext counts marks leaves traversal root t found marks' := by
  have hclosed : net.Closed counts.size := h.counts
  obtain ⟨raised, hraised⟩ := FanoutCounts.exists_incrementAll hleaves hroom
  obtain ⟨hsize, hparents⟩ := FanoutCounts.incrementAll_eq_ok hraised
  have hclosed' : net.Closed raised.size := by rwa [hsize]
  have hconsistent := h.consistent.incrementAll hraised
  have haccounted := hconsistent.accounted hclosed'
  obtain ⟨t, hwalk⟩ :=
    exists_walk_of_accounted haccounted hclosed' h.acyclic hroot.present .all traversal
  obtain ⟨houtcome, hmoved, hsize'⟩ := walk_eq_ok hwalk
  obtain ⟨found, marks', hrun⟩ :=
    Collection.exists_run (c := ⟨net, t.counts, .listed, none⟩) (by rwa [hsize']) h.marks
      hroot.present traversal
  have hcollect : collectFrom .listed none traversal net root ⟨t.counts, marks⟩ =
      .ok (found, ⟨t.counts, marks'⟩) := by simp [collectFrom, hrun]
  have hbounded : marks.Bounded := h.bounded
  have hperm : found.nodes.Perm t.passed :=
    collectFrom_perm_passed (s := ⟨t.counts, marks⟩) haccounted hclosed' h.acyclic hroot hwalk rfl
      hbounded hcollect
  exact ⟨t, found, marks', {
    size_eq := hsize'.trans hsize
    moved := fun v => (hmoved v).trans (hparents v)
    internal := fun v hv => houtcome.legal.internal_of_mem hv
    nodup := houtcome.legal.nodup h.acyclic
    greatest := isGreatest_passed hconsistent hclosed' h.acyclic hroot hwalk
    run_eq := hrun
    perm := hperm
    query_eq := protectedCone_of_walk hroot hclosed hraised hwalk hrun }⟩

namespace ProtectedRun

variable {leaves' : List Nat} {traversal' : Traversal} {t' : Trail} {found found' : Cone}
variable {marks' marks'' : Marks}

/-- The same nodes are passed whenever the same nodes are protected. -/
theorem passed_perm (h : ProtectedRun net ext counts marks leaves traversal root t found marks')
    (h' : ProtectedRun net ext counts marks leaves' traversal' root t' found' marks'')
    (hsame : ∀ v, v ∈ leaves' ↔ v ∈ leaves) : t'.passed.Perm t.passed := by
  have hcount : ∀ v, ext v + leaves'.count v = 0 ↔ ext v + leaves.count v = 0 := by
    intro v
    simp only [Nat.add_eq_zero_iff, List.count_eq_zero, hsame v]
  have hsets : {S | net.FanoutFree .all (fun v => ext v + leaves'.count v) root S} =
      {S | net.FanoutFree .all (fun v => ext v + leaves.count v) root S} :=
    Set.ext fun S => ⟨fun hS => hS.of_ext fun v => (hcount v).1,
      fun hS => hS.of_ext fun v => (hcount v).2⟩
  have hgreatest := h'.greatest
  rw [hsets] at hgreatest
  have hpassed := hgreatest.unique h.greatest
  exact (List.perm_ext_iff_of_nodup h'.nodup h.nodup).2 fun v => Set.ext_iff.1 hpassed v

/-- The dereferences leave the same nodes dead, so the same is collected. -/
theorem found_eq (haccounted : net.Accounted counts) (hclosed : net.Closed counts.size)
    (h : ProtectedRun net ext counts marks leaves traversal root t found marks')
    (h' : ProtectedRun net ext counts marks leaves' traversal' root t' found' marks'')
    (hsame : ∀ v, v ∈ leaves' ↔ v ∈ leaves) : found' = found ∧ marks'' = marks' := by
  have huses : ∀ v, net.uses .all t'.passed v = net.uses .all t.passed v := by
    intro v
    rw [Multiset.coe_eq_coe.2 (h.passed_perm h' hsame)]
  have hzero : ∀ v, net.Internal v → (t'.counts.parents v = 0 ↔ t.counts.parents v = 0) := by
    intro v _
    have hle : net.uses .all t.passed v ≤ counts.parents v :=
      haccounted.uses_le hclosed h.nodup h.internal v
    have hcount : leaves'.count v = 0 ↔ leaves.count v = 0 := by
      simp only [List.count_eq_zero, hsame v]
    have hmoved := h.moved v
    have hmoved' := h'.moved v
    rw [huses v] at hmoved'
    omega
  have hrun : Collection.run ⟨net, t'.counts, .listed, none⟩ traversal' root marks =
      Collection.run ⟨net, t.counts, .listed, none⟩ traversal root marks :=
    Collection.run_congr (h'.size_eq.trans h.size_eq.symm) hzero traversal traversal' root marks
  rw [h.run_eq, h'.run_eq] at hrun
  exact Prod.mk.inj (Except.ok.inj hrun)

end ProtectedRun

end

/-- The outcome of a query with protected nodes. Over stores that fit an acyclic network, for a root
with a cone, any list of protected nodes in range that each can get as many parents more as the list
names it, and either traversal, the query returns and restores every count. It lists, once each, the
root and those nodes of the root's cone that no protected node but the root lies above or is equal
to, so no protected node but the root itself. Neither the order nor the multiplicity of the
protected nodes changes what is returned, nor does the traversal. -/
theorem protectedCone_outcome {net : Network} {ext : Nat → Nat} {s : Stores} {root : Nat}
    {leaves : List Nat} (hfits : net.Fits ext s) (hroot : net.HasCone root)
    (hleaves : ∀ v ∈ leaves, v < s.counts.size) (hroom : s.counts.RoomFor leaves)
    (traversal : Traversal) :
    ∃ nodes s' found s₁,
      protectedCone leaves traversal net root s = .ok (nodes, s') ∧ s'.counts = s.counts ∧
      maximumCone { traversal := traversal } net root s = .ok (found, s₁) ∧
      nodes.Nodup ∧
      (∀ v, v ∈ nodes ↔ v = root ∨ v ∈ found.nodes ∧ net.Unprotected leaves root v) ∧
      (∀ w ∈ leaves, w ≠ root → w ∉ nodes) ∧
      ∀ leaves' traversal', (∀ v, v ∈ leaves' ↔ v ∈ leaves) → s.counts.RoomFor leaves' →
        protectedCone leaves' traversal' net root s = .ok (nodes, s') := by
  obtain ⟨counts, marks⟩ := s
  have hinternal := hroot.internal
  have hwf := hfits.counts.wellFounded_reads hfits.acyclic
  obtain ⟨t, cone, marks', hprotected⟩ :=
    hfits.exists_protectedRun hinternal hleaves hroom traversal
  obtain ⟨found, s₁, hfound, -, hgreatest⟩ :=
    hfits.exists_isGreatest { traversal := traversal } hroot rfl
  have hunprotected := Network.FanoutFree.isGreatest_unprotected leaves hwf hfits.acyclic
    hgreatest fun v => Nat.add_eq_zero_iff.trans (and_congr_right' List.count_eq_zero)
  have hmem : ∀ v, v ∈ cone.nodes ↔ v = root ∨ v ∈ found.nodes ∧ net.Unprotected leaves root v :=
    fun v => hprotected.perm.mem_iff.trans
      (Set.ext_iff.1 (hprotected.greatest.unique hunprotected) v)
  refine ⟨cone.nodes, _, found, s₁, hprotected.query_eq, rfl, hfound,
    hprotected.perm.nodup_iff.2 hprotected.nodup, hmem, fun w hw hne hmemw => ?_,
    fun leaves' traversal' hsame hroom' => ?_⟩
  · obtain ⟨hwfound, hwfree⟩ := ((hmem w).1 hmemw).resolve_left hne
    exact hwfree w hw hne ⟨hgreatest.1.reachable hwf hwfound, .refl⟩
  · obtain ⟨t', cone', marks'', hprotected'⟩ := hfits.exists_protectedRun hinternal
      (fun v hv => hleaves v ((hsame v).1 hv)) hroom' traversal'
    have haccounted := hfits.consistent.accounted hfits.counts
    obtain ⟨rfl, rfl⟩ := hprotected.found_eq haccounted hfits.counts hprotected' hsame
    exact hprotected'.query_eq

/-- A gate over two gates that share a third, in one case next to a leaf. -/
def forked : FaninTable :=
  .ofRows [(.leaf, []), (.internal, [⟨0, false⟩, ⟨0, true⟩]), (.internal, [⟨1, false⟩, ⟨0, true⟩]),
    (.internal, [⟨0, false⟩, ⟨1, true⟩]), (.internal, [⟨2, false⟩, ⟨3, true⟩])] [4, 2, 1, 1, 1]

/-- The shared gate lies below the protected one and stays out, though its other parent is in. The
root and the leaf are protected to no effect. -/
theorem protectedCone_outcome_forked :
    ∃ s' s₁,
      protectedCone [2, 4, 0, 2] .iterative (FaninTable.networkOf forked.rows) 4 forked.stores =
        .ok ([3, 4], s') ∧
      s'.counts = forked.stores.counts ∧
      maximumCone { traversal := .iterative } (FaninTable.networkOf forked.rows) 4 forked.stores =
        .ok (⟨[1, 2, 3, 4], [0]⟩, s₁) ∧
      (∀ v, v ∈ [3, 4] ↔ v = 4 ∨ v ∈ [1, 2, 3, 4] ∧
        (FaninTable.networkOf forked.rows).Unprotected [2, 4, 0, 2] 4 v) ∧
      protectedCone [0, 2, 4] .recursive (FaninTable.networkOf forked.rows) 4 forked.stores =
        .ok ([3, 4], s') := by
  have hclosed : (FaninTable.networkOf forked.rows).Closed 5 :=
    FaninTable.closed_networkOf (by decide)
  have hfits : (FaninTable.networkOf forked.rows).Fits (fun v => if v = 4 then 1 else 0)
      forked.stores := by
    refine ⟨hclosed, hclosed, Marks.bounded_empty.grow 5,
      FaninTable.acyclic_networkOf (by decide), fun v hv => ?_⟩
    have hlt := hclosed.lt_of_present hv
    interval_cases v <;> rfl
  obtain ⟨nodes, s', found, s₁, hnodes, hcounts, hfound, -, hmem, -, hsame⟩ :=
    @protectedCone_outcome (FaninTable.networkOf forked.rows) _ forked.stores 4 [2, 4, 0, 2] hfits
      ⟨_, rfl, rfl⟩ (by decide) (by decide) .iterative
  have hruns : protectedCone [2, 4, 0, 2] .iterative (FaninTable.networkOf forked.rows) 4
      forked.stores = .ok ([3, 4], ⟨forked.stores.counts, ⟨2, #[2, 2, 2, 2, 2]⟩⟩) := by rfl
  have hmaximum : maximumCone { traversal := .iterative } (FaninTable.networkOf forked.rows) 4
      forked.stores = .ok (⟨[1, 2, 3, 4], [0]⟩, ⟨forked.stores.counts, ⟨2, #[2, 2, 2, 2, 2]⟩⟩) :=
    by rfl
  obtain ⟨rfl, rfl⟩ := Prod.mk.inj (Except.ok.inj (hruns.symm.trans hnodes))
  obtain ⟨rfl, rfl⟩ := Prod.mk.inj (Except.ok.inj (hmaximum.symm.trans hfound))
  exact ⟨_, _, hnodes, hcounts, hfound, hmem,
    hsame [0, 2, 4] .recursive (by simp; omega) (by decide)⟩

/-- A gate that reads a leaf twice, of which no more parents can be counted. -/
def saturated : FaninTable :=
  .ofRows [(.leaf, []), (.internal, [⟨0, false⟩, ⟨0, true⟩])] [4294967295, 1]

/-- A leaf of which no more parents can be counted cannot be protected. -/
theorem protectedCone_saturated :
    (FaninTable.networkOf saturated.rows).Fits (fun v => if v = 0 then 4294967293 else 1)
        saturated.stores ∧
      (FaninTable.networkOf saturated.rows).HasCone 1 ∧
      (∀ v ∈ [0], v < saturated.stores.counts.size) ∧
      ∀ traversal, protectedCone [0] traversal (FaninTable.networkOf saturated.rows) 1
        saturated.stores = .error (.overflow 0) := by
  have hclosed : (FaninTable.networkOf saturated.rows).Closed 2 :=
    FaninTable.closed_networkOf (by decide)
  refine ⟨⟨hclosed, hclosed, Marks.bounded_empty.grow 2,
    FaninTable.acyclic_networkOf (by decide), fun v hv => ?_⟩, ⟨_, rfl, rfl⟩, by decide,
    fun traversal => rfl⟩
  have hlt := hclosed.lt_of_present hv
  interval_cases v <;> rfl

end FanoutCone
