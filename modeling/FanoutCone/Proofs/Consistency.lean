import Mathlib.Algebra.BigOperators.Group.Finset.Basic
import Mathlib.Algebra.Order.BigOperators.Group.Finset
import FanoutCone.Proofs.Balance
import FanoutCone.Proofs.Coverage

/-!
# Counts that agree with the structure

Counts account for a network when every node has at least as many parents as
there are fanin edges from it. In a closed network without cycles a dereference
then passes no node twice, so it never takes a parent from a node without one.

What it has passed is what a collection without a cut limit finds afterwards,
also when the walk has kept only some of the edges: a fanin edge that was not
crossed keeps its source alive.
-/
namespace FanoutCone

namespace Network

/-- Whether the edge `e` is a fanin of the internal node `u`. -/
def Consumes (net : Network) (u : Nat) (e : Edge) : Prop :=
  ∃ site, net.site? u = some site ∧ site.kind = .internal ∧ some e ∈ site.fanins

/-- No node has fewer parents than there are fanin edges from it. -/
def Accounted (net : Network) (counts : FanoutCounts) : Prop :=
  ∀ v, net.uses .all (Multiset.range counts.size) v ≤ counts.parents v

variable {net : Network} {filter : EdgeFilter} {u v bound : Nat} {nodes : List Nat}

theorem reads_iff_consumes : net.Reads u v ↔ ∃ e, net.Consumes u e ∧ e.node = v := by
  constructor
  · intro h
    obtain ⟨site, hsite, hkind⟩ := h.internal
    obtain ⟨e, he, rfl⟩ := (reads_iff hsite hkind).1 h
    exact ⟨e, ⟨site, hsite, hkind, he⟩, rfl⟩
  · rintro ⟨e, ⟨site, hsite, hkind, he⟩, rfl⟩
    exact (reads_iff hsite hkind).2 ⟨e, he, rfl⟩

theorem uses_eq_sum (hnodup : nodes.Nodup) (v : Nat) :
    net.uses filter nodes v = ∑ u ∈ nodes.toFinset, (net.sources filter u).count v := by
  rw [List.sum_toFinset _ hnodup, uses, Multiset.count_bind, Multiset.map_coe, Multiset.sum_coe]
  simp only [Multiset.coe_count]

theorem uses_range_eq_sum (bound v : Nat) :
    net.uses filter (Multiset.range bound) v =
      ∑ u ∈ Finset.range bound, (net.sources filter u).count v := by
  rw [uses, Multiset.count_bind, Finset.sum_eq_multiset_sum, Finset.range_val]
  simp only [Multiset.coe_count]

/-- No edge from `v` to `u` is skipped when as many are kept as there are. -/
theorem count_sources_eq_iff :
    (net.sources filter u).count v = (net.sources .all u).count v ↔
      ∀ e, net.Consumes u e → e.node = v → filter = .uncomplemented → e.complement = false := by
  constructor
  · rintro heq e ⟨site, hsite, hkind, he⟩ rfl
    rw [← EdgeFilter.keeps_iff]
    rw [sources_of_internal hsite hkind, sources_of_internal hsite hkind] at heq
    obtain ⟨before, after, hfanins⟩ := List.append_of_mem he
    have hbefore := (keptSources_sublist filter before).count_le e.node
    have hafter := (keptSources_sublist filter after).count_le e.node
    cases hkeep : filter.keeps e with
    | true => rfl
    | false =>
      have hdropped : keptSource filter (some e) = none := by simp [keptSource_some, hkeep]
      rw [hfanins] at heq
      simp only [List.filterMap_append, List.filterMap_cons, hdropped, keptSource_all,
        List.count_append, List.count_cons_self] at heq
      omega
  · intro hkeeps
    by_cases hinternal : net.Internal u
    · obtain ⟨site, hsite, hkind⟩ := hinternal
      rw [sources_of_internal hsite hkind, sources_of_internal hsite hkind,
        List.count_filterMap, List.count_filterMap]
      apply List.countP_congr
      intro fanin hfanin
      cases fanin with
      | none => rfl
      | some e =>
        by_cases hnode : e.node = v
        · have hkeep := EdgeFilter.keeps_iff.2 (hkeeps e ⟨site, hsite, hkind, hfanin⟩ hnode)
          rw [keptSource_all, keptSource_some, if_pos hkeep]
        · cases hkeep : filter.keeps e <;> simp [keptSource_some, hkeep, hnode]
    · have hnone : ∀ filter : EdgeFilter, net.sources filter u = [] := fun filter =>
        List.eq_nil_iff_forall_not_mem.2 fun w hw => hinternal (internal_of_mem_sources hw)
      rw [hnone, hnone]

/-- Some nodes use a node as often as all nodes do exactly when every fanin edge from it is kept and
goes to one of them. -/
theorem uses_eq_all_iff (hnodup : nodes.Nodup) (hlt : ∀ u ∈ nodes, u < bound)
    (hclosed : net.Closed bound) :
    net.uses filter nodes v = net.uses .all (Multiset.range bound) v ↔
      ∀ u e, net.Consumes u e → e.node = v →
        (filter = .uncomplemented → e.complement = false) ∧ u ∈ nodes := by
  have hsub : nodes.toFinset ⊆ Finset.range bound := fun u hu =>
    Finset.mem_range.2 (hlt u (List.mem_toFinset.1 hu))
  have hextend : net.uses filter nodes v =
      ∑ u ∈ Finset.range bound, if u ∈ nodes then (net.sources filter u).count v else 0 := by
    rw [uses_eq_sum hnodup, ← Finset.sum_subset hsub (fun u _ hu => if_neg ?_)]
    · exact Finset.sum_congr rfl fun u hu => (if_pos (List.mem_toFinset.1 hu)).symm
    · exact fun hmem => hu (List.mem_toFinset.2 hmem)
  rw [hextend, uses_range_eq_sum, Finset.sum_eq_sum_iff_of_le]
  · constructor
    · intro heq u e hconsumes hnode
      have hreads : net.Reads u v := reads_iff_consumes.2 ⟨e, hconsumes, hnode⟩
      have hu := heq u (Finset.mem_range.2 (hclosed.lt_of_internal hreads.internal))
      by_cases hmem : u ∈ nodes
      · rw [if_pos hmem] at hu
        exact ⟨count_sources_eq_iff.1 hu e hconsumes hnode, hmem⟩
      · rw [if_neg hmem] at hu
        have hpos : 0 < (net.sources .all u).count v := List.count_pos_iff.2 hreads
        omega
    · intro hall u _
      by_cases hmem : u ∈ nodes
      · rw [if_pos hmem]
        exact count_sources_eq_iff.2 fun e hconsumes hnode => (hall u e hconsumes hnode).1
      · rw [if_neg hmem, eq_comm, List.count_eq_zero]
        intro hreads
        obtain ⟨e, hconsumes, hnode⟩ := reads_iff_consumes.1 hreads
        exact hmem (hall u e hconsumes hnode).2
  · intro u _
    split
    · exact (sources_sublist u).count_le v
    · exact Nat.zero_le _

end Network

namespace Course

variable {c : Course} {passed : List Nat}

/-- Without cycles no node is passed twice: below the root nothing reads the root, so its count
never comes to a change. -/
theorem Legal.nodup (h : c.Legal passed) (hacyclic : c.net.Acyclic) : passed.Nodup := by
  refine List.nodup_iff_count_le_one.2 fun v => (h.count_le_due v).trans ?_
  unfold due
  by_cases hroot : v = c.root
  · cases hflips : c.direction.flips (c.before v) (c.uses passed v) with
    | false => simp [hroot]
    | true =>
      obtain ⟨u, hu, huv⟩ := Network.uses_pos_iff.1 (Direction.pos_of_flips hflips)
      have hpath : Relation.ReflTransGen c.net.Reads c.root u :=
        Relation.ReflTransGen.mono (fun _ _ => Network.reads_of_mem_sources) _ _
          (h.reachable (Multiset.mem_coe.1 hu))
      rw [hroot] at huv
      exact absurd (Relation.TransGen.tail' hpath (Network.reads_of_mem_sources huv))
        (hacyclic c.root)
  · have hfalse : (v == c.root) = false := by simpa using hroot
    rw [hfalse]
    cases c.direction.flips (c.before v) (c.uses passed v) <;> simp

end Course

section
variable {net : Network} {filter : EdgeFilter} {traversal : Traversal} {root v : Nat}
variable {counts : FanoutCounts} {t : Trail}

/-- Nodes that a walk passes use no node more often than it has parents. -/
theorem Network.Accounted.uses_le (haccounted : net.Accounted counts)
    (hclosed : net.Closed counts.size) {passed : List Nat} (hnodup : passed.Nodup)
    (hinternal : ∀ u ∈ passed, net.Internal u) (v : Nat) :
    net.uses filter passed v ≤ counts.parents v := by
  have hle : (passed : Multiset Nat) ≤ Multiset.range counts.size := by
    rw [Multiset.le_iff_subset (Multiset.coe_nodup.2 hnodup)]
    intro u hu
    exact Multiset.mem_range.2 (hclosed.lt_of_internal (hinternal u (Multiset.mem_coe.1 hu)))
  calc net.uses filter passed v
      ≤ net.uses .all passed v := Network.uses_le_all _ v
    _ ≤ net.uses .all (Multiset.range counts.size) v := Network.uses_mono hle v
    _ ≤ counts.parents v := haccounted v

/-- Where the counts account for an acyclic network, a dereference ends. -/
theorem exists_walk_of_accounted (haccounted : net.Accounted counts)
    (hclosed : net.Closed counts.size) (hacyclic : net.Acyclic) (hroot : net.Present root)
    (filter : EdgeFilter) (traversal : Traversal) :
    ∃ t, walk net filter traversal .dereference root counts = .ok t := by
  cases h : walk net filter traversal .dereference root counts with
  | ok t => exact ⟨t, rfl⟩
  | error breakdown =>
    obtain ⟨hlegal, v, -, hlt⟩ := walk_eq_error hclosed hroot h
    have hle : net.uses filter breakdown.passed v ≤ counts.parents v :=
      haccounted.uses_le hclosed (hlegal.nodup hacyclic) (fun u hu => hlegal.internal_of_mem hu) v
    exact absurd hle (Nat.not_le.2 hlt)

/-- The nodes that a dereference passes are those that can be reached from the root through nodes
dead afterwards, by any fanin edges. -/
theorem mem_passed_iff (haccounted : net.Accounted counts) (hclosed : net.Closed counts.size)
    (hacyclic : net.Acyclic) (hroot : net.Internal root)
    (hwalk : walk net filter traversal .dereference root counts = .ok t) {use : BoundaryUse}
    {limit : Option Nat} :
    v ∈ t.passed ↔
      Relation.ReflTransGen (⟨net, t.counts, use, limit⟩ : Collection).Leads root v := by
  obtain ⟨houtcome, hmoved, -⟩ := walk_eq_ok hwalk
  have hmem : ∀ w, w ∈ t.passed ↔ net.Internal w ∧ (w = root ∨
      0 < counts.parents w ∧ counts.parents w ≤ net.uses filter t.passed w) := by
    intro w
    rw [houtcome.mem_iff]
    exact and_congr_right fun _ => or_congr_right Direction.flips_dereference_iff
  constructor
  · intro hv
    induction v using (hclosed.wellFounded_reads hacyclic).induction with
    | h v ih =>
      obtain ⟨hinternal, rfl | ⟨hpos, hle⟩⟩ := (hmem v).1 hv
      · exact Relation.ReflTransGen.refl
      · obtain ⟨u, hu, huv⟩ := Network.uses_pos_iff.1 (hpos.trans_le hle)
        have hreads := Network.reads_of_mem_sources huv
        have hdead : t.counts.parents v = 0 := by
          have hv := hmoved v
          simp only [Direction.Moved] at hv
          omega
        exact (ih u hreads (Multiset.mem_coe.1 hu)).tail ⟨hreads, hinternal, hdead⟩
  · intro hv
    induction hv with
    | refl => exact (hmem root).2 ⟨hroot, Or.inl rfl⟩
    | @tail u w _ hlead _ =>
      obtain ⟨hreads, hinternal, hdead⟩ := hlead
      refine (hmem w).2 ⟨hinternal, Or.inr ⟨?_, ?_⟩⟩
      · have hu : u ∈ Multiset.range counts.size :=
          Multiset.mem_range.2 (hclosed.lt_of_internal hreads.internal)
        exact (Network.uses_pos_iff.2 ⟨u, hu, hreads⟩).trans_le (haccounted w)
      · have hw := hmoved w
        simp only [Direction.Moved] at hw
        dsimp only at hdead
        omega

/-- A collection after a dereference finds the nodes that the dereference has passed, each once. -/
theorem collectFrom_perm_passed {s s' : Stores} {found : Cone} {use : BoundaryUse}
    (haccounted : net.Accounted counts) (hclosed : net.Closed counts.size)
    (hacyclic : net.Acyclic) (hroot : net.Internal root)
    (hwalk : walk net filter traversal .dereference root counts = .ok t)
    (hcounts : s.counts = t.counts) (hmarks : s.marks.Bounded)
    (h : collectFrom use none traversal net root s = .ok (found, s')) :
    found.nodes.Perm t.passed := by
  obtain ⟨p, hcollects, rfl, -⟩ := collectFrom_eq_ok h
  rw [hcounts] at hcollects
  obtain ⟨hcovered, hmem⟩ := hcollects.covered hmarks hroot rfl
  have hnodup : p.cone.Nodup := hcovered.nodup.of_append_left
  have hnodup' : t.passed.Nodup := (walk_eq_ok hwalk).1.legal.nodup hacyclic
  refine (List.reverse_perm p.cone).trans ((List.perm_ext_iff_of_nodup hnodup hnodup').2 ?_)
  intro v
  rw [hcovered.mem_cone_iff hmem rfl]
  exact (mem_passed_iff haccounted hclosed hacyclic hroot hwalk).symm

/-- A leaf has no cone to collect; from another node a collection is made. -/
theorem collectCone_eq_ok {limit : Option Nat} {s s' : Stores} {found : Cone}
    (hroot : net.Internal root) (h : collectCone limit traversal net root s = .ok (found, s')) :
    collectFrom .listed limit traversal net root s = .ok (found, s') := by
  obtain ⟨site, hsite, hkind⟩ := hroot
  simpa [collectCone, Network.isLeaf, Network.site, hsite, hkind] using h

end

end FanoutCone
