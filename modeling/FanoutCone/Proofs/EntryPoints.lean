import FanoutCone.Proofs.Collapse
import FanoutCone.Proofs.FittingStores
import FanoutCone.Proofs.Partition

/-!
# One cone from every entry point

The size of a cone comes from the walk that counts it, its nodes from a
collection after the walk. A stamping collects in a way of its own: it leaves
the boundary unmarked, and so meets a boundary node again from every node that
reads it. `Overlooks` relates the two ways of collecting node by node. They go
below the same nodes in the same order, and differ by the marks at the boundary
only.

A dereference along all edges passes what a collection after it finds, on cyclic
networks too and over any counts, as long as it ends. So all entry points speak
of one sequence of nodes.
-/
namespace FanoutCone

section
variable {net : Network} {traversal : Traversal} {root v : Nat} {counts : FanoutCounts} {t : Trail}

/-- A dereference along all edges that ends has passed the nodes that can be reached from the root
through nodes dead afterwards. -/
theorem mem_passed_iff_leads (hroot : net.Internal root)
    (hwalk : walk net .all traversal .dereference root counts = .ok t) {use : BoundaryUse}
    {limit : Option Nat} :
    v ∈ t.passed ↔
      Relation.ReflTransGen (⟨net, t.counts, use, limit⟩ : Collection).Leads root v := by
  obtain ⟨houtcome, hmoved, -⟩ := walk_eq_ok hwalk
  have huses : ∀ w, t.counts.parents w + net.uses .all t.passed w = counts.parents w := hmoved
  constructor
  · -- On the passes in their order: a node falls due by an older pass that reads it.
    have hlegal : ∀ older : List Nat, (older : Multiset Nat) ≤ t.passed →
        (Course.ofCounts net .all .dereference root counts).Legal older → ∀ w ∈ older,
        Relation.ReflTransGen (⟨net, t.counts, use, limit⟩ : Collection).Leads root w := by
      intro older hsub holder
      induction older with
      | nil => exact fun w hw => absurd hw List.not_mem_nil
      | cons n older ih =>
        obtain ⟨hlegal, hinternal, hdue⟩ := holder
        have hsub' : (older : Multiset Nat) ≤ t.passed :=
          (Multiset.coe_le.2 (List.sublist_cons_self n older).subperm).trans hsub
        intro w hw
        rcases List.mem_cons.1 hw with rfl | hw
        · rcases Course.due_pos_iff.1 (Nat.lt_of_lt_of_le (Nat.succ_pos _) hdue) with rfl | hflips
          · exact .refl
          · obtain ⟨u, hu, hread⟩ := Network.uses_pos_iff.1 (Direction.pos_of_flips hflips)
            have hdead : t.counts.parents w = 0 := by
              have hle : counts.parents w ≤ net.uses .all older w :=
                (Direction.flips_dereference_iff.1 hflips).2
              have hmono : net.uses .all older w ≤ net.uses .all t.passed w :=
                Network.uses_mono hsub' w
              have hw := huses w
              omega
            exact (ih hsub' hlegal u (Multiset.mem_coe.1 hu)).tail ⟨hread, hinternal, hdead⟩
        · exact ih hsub' hlegal w hw
    exact hlegal t.passed le_rfl houtcome.legal v
  · intro hv
    induction hv with
    | refl => exact houtcome.mem_iff.2 ⟨hroot, Or.inl rfl⟩
    | @tail u w _ hlead ih =>
      obtain ⟨hread, hinternal, hdead⟩ := hlead
      have hpos : 0 < net.uses .all t.passed w :=
        Network.uses_pos_iff.2 ⟨u, Multiset.mem_coe.2 ih, hread⟩
      have hall : net.uses .all t.passed w = counts.parents w := by
        rw [← huses w, hdead, Nat.zero_add]
      have hflips := Direction.flips_dereference_iff.2 ⟨hall ▸ hpos, hall.ge⟩
      exact houtcome.mem_iff.2 ⟨hinternal, Or.inr hflips⟩

/-- A dereference that ends has passed no node twice, on cyclic networks too. -/
theorem nodup_passed_of_walk {filter : EdgeFilter} (hclosed : net.Closed counts.size)
    (hroot : net.Internal root)
    (hwalk : walk net filter traversal .dereference root counts = .ok t) : t.passed.Nodup := by
  obtain ⟨C, hC⟩ := hclosed.exists_isLeast_absorbing hroot filter counts
  obtain ⟨t', hwalk', hpassed⟩ := exists_walk_of_not_overdraws hclosed hroot hC
    (not_overdraws_of_walk hroot hC hwalk) traversal
  obtain rfl : t = t' := Except.ok.inj (hwalk.symm.trans hwalk')
  rw [← Multiset.coe_nodup, hpassed]
  exact C.nodup

end

namespace Collection

variable {c : Collection} {atRoot b b' : Bool} {root v w : Nat} {p p' q q' : Progress}
variable {fanins : List (Option Edge)}

def ignoring (c : Collection) : Collection := ⟨c.net, c.counts, .ignored, c.limit⟩

/-- Two collections from `root` are equally far, but the second has no marks at the boundary. -/
structure Overlooks (c : Collection) (root : Nat) (p q : Progress) : Prop where
  cone_eq : q.cone = p.cone
  expanded_eq : q.expanded = p.expanded
  root_marked : p.marks.isMarked root = true
  marked_iff : ∀ v, q.marks.isMarked v = true ↔
    p.marks.isMarked v = true ∧ (v = root ∨ ¬ c.Boundary v)

/-- Both collections go below a node that they meet, or neither does. -/
theorem Overlooks.met (h : c.Overlooks root p q) (hp : c.Met false v p b p')
    (hq : c.ignoring.Met false v q b' q') : b' = b ∧ c.Overlooks root p' q' := by
  have hfull : c.ignoring.isFull q = c.isFull p := by simp [isFull, ignoring, h.expanded_eq]
  have hboundary : c.ignoring.Boundary v ↔ c.Boundary v := Iff.rfl
  have hfresh : ¬ c.Boundary v → (q.marks.isMarked v = false ↔ p.marks.isMarked v = false) := by
    intro hinner
    have hv := h.marked_iff v
    simp only [hinner, not_false_iff, or_true, and_true] at hv
    rw [← Bool.not_eq_true, ← Bool.not_eq_true, hv]
  have hbelow : b' = b := by
    rw [Bool.eq_iff_iff, hq.below_iff, hp.below_iff, hfull, hboundary]
    simp only [Bool.false_eq_true, false_or]
    exact and_congr_left fun hrest => hfresh hrest.1
  subst hbelow
  refine ⟨rfl, ⟨?_, ?_, hp.isMarked_iff.2 (Or.inl h.root_marked), fun w => ?_⟩⟩
  · rw [hq.cone_eq, hp.cone_eq, h.cone_eq]
  · rw [hq.expanded_eq, hp.expanded_eq, h.expanded_eq]
  · rw [hq.isMarked_iff, hp.isMarked_iff, h.marked_iff w]
    constructor
    · rintro (⟨hmarked, hw⟩ | ⟨rfl, rfl | ⟨-, -, huse⟩⟩)
      · exact ⟨Or.inl hmarked, hw⟩
      · have hinner := (hp.below_iff.1 rfl).2.1.resolve_left Bool.false_ne_true
        exact ⟨Or.inr ⟨rfl, Or.inl rfl⟩, Or.inr hinner⟩
      · cases huse
    · rintro ⟨hmarked | ⟨rfl, hmet⟩, hw⟩
      · exact Or.inl ⟨hmarked, hw⟩
      · rcases hmet with hb | ⟨-, hedge, -⟩
        · exact Or.inr ⟨rfl, Or.inl hb⟩
        · -- A node of the boundary is marked here only if it is the root.
          obtain rfl := hw.resolve_right (not_not_intro hedge)
          exact Or.inl ⟨h.root_marked, Or.inl rfl⟩

theorem Overlooks.emit (h : c.Overlooks root p q) (n : Nat) :
    c.Overlooks root (p.emit n) (q.emit n) where
  cone_eq := congrArg (n :: ·) h.cone_eq
  expanded_eq := h.expanded_eq
  root_marked := h.root_marked
  marked_iff := h.marked_iff

/-- The collections stay equally far over any fanins and all that is below them. -/
theorem Overlooks.explores (h : c.Overlooks root p q) (hp : c.Explores fanins p p')
    (hq : c.ignoring.Explores fanins q q') : c.Overlooks root p' q' := by
  induction hp generalizing q q' with
  | done p =>
    cases hq
    exact h
  | pass hmet hrest ih =>
    cases hq with
    | pass hmet' hrest' => exact ih (h.met hmet hmet').2 hrest'
    | expand hmet' => cases (h.met hmet hmet').1
  | expand hmet hsite hbelow hrest ihbelow ihrest =>
    cases hq with
    | pass hmet' => cases (h.met hmet hmet').1
    | expand hmet' hsite' hbelow' hrest' =>
      obtain rfl := Option.some.inj (hsite.symm.trans hsite')
      have hopened := (h.met hmet hmet').2
      exact ihrest ((ihbelow hopened hbelow').emit _) hrest'

/-- Once the root is gone below, it is the only node marked. -/
theorem Overlooks.start {marks : Marks} (hmarks : marks.Bounded)
    (hp : c.Met true root ⟨marks.advance, 0, [], []⟩ true p)
    (hq : c.ignoring.Met true root ⟨marks.advance, 0, [], []⟩ true q) :
    c.Overlooks root p q where
  cone_eq := by rw [hp.cone_eq, hq.cone_eq]
  expanded_eq := by rw [hp.expanded_eq, hq.expanded_eq]
  root_marked := hp.isMarked_iff.2 (Or.inr ⟨rfl, Or.inl rfl⟩)
  marked_iff w := by
    have hfresh := Marks.isMarked_advance hmarks w
    rw [hp.isMarked_iff, hq.isMarked_iff]
    simp only [hfresh, Bool.false_eq_true, Bool.true_eq_false, false_or, true_or, false_and,
      and_true]
    exact ⟨fun hw => ⟨hw, Or.inl hw⟩, And.left⟩

/-- Without a cut limit the root is gone below. -/
theorem Met.below_of_start {marks : Marks} (hmarks : marks.Bounded) (hlimit : c.limit = none)
    (h : c.Met true root ⟨marks.advance, 0, [], []⟩ b p) : b = true :=
  h.below_iff.2 ⟨Marks.isMarked_advance hmarks root, Or.inl rfl, by simp [isFull, hlimit]⟩

/-- A whole collection without marks at the boundary finds the same cone in the same order. -/
theorem Collects.overlooks {marks : Marks} (hmarks : marks.Bounded) (hlimit : c.limit = none)
    (hp : c.Collects root marks p) (hq : c.ignoring.Collects root marks q) :
    c.Overlooks root p q := by
  cases hp with
  | stay hmet => cases hmet.below_of_start hmarks hlimit
  | expand hmet hsite hbelow =>
    cases hq with
    | stay hmet' => cases Met.below_of_start (c := c.ignoring) hmarks hlimit hmet'
    | expand hmet' hsite' hbelow' =>
      obtain rfl := Option.some.inj (hsite.symm.trans hsite')
      exact ((Overlooks.start hmarks hmet hmet').explores hbelow hbelow').emit root

/-- Where the boundary is overlooked, a whole collection leaves just the cone marked. -/
theorem Covered.isMarked_of_overlooks (h : c.Covered root [] p) (hroot : root ∈ p.cone)
    (hq : c.Overlooks root p q) : q.marks.isMarked v = true ↔ v ∈ p.cone := by
  rw [hq.marked_iff, h.isMarked_iff]
  constructor
  · rintro ⟨hcone | hsupport, hv⟩
    · exact hcone
    · rcases hv with rfl | hinner
      · exact hroot
      · exact absurd (h.boundary v hsupport) hinner
  · intro hv
    refine ⟨Or.inl hv, or_iff_not_imp_left.2 fun hne => ?_⟩
    exact (h.dead_of_mem hv hne).not_boundary

end Collection

section
variable {net : Network} {root : Nat} {s : Stores} {t : Trail} {found : Cone} {marks' : Marks}
variable {use : BoundaryUse} {traversal : Traversal}

/-- A walk that labels nothing leaves the marks alone. -/
theorem CountingWalk.dereference_of_walk {w : CountingWalk} (hlabel : w.label = false)
    (hwalk : FanoutCone.walk net w.filter w.traversal .dereference root s.counts = .ok t) :
    w.dereference net root s = .ok (t.passed.length, ⟨t.counts, s.marks⟩) := by
  simp [dereference, run, hwalk, hlabel]

/-- An excursion whose way back labels nothing leaves the marks that it has at its far end. -/
theorem CountingWalk.excursion_of_inside {α : Type} {out back : CountingWalk} {a : α}
    {inside : Stores → Except Fault (α × Stores)} {marks : Marks}
    (hback : back.filter = out.filter ∧ back.label = false) (hcounts : net.Closed s.counts.size)
    (hroot : net.Present root)
    (hwalk : FanoutCone.walk net out.filter out.traversal .dereference root s.counts = .ok t)
    (hout : out.dereference net root s = .ok (t.passed.length, ⟨t.counts, marks⟩))
    (hinside : inside ⟨t.counts, marks⟩ = .ok (a, ⟨t.counts, marks'⟩)) :
    excursion out back net root inside s = .ok ((t.passed.length, a), ⟨s.counts, marks'⟩) := by
  obtain ⟨hfilter, hlabel⟩ := hback
  obtain ⟨⟨passed, counts⟩, hup, hperm, hrestored⟩ :=
    walk_balanced hcounts hroot hwalk back.traversal
  have hin : back.reference net root ⟨t.counts, marks'⟩ =
      .ok (passed.length, ⟨s.counts, marks'⟩) := by
    dsimp only at hrestored
    simp [reference, run, hfilter, hup, hlabel, hrestored]
  have hlength : t.passed.length = passed.length := hperm.length_eq.symm
  simp only [excursion, hout, hinside, hin, ok_bind, hlength, if_true]

theorem collectFrom_of_run {limit : Option Nat} {counts : FanoutCounts} {marks : Marks}
    (h : Collection.run ⟨net, counts, use, limit⟩ traversal root marks = .ok (found, marks')) :
    collectFrom use limit traversal net root ⟨counts, marks⟩ = .ok (found, ⟨counts, marks'⟩) := by
  simp [collectFrom, h]

/-- A collection between unlabelled walks along all edges. -/
theorem excursion_of_run (hcounts : net.Closed s.counts.size) (hroot : net.Present root)
    (hwalk : walk net .all traversal .dereference root s.counts = .ok t)
    (h : Collection.run ⟨net, t.counts, use, none⟩ traversal root s.marks = .ok (found, marks')) :
    CountingWalk.excursion { traversal := traversal } { traversal := traversal } net root
      (collectFrom use none traversal net root) s =
        .ok ((t.passed.length, found), ⟨s.counts, marks'⟩) :=
  CountingWalk.excursion_of_inside ⟨rfl, rfl⟩ hcounts hroot hwalk
    (CountingWalk.dereference_of_walk rfl hwalk) (collectFrom_of_run h)

/-- The cone of a node is what the collection between the walks finds, in every entry point that
lists it. -/
theorem maximumCone_of_run {settings : ConeSettings} (hcounts : net.Closed s.counts.size)
    (hroot : net.HasCone root)
    (hwalk : walk net settings.filter settings.traversal .dereference root s.counts = .ok t)
    (h : Collection.run ⟨net, t.counts, .listed, settings.cutLimit⟩ settings.traversal root
      s.marks = .ok (found, marks')) :
    maximumCone settings net root s = .ok (found, ⟨s.counts, marks'⟩) := by
  have hleaf := Network.isLeaf_eq_false_iff.2 hroot.internal
  have hpresent := hroot.internal.present
  obtain ⟨site, hsite, hcone⟩ := hroot
  have hinside : collectCone settings.cutLimit settings.traversal net root ⟨t.counts, s.marks⟩ =
      .ok (found, ⟨t.counts, marks'⟩) := by
    simp [collectCone, hleaf, collectFrom_of_run h]
  have hexcursion : settings.walk.excursion settings.walk net root _ s = _ :=
    CountingWalk.excursion_of_inside ⟨rfl, rfl⟩ hcounts hpresent hwalk
      (CountingWalk.dereference_of_walk rfl hwalk) hinside
  simp [maximumCone, Network.site_eq_ok_iff.2 hsite, hcone, hexcursion]

theorem innerCone_of_run (hcounts : net.Closed s.counts.size) (hroot : net.Internal root)
    (hwalk : walk net .all traversal .dereference root s.counts = .ok t)
    (h : Collection.run ⟨net, t.counts, .listed, none⟩ traversal root s.marks =
      .ok (found, marks')) :
    innerCone traversal net root s = .ok (found.nodes, ⟨s.counts, marks'⟩) := by
  have hexcursion := excursion_of_run hcounts hroot.present hwalk h
  obtain ⟨counts, marks⟩ := s
  have hraise : counts.incrementAll [] = .ok counts := rfl
  have hlower : counts.decrementAll [] = .ok counts := rfl
  simp [innerCone, protectedCone, Network.isLeaf_eq_false_iff.2 hroot, Stores.updateCounts, hraise,
    hlower, hexcursion]

theorem stampConeOnto_of_run (held : Option (List Nat)) (hcounts : net.Closed s.counts.size)
    (hroot : net.Internal root)
    (hwalk : walk net .all traversal .dereference root s.counts = .ok t)
    (h : Collection.run ⟨net, t.counts, .ignored, none⟩ traversal root s.marks =
      .ok (found, marks')) :
    stampConeOnto held traversal net root s =
      .ok ((t.passed.length, held.map (· ++ found.nodes)), ⟨s.counts, marks'⟩) := by
  have hexcursion := excursion_of_run hcounts hroot.present hwalk h
  simp [stampConeOnto, stampCone, Network.isLeaf_eq_false_iff.2 hroot, hexcursion]

/-- Over the counts that a dereference along all edges has left, both ways of collecting find the
nodes passed, in one order. Only the cone is marked where the boundary is overlooked. -/
theorem exists_collected (hcounts : net.Closed s.counts.size) (hmarks : net.Closed s.marks.size)
    (hbounded : s.marks.Bounded) (hroot : net.Internal root)
    (hwalk : walk net .all traversal .dereference root s.counts = .ok t) :
    ∃ nodes support, nodes.Perm t.passed ∧ nodes.Disjoint support ∧
      ∀ traversal', (∃ marks', Collection.run ⟨net, t.counts, .listed, none⟩ traversal' root
          s.marks = .ok (⟨nodes, support⟩, marks')) ∧
        ∃ skipped marks', Collection.run ⟨net, t.counts, .ignored, none⟩ traversal' root s.marks =
          .ok (⟨nodes, skipped⟩, marks') ∧ ∀ v, marks'.isMarked v = true ↔ v ∈ nodes := by
  have hcounts' : net.Closed t.counts.size := by rwa [(walk_eq_ok hwalk).2.2]
  obtain ⟨found, marks₁, hlisted⟩ := Collection.exists_run
    (c := ⟨net, t.counts, .listed, none⟩) hcounts' hmarks hroot.present .recursive
  obtain ⟨found', marks₂, hignored⟩ := Collection.exists_run
    (c := ⟨net, t.counts, .ignored, none⟩) hcounts' hmarks hroot.present .recursive
  obtain ⟨p, hp, rfl, rfl⟩ := Collection.run_eq_ok hlisted
  obtain ⟨q, hq, rfl, rfl⟩ := Collection.run_eq_ok hignored
  obtain ⟨hcovered, hmem⟩ := hp.covered hbounded hroot rfl
  have hoverlooks := Collection.Collects.overlooks hbounded rfl hp hq
  have hperm : p.cone.Perm t.passed := by
    refine (List.perm_ext_iff_of_nodup hcovered.nodup_cone
      (nodup_passed_of_walk hcounts hroot hwalk)).2 fun v => ?_
    rw [hcovered.mem_cone_iff hmem rfl]
    exact (mem_passed_iff_leads hroot hwalk).symm
  refine ⟨p.cone.reverse, p.support.reverse, (List.reverse_perm p.cone).trans hperm, ?_,
    fun traversal' => ⟨⟨p.marks, ?_⟩, q.support.reverse, q.marks, ?_, fun v => ?_⟩⟩
  · intro v hcone hsupport
    exact hcovered.not_mem_support (List.mem_reverse.1 hcone) (List.mem_reverse.1 hsupport)
  · rw [Collection.run_eq_recursive, hlisted]
  · rw [Collection.run_eq_recursive, hignored, hoverlooks.cone_eq]
  · rw [List.mem_reverse]
    exact hcovered.isMarked_of_overlooks hmem hoverlooks

end

/-- Every entry point finds the cone `nodes` of `root`: as a list, as its size, or as what is
stamped. -/
structure AgreedCone (net : Network) (root : Nat) (s : Stores) (nodes : List Nat) : Prop where
  maximum : ∀ traversal, ∃ support s', maximumCone { traversal := traversal } net root s =
    .ok (⟨nodes, support⟩, s') ∧ nodes.Disjoint support
  inner : ∀ traversal, ∃ s', innerCone traversal net root s = .ok (nodes, s')
  stamped : ∀ held traversal, ∃ s', stampConeOnto held traversal net root s =
    .ok ((nodes.length, held.map (· ++ nodes)), s') ∧
      ∀ v, s'.marks.isMarked v = true ↔ v ∈ nodes
  size : ∃ s', coneSize net root s = .ok (nodes.length, s')
  sizeWith : ∀ settings : ConeSettings, settings.filter = .all →
    ∃ s', coneSizeWith settings net root s = .ok (nodes.length, s')
  labelled : ∃ s', labelCone net root s = .ok (nodes.length, s')

/-- The entry points agree. In a network whose fanins are all in range, cyclic or not, let the
dereference along all edges return, over any counts and over marks none of which exceeds the
generation. Then there is one sequence of nodes that every entry point finds, in either traversal:
it is listed as the cone, as the cone with nothing protected, and after whatever was held by a
stamping; its length is every size that is returned; and after a stamping just its nodes are
marked, and none of the boundary. -/
theorem entryPoints_agree {net : Network} {root size : Nat} {s s₀ : Stores} {w : CountingWalk}
    (hcounts : net.Closed s.counts.size) (hmarks : net.Closed s.marks.size)
    (hbounded : s.marks.Bounded) (hroot : net.HasCone root) (hfilter : w.filter = .all)
    (hdown : w.dereference net root s = .ok (size, s₀)) :
    ∃ nodes, nodes.length = size ∧ AgreedCone net root s nodes := by
  have hinternal := hroot.internal
  obtain ⟨t, hwalk, rfl, -⟩ := CountingWalk.run_eq_ok hdown
  rw [hfilter] at hwalk
  obtain ⟨nodes, support, hperm, hdisjoint, hruns⟩ :=
    exists_collected hcounts hmarks hbounded hinternal hwalk
  have hwalks : ∀ traversal, ∃ t', walk net .all traversal .dereference root s.counts = .ok t' ∧
      t'.passed.length = nodes.length ∧ t'.counts = t.counts := by
    intro traversal
    obtain ⟨t', hwalk', hperm', hcounts'⟩ := exists_walk_of_walk hwalk traversal
    exact ⟨t', hwalk', (hperm'.trans hperm.symm).length_eq, hcounts'⟩
  have hsizes : ∀ w : CountingWalk, w.filter = .all →
      ∃ s', sizeByWalk w net root s = .ok (nodes.length, s') := by
    intro w hall
    obtain ⟨t', hwalk', hlength, -⟩ := hwalks w.traversal
    rw [← hall] at hwalk'
    obtain ⟨site, hsite, hcone⟩ := hroot
    obtain ⟨s', hsize, -⟩ := exists_sizeByWalk hcounts hmarks hsite hwalk'
    rw [if_pos hcone, hlength] at hsize
    exact ⟨s', hsize⟩
  refine ⟨nodes, hperm.length_eq, ⟨fun traversal => ?_, fun traversal => ?_,
    fun held traversal => ?_, hsizes _ rfl, fun settings => hsizes settings.walk, hsizes _ rfl⟩⟩
  · obtain ⟨t', hwalk', -, hcounts'⟩ := hwalks traversal
    obtain ⟨⟨marks', hrun⟩, -⟩ := hruns traversal
    rw [← hcounts'] at hrun
    exact ⟨support, _, maximumCone_of_run hcounts hroot hwalk' hrun, hdisjoint⟩
  · obtain ⟨t', hwalk', -, hcounts'⟩ := hwalks traversal
    obtain ⟨⟨marks', hrun⟩, -⟩ := hruns traversal
    rw [← hcounts'] at hrun
    exact ⟨_, innerCone_of_run hcounts hinternal hwalk' hrun⟩
  · obtain ⟨t', hwalk', hlength, hcounts'⟩ := hwalks traversal
    obtain ⟨-, skipped, marks', hrun, hmarked⟩ := hruns traversal
    rw [← hcounts'] at hrun
    have hstamp := stampConeOnto_of_run held hcounts hinternal hwalk' hrun
    rw [hlength] at hstamp
    exact ⟨_, hstamp, hmarked⟩

/-- The two gates that read each other are one cone, whichever way it is asked for. -/
theorem entryPoints_agree_feedback :
    (∃ s₀, CountingWalk.dereference ⟨.all, true, .iterative⟩
      (FaninTable.networkOf ConeQuery.feedback.rows) 0 ConeQuery.feedback.stores = .ok (2, s₀)) ∧
      AgreedCone (FaninTable.networkOf ConeQuery.feedback.rows) 0 ConeQuery.feedback.stores
        [1, 0] := by
  have hclosed : (FaninTable.networkOf ConeQuery.feedback.rows).Closed 3 :=
    FaninTable.closed_networkOf (by decide)
  have hdown : CountingWalk.dereference ⟨.all, true, .iterative⟩
      (FaninTable.networkOf ConeQuery.feedback.rows) 0 ConeQuery.feedback.stores =
        .ok (2, ⟨⟨#[3, 0, 0]⟩, ⟨1, #[1, 1, 0]⟩⟩) := by rfl
  obtain ⟨nodes, -, hagreed⟩ := entryPoints_agree hclosed hclosed (Marks.bounded_empty.grow 3)
    ⟨_, rfl, rfl⟩ rfl hdown
  obtain ⟨s', hinner⟩ := hagreed.inner .recursive
  have hruns : innerCone .recursive (FaninTable.networkOf ConeQuery.feedback.rows) 0
      ConeQuery.feedback.stores = .ok ([1, 0], ⟨ConeQuery.feedback.stores.counts,
        ⟨2, #[2, 2, 2]⟩⟩) := by rfl
  obtain ⟨rfl, -⟩ := Prod.mk.inj (Except.ok.inj (hinner.symm.trans hruns))
  exact ⟨⟨_, hdown⟩, hagreed⟩

end FanoutCone
