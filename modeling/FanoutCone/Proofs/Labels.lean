import FanoutCone.Proofs.EntryPoints
import FanoutCone.Proofs.LaminarCones
import FanoutCone.Proofs.PastQueries

/-!
# Labels that add up

A labelling marks the cone of a node and begins no generation, so labels that
follow one new generation add up. No walk reads a mark. So a label is as large
as its cone even where an earlier label has marked a part of it already, and
sizes that are asked for in between neither see the marks nor change them.

`Fits.exists_size` is the step: one size query adds the cone of a label to what
is marked, and nothing otherwise. The run lemma goes by induction over what is
asked, and each query finds the cones that the first would have found.
-/
namespace FanoutCone

section
variable {net : Network} {root : Nat} {s : Stores} {site : Site} {t : Trail} {w : CountingWalk}

/-- A labelling walk adds the nodes that it passes to those marked. -/
theorem CountingWalk.exists_dereference (w : CountingWalk) (hmarks : net.Closed s.marks.size)
    (hwalk : FanoutCone.walk net w.filter w.traversal .dereference root s.counts = .ok t) :
    ∃ marks, w.dereference net root s = .ok (t.passed.length, ⟨t.counts, marks⟩) ∧
      ∀ v, marks.isMarked v = true ↔
        s.marks.isMarked v = true ∨ (w.label = true ∧ v ∈ t.passed) := by
  obtain ⟨⟨counts, marks⟩, hrun, hcounts, hgeneration, hstamp⟩ := w.exists_run_stamp hmarks hwalk
  obtain rfl : counts = t.counts := hcounts
  refine ⟨marks, hrun, fun v => ?_⟩
  rw [Marks.isMarked_iff_stamp, hstamp v, hgeneration, Marks.isMarked_iff_stamp]
  split <;> simp_all

/-- The size of a cone is the number of nodes passed, and only a label changes what is marked. -/
theorem exists_sizeByWalk_marks (w : CountingWalk) (hcounts : net.Closed s.counts.size)
    (hmarks : net.Closed s.marks.size) (hsite : net.site? root = some site)
    (hwalk : walk net w.filter w.traversal .dereference root s.counts = .ok t) :
    ∃ s', sizeByWalk w net root s = .ok (if site.hasCone then t.passed.length else 0, s') ∧
      s.Kept s' ∧ ∀ v, s'.marks.isMarked v = true ↔ s.marks.isMarked v = true ∨
        (w.label = true ∧ site.hasCone = true ∧ v ∈ t.passed) := by
  obtain ⟨s', hsize, hkept⟩ := exists_sizeByWalk hcounts hmarks hsite hwalk
  refine ⟨s', hsize, hkept, fun v => ?_⟩
  have hsite' : net.site root = .ok site := Network.site_eq_ok_iff.2 hsite
  cases hcone : site.hasCone with
  | false =>
    obtain rfl : s = s' := by simpa [sizeByWalk, hsite', hcone] using hsize
    simp
  | true =>
    obtain ⟨marks, hout, hmarked⟩ := w.exists_dereference hmarks hwalk
    have hexcursion : w.excursion { w with label := false } net root (fun s => .ok ((), s)) s =
        .ok ((t.passed.length, ()), ⟨s.counts, marks⟩) :=
      CountingWalk.excursion_of_inside ⟨rfl, rfl⟩ hcounts ⟨site, hsite⟩ hwalk hout rfl
    rw [sizeByWalk, hsite', ok_bind, if_pos hcone, hexcursion, ok_bind, if_pos hcone] at hsize
    dsimp only at hsize
    split at hsize
    · cases hsize
      simpa using hmarked v
    · cases hsize

end

namespace ConeQuery

def asksSize : ConeQuery → Bool
  | .size | .sizeToInverters | .labelled | .sizeWith _ => true
  | .maximum _ | .protecting _ _ | .inner _ | .stamped _ => false

variable {q : ConeQuery}

theorem run_of_asksSize (hq : q.asksSize = true) (net : Network) (root : Nat) (s : Stores) :
    q.run net root s = (sizeByWalk q.walk net root s).map (Prod.map .size id) := by
  cases q with
  | size | sizeToInverters | labelled | sizeWith => rfl
  | maximum | protecting | inner | stamped => cases hq

theorem label_walk_iff : q.walk.label = true ↔ q = .labelled := by
  cases q <;> simp [walk, ConeSettings.walk]

end ConeQuery

namespace Network

variable {net : Network} {ext : Nat → Nat} {s s' : Stores} {root v : Nat} {found : Cone}

/-- The cone that is listed holds what the dereference passes. -/
theorem Fits.nodes_perm {t : Trail} (h : net.Fits ext s) (hroot : net.HasCone root)
    (hfound : maximumCone {} net root s = .ok (found, s'))
    (hwalk : walk net .all .recursive .dereference root s.counts = .ok t) :
    found.nodes.Perm t.passed := by
  have hinternal := hroot.internal
  obtain ⟨site, hsite, hcone⟩ := hroot
  obtain ⟨t', s₁, s₂, hwalk', hcounts, hevolves, hcollect⟩ := maximumCone_eq_ok hsite hcone hfound
  obtain rfl : t = t' := Except.ok.inj (hwalk.symm.trans hwalk')
  exact collectFrom_perm_passed (h.consistent.accounted h.counts) h.counts h.acyclic hinternal
    hwalk hcounts (hevolves.bounded h.bounded) (collectCone_eq_ok hinternal hcollect)

/-- A node that owns no cone has an empty one. -/
theorem eq_empty_of_not_hasCone (hroot : ¬ net.HasCone root)
    (hfound : maximumCone {} net root s = .ok (found, s')) : found = .empty := by
  obtain ⟨site, hsite, hrest⟩ := bind_eq_ok_iff.1 hfound
  have hnone : site.hasCone ≠ true := fun hcone => hroot ⟨site, site_eq_ok hsite, hcone⟩
  rw [if_neg hnone] at hrest
  cases hrest
  rfl

/-- A cone consists of internal nodes, and its support lies outside of it. -/
theorem Fits.cone_internal (h : net.Fits ext s)
    (hfound : maximumCone {} net root s = .ok (found, s')) :
    (∀ v ∈ found.nodes, net.Internal v) ∧ found.nodes.Disjoint found.support := by
  by_cases hroot : net.HasCone root
  · have hinternal := hroot.internal
    obtain ⟨site, hsite, hcone⟩ := hroot
    obtain ⟨t, s₁, s₂, hwalk, hcounts, hevolves, hcollect⟩ :=
      maximumCone_eq_ok hsite hcone hfound
    have hperm := h.nodes_perm ⟨site, hsite, hcone⟩ hfound hwalk
    obtain ⟨p, hcollects, rfl, -⟩ := collectFrom_eq_ok (collectCone_eq_ok hinternal hcollect)
    obtain ⟨hcovered, -⟩ := hcollects.covered (hevolves.bounded h.bounded) hinternal rfl
    refine ⟨fun v hv => (walk_eq_ok hwalk).1.legal.internal_of_mem (hperm.mem_iff.1 hv), ?_⟩
    intro v hv hsupport
    exact hcovered.not_mem_support (List.mem_reverse.1 hv) (List.mem_reverse.1 hsupport)
  · obtain rfl := eq_empty_of_not_hasCone hroot hfound
    exact ⟨fun v hv => absurd hv List.not_mem_nil, List.disjoint_nil_left _⟩

/-- One size query. A label adds the cone to what is marked and returns its full size; the other
queries mark nothing. -/
theorem Fits.exists_size (h : net.Fits ext s) (hroot : net.Present root) {q : ConeQuery}
    (hq : q.asksSize = true) (hfound : maximumCone {} net root s = .ok (found, s')) :
    ∃ k s₁, q.run net root s = .ok (.size k, s₁) ∧ s.Kept s₁ ∧
      (q = .labelled → k = found.nodes.length) ∧
      ∀ v, s₁.marks.isMarked v = true ↔
        s.marks.isMarked v = true ∨ (q = .labelled ∧ v ∈ found.nodes) := by
  obtain ⟨site, hsite⟩ := hroot
  obtain ⟨t, hwalk⟩ := exists_walk_of_accounted (h.consistent.accounted h.counts) h.counts
    h.acyclic ⟨site, hsite⟩ q.walk.filter q.walk.traversal
  obtain ⟨s₁, hsize, hkept, hmarked⟩ :=
    exists_sizeByWalk_marks q.walk h.counts h.marks hsite hwalk
  have hcone : q = .labelled → site.hasCone = true → found.nodes.Perm t.passed := by
    rintro rfl hcone
    exact h.nodes_perm ⟨site, hsite, hcone⟩ hfound hwalk
  have hnone : site.hasCone ≠ true → found = .empty := by
    refine fun hcone => eq_empty_of_not_hasCone ?_ hfound
    rintro ⟨site', hsite', hcone'⟩
    rw [hsite] at hsite'
    cases hsite'
    exact hcone hcone'
  refine ⟨_, s₁, by rw [ConeQuery.run_of_asksSize hq, hsize]; rfl, hkept, fun hlabel => ?_,
    fun v => (hmarked v).trans (or_congr_right ?_)⟩
  · split
    · rename_i hhas
      exact (hcone hlabel hhas).length_eq.symm
    · rename_i hhas
      rw [hnone hhas]
      rfl
  · rw [ConeQuery.label_walk_iff]
    refine and_congr_right fun hlabel => ?_
    by_cases hhas : site.hasCone = true
    · rw [(hcone hlabel hhas).mem_iff, and_iff_right hhas]
    · simp [hnone hhas, hhas, Cone.empty]

/-- Size queries one after another. What is marked grows by the cones that are labelled, and each
label returns the full size of its cone. -/
theorem Fits.askAll_labels (h : net.Fits ext s) {cones : Nat → Cone}
    {asked : List (Nat × ConeQuery)}
    (hasked : ∀ ask ∈ asked, net.Present ask.1 ∧ ask.2.asksSize = true)
    (hcones : ∀ g, net.Present g → ∃ s', maximumCone {} net g s = .ok (cones g, s')) :
    ∃ answers s', askAll net asked s = .ok (answers, s') ∧ s.Kept s' ∧
      (∀ v, s'.marks.isMarked v = true ↔ s.marks.isMarked v = true ∨
        ∃ g, (g, .labelled) ∈ asked ∧ v ∈ (cones g).nodes) ∧
      List.Forall₂ (fun ask a => ∃ k, a = .size k ∧
        (ask.2 = .labelled → k = (cones ask.1).nodes.length)) asked answers := by
  induction asked generalizing s with
  | nil => exact ⟨[], s, rfl, .refl s, fun v => by simp, .nil⟩
  | cons ask asked ih =>
    obtain ⟨root, q⟩ := ask
    obtain ⟨hroot, hq⟩ := hasked _ List.mem_cons_self
    obtain ⟨s', hfound⟩ := hcones root hroot
    obtain ⟨k, s₁, hrun, hkept, hsize, hmarked⟩ := h.exists_size hroot hq hfound
    have hcones₁ : ∀ g, net.Present g → ∃ s', maximumCone {} net g s₁ = .ok (cones g, s') := by
      intro g hg
      obtain ⟨s', hfound⟩ := hcones g hg
      exact h.maximumCone_of_kept hkept hfound .recursive
    obtain ⟨answers, s₂, hrest, hkept', hmarked', hsizes⟩ := ih (h.of_kept hkept)
      (fun ask hask => hasked ask (List.mem_cons_of_mem _ hask)) hcones₁
    refine ⟨.size k :: answers, s₂, ?_, hkept.trans hkept', fun v => ?_,
      .cons ⟨k, rfl, hsize⟩ hsizes⟩
    · simp only [askAll, hrun, ok_bind, hrest, pure_eq_ok]
    · rw [hmarked' v, hmarked v, or_assoc]
      refine or_congr_right ?_
      constructor
      · rintro (⟨rfl, hv⟩ | ⟨g, hg, hv⟩)
        · exact ⟨root, List.mem_cons_self, hv⟩
        · exact ⟨g, List.mem_cons_of_mem _ hg, hv⟩
      · rintro ⟨g, hg, hv⟩
        rcases List.mem_cons.1 hg with heq | hg
        · cases heq
          exact Or.inl ⟨rfl, hv⟩
        · exact Or.inr ⟨g, hg, hv⟩

end Network

/-- Begins a generation, and asks about one root after another. -/
def askAnew (asked : List (Nat × ConeQuery)) (net : Network) (s : Stores) :
    Except Fault (List ConeAnswer × Stores) := do
  let s ← s.updateMarks fun m => .ok m.advance
  askAll net asked s

namespace Aig

variable {aig : Aig}

theorem present_iff_lt {n : Nat} : aig.network.Present n ↔ n < aig.nodes.size := by
  simp only [Network.Present, network, networkOf, Option.map_eq_some_iff]
  constructor
  · rintro ⟨site, node, hnode, -⟩
    exact (Array.getElem?_eq_some_iff.1 hnode).1
  · intro hn
    exact ⟨_, _, Array.getElem?_eq_getElem hn, rfl⟩

/-- Labels accumulate. Over a graph that was built, loaded and asked in any way, and whatever its
nodes have been marked with, let a generation begin and then labels and sizes be asked for in any
order, about any nodes. All of it returns, and no count has changed. A node is then marked just if
it lies in the cone of a node that was labelled; so no leaf is marked, and what bounds one cone is
marked through another cone only. Each label returns the full size of its own cone. -/
theorem labels_accumulate (haig : aig.Reached) {marks : Marks}
    (hmarks : marks.size = aig.nodes.size) (hbounded : marks.Bounded)
    {asked : List (Nat × ConeQuery)}
    (hasked : ∀ ask ∈ asked, ask.1 < aig.nodes.size ∧ ask.2.asksSize = true) :
    ∃ cones : Nat → Cone,
      (∀ g < aig.nodes.size,
        ∃ s, maximumCone {} aig.network g aig.stores = .ok (cones g, s)) ∧
      ∃ answers aig', Container.query (askAnew asked)
          { aig with stores := ⟨aig.stores.counts, marks⟩ } = .ok (answers, aig') ∧
        aig'.stores.counts = aig.stores.counts ∧
        (∀ v, aig'.stores.marks.isMarked v = true ↔
          ∃ g, (g, .labelled) ∈ asked ∧ v ∈ (cones g).nodes) ∧
        (∀ v, aig'.stores.marks.isMarked v = true → aig.network.Internal v) ∧
        (∀ g v, (g, .labelled) ∈ asked → v ∈ (cones g).support →
          aig'.stores.marks.isMarked v = true →
          ∃ g', g' ≠ g ∧ (g', .labelled) ∈ asked ∧ v ∈ (cones g').nodes) ∧
        List.Forall₂ (fun ask a => ∃ k, a = .size k ∧
          (ask.2 = .labelled → k = (cones ask.1).nodes.length)) asked answers := by
  have hsound := haig.sound
  have hkept : aig.stores.Kept ⟨aig.stores.counts, marks.advance⟩ :=
    ⟨rfl, by rw [Marks.size_advance, hmarks, hsound.shaped.marks_size],
      fun _ => Marks.bounded_advance hbounded, fun _ => Marks.generation_advance_pos marks⟩
  have hfound : ∀ g, ∃ found : Cone, aig.network.Present g →
      ∃ s, maximumCone {} aig.network g aig.stores = .ok (found, s) := by
    intro g
    by_cases hg : aig.network.Present g
    · obtain ⟨found, s, h, -⟩ := hsound.fits.exists_maximumCone {} hg
      exact ⟨found, fun _ => ⟨s, h⟩⟩
    · exact ⟨.empty, fun h => absurd h hg⟩
  choose cones hcones using hfound
  have hcones' : ∀ g, aig.network.Present g → ∃ s,
      maximumCone {} aig.network g ⟨aig.stores.counts, marks.advance⟩ = .ok (cones g, s) := by
    intro g hg
    obtain ⟨s, h⟩ := hcones g hg
    exact hsound.fits.maximumCone_of_kept hkept h .recursive
  obtain ⟨answers, s', hasks, hkept', hmarked, hanswers⟩ :=
    (hsound.fits.of_kept hkept).askAll_labels (fun ask hask =>
      ⟨present_iff_lt.2 (hasked ask hask).1, (hasked ask hask).2⟩) hcones'
  have hmarked' : ∀ v, s'.marks.isMarked v = true ↔
      ∃ g, (g, .labelled) ∈ asked ∧ v ∈ (cones g).nodes := by
    intro v
    simp [hmarked v, Marks.isMarked_advance hbounded]
  have hlabelled : ∀ g, (g, .labelled) ∈ asked → (∀ v ∈ (cones g).nodes, aig.network.Internal v) ∧
      (cones g).nodes.Disjoint (cones g).support := by
    intro g hg
    obtain ⟨s, h⟩ := hcones g (present_iff_lt.2 (hasked _ hg).1)
    exact hsound.fits.cone_internal h
  refine ⟨cones, fun g hg => hcones g (present_iff_lt.2 hg), answers, { aig with stores := s' },
    ?_, hkept'.counts_eq, hmarked', fun v hv => ?_, fun g v hg hsupport hv => ?_, hanswers⟩
  · exact @query_of_eq_ok { aig with stores := ⟨aig.stores.counts, marks⟩ } _ _ _ _ hasks
  · obtain ⟨g, hg, hmem⟩ := (hmarked' v).1 hv
    exact (hlabelled g hg).1 v hmem
  · obtain ⟨g', hg', hmem⟩ := (hmarked' v).1 hv
    refine ⟨g', ?_, hg', hmem⟩
    rintro rfl
    exact (hlabelled g' hg).2 hmem hsupport

/-- Labels of a gate, of a gate that reads it and of an input, with sizes in between. -/
def nestedLabels : List (Nat × ConeQuery) :=
  [(2, .labelled), (3, .size), (3, .labelled), (2, .sizeToInverters), (1, .labelled)]

/-- Every node was marked before. The second label adds one gate, and still returns the size of its
whole cone, to which the constant belongs; the input is not marked. -/
theorem labels_accumulate_stacked :
    ∃ aig', Container.query (askAnew nestedLabels)
        { stacked with stores := ⟨stacked.stores.counts, ⟨5, #[5, 5, 5, 5]⟩⟩ } =
          .ok ([.size 2, .size 3, .size 3, .size 1, .size 0], aig') ∧
      ∀ v, aig'.stores.marks.isMarked v = true ↔ v ∈ [0, 2] ∨ v ∈ [0, 2, 3] := by
  obtain ⟨cones, hcones, answers, aig', hquery, -, hmarked, -⟩ := @labels_accumulate stacked
    reached_stacked ⟨5, #[5, 5, 5, 5]⟩ rfl (by simp [Marks.Bounded]) nestedLabels (by decide)
  have hcone : ∀ g found s, g < stacked.nodes.size →
      maximumCone {} stacked.network g stacked.stores = .ok (found, s) → cones g = found := by
    intro g found s hg h
    obtain ⟨s', h'⟩ := hcones g hg
    exact (Prod.mk.inj (Except.ok.inj (h'.symm.trans h))).1
  have hlow : cones 2 = ⟨[0, 2], [1]⟩ :=
    hcone 2 _ ⟨stacked.stores.counts, ⟨2, #[2, 2, 2, 0]⟩⟩ (by decide) (by rfl)
  have hhigh : cones 3 = ⟨[0, 2, 3], [1]⟩ :=
    hcone 3 _ ⟨stacked.stores.counts, ⟨2, #[2, 2, 2, 2]⟩⟩ (by decide) (by rfl)
  have hinput : cones 1 = .empty := hcone 1 _ stacked.stores (by decide) (by rfl)
  have hruns : Container.query (askAnew nestedLabels)
      { stacked with stores := ⟨stacked.stores.counts, ⟨5, #[5, 5, 5, 5]⟩⟩ } =
        .ok ([.size 2, .size 3, .size 3, .size 1, .size 0],
          { stacked with stores := ⟨stacked.stores.counts, ⟨6, #[6, 5, 6, 6]⟩⟩ }) := by rfl
  obtain ⟨rfl, rfl⟩ := Prod.mk.inj (Except.ok.inj (hruns.symm.trans hquery))
  refine ⟨_, hquery, fun v => (hmarked v).trans ?_⟩
  simp [nestedLabels, hlow, hhigh, hinput, Cone.empty]

end Aig

end FanoutCone
