import FanoutCone.Proofs.Queries
import FanoutCone.Aig

/-!
# Roots without a cone

A leaf has no cone, and every query answers at once that it is empty. A node that
is internal but has no fanins has no cone either. The sizes and the maximum cone
look at the fanins and answer as for a leaf. The other queries only ask whether
the root is a leaf: they dereference such a root, which passes nothing but the
root, begin a generation of marks, and answer with the root as its own cone.
-/
namespace FanoutCone

variable {net : Network} {root : Nat} {site : Site} {s s' : Stores}

namespace ConeQuery

/-- Whether a query looks at the fanins of its root before it walks. -/
def looksAtFanins : ConeQuery → Bool
  | .size | .sizeToInverters | .labelled | .sizeWith _ | .maximum _ => true
  | .protecting _ _ | .inner _ | .stamped _ => false

/-- The answer that a cone of some size with the given nodes and no support has. -/
def answer (size : Nat) (nodes : List Nat) : ConeQuery → ConeAnswer
  | .size | .sizeToInverters | .labelled | .sizeWith _ => .size size
  | .maximum _ => .cone ⟨nodes, []⟩
  | .protecting _ _ | .inner _ => .nodes nodes
  | .stamped _ => .stamped size nodes

end ConeQuery

theorem Site.eq_of_not_hasCone (hcone : site.hasCone = false) (hkind : site.kind = .internal) :
    site = ⟨.internal, []⟩ := by
  obtain ⟨kind, fanins⟩ := site
  subst hkind
  simpa [hasCone] using hcone

theorem Marks.generation_advance_ne (m : Marks) : m.advance.generation ≠ m.generation := by
  obtain ⟨generation, stamps⟩ := m
  by_cases hlast : generation < maxGeneration
  · simp [advance, hlast]
  · simp only [advance, hlast, if_false]
    rintro rfl
    exact hlast (by decide)

/-- What a collection does at a root without fanins: it begins a generation and finds the root, if
the root is not marked yet. -/
def stampRoot (root : Nat) (s : Stores) : Except Fault (List Nat × Stores) := do
  let marks := s.marks.advance
  if ← marks.isCurrent root then .ok ([], ⟨s.counts, marks⟩)
  else (marks.mark root).map fun marks => ([root], ⟨s.counts, marks⟩)

theorem generation_stampRoot {nodes : List Nat} (h : stampRoot root s = .ok (nodes, s')) :
    s'.marks.generation = s.marks.advance.generation := by
  obtain ⟨seen, -, h⟩ := bind_eq_ok_iff.1 h
  cases seen with
  | true =>
    cases h
    rfl
  | false =>
    obtain ⟨marks, hmark, heq⟩ := map_eq_ok_iff.1 h
    cases heq
    exact Marks.generation_mark hmark

/-- Where no stamp lies above the generation, the root is found and becomes the only mark. -/
theorem exists_stampRoot (hroot : root < s.marks.size) (hbounded : s.marks.Bounded) :
    ∃ marks, stampRoot root s = .ok ([root], ⟨s.counts, marks⟩) ∧
      ∀ v, marks.isMarked v = true ↔ v = root := by
  have hfresh := Marks.isMarked_advance hbounded
  have hlt : root < s.marks.advance.size := by rwa [Marks.size_advance]
  obtain ⟨marks, hmark⟩ : ∃ marks, s.marks.advance.mark root = .ok marks :=
    ⟨_, Marks.mark_eq_ok_iff.2 ⟨hlt, rfl⟩⟩
  have hcurrent : s.marks.advance.isCurrent root = .ok false :=
    Marks.isCurrent_eq_ok_iff.2 ⟨hlt, (hfresh root).symm⟩
  refine ⟨marks, by simp [stampRoot, hcurrent, hmark], fun v => ?_⟩
  rw [Marks.isMarked_mark hmark, hfresh, Bool.or_false, beq_iff_eq]

section NoFanins

variable (hroot : net.site? root = some ⟨.internal, []⟩)

include hroot

/-- A walk at a root without fanins passes the root and moves no count. -/
theorem walk_of_no_fanins (filter : EdgeFilter) (traversal : Traversal) (direction : Direction)
    (counts : FanoutCounts) :
    walk net filter traversal direction root counts = .ok ⟨[root], counts⟩ := by
  cases traversal with
  | recursive => simp [walk, descend, Network.site, hroot, crossEach, Trail.pass]
  | iterative => simp [walk, drain, Network.site, hroot, crossAll, Trail.pass]

theorem collectFrom_of_no_fanins (use : BoundaryUse) (traversal : Traversal) (s : Stores) :
    collectFrom use none traversal net root s =
      (stampRoot root s).map fun (nodes, s') => (⟨nodes, []⟩, s') := by
  obtain ⟨counts, marks⟩ := s
  rw [collectFrom, Collection.run_eq_recursive]
  simp only [Collection.run, Collection.visit, Collection.meet, Collection.classify, stampRoot]
  cases hseen : marks.advance.isCurrent root with
  | error fault => rfl
  | ok seen =>
    cases seen with
    | true => rfl
    | false =>
      cases hmark : marks.advance.mark root with
      | error fault => simp [Collection.isBoundary, Collection.isFull, Progress.expand, hmark]
      | ok marks' =>
        simp [Collection.isBoundary, Collection.isFull, Progress.expand, hmark, Network.site, hroot,
          Collection.visitEach, Progress.emit]

/-- An excursion from a root without fanins is what it does at its far end, and counts one node. -/
theorem excursion_of_no_fanins {α : Type} (traversal : Traversal)
    (inside : Stores → Except Fault (α × Stores)) (s : Stores) :
    CountingWalk.excursion { traversal := traversal } { traversal := traversal } net root inside s =
      (inside s).map fun (a, s') => ((1, a), s') := by
  have hrun : ∀ (direction : Direction) (s : Stores),
      CountingWalk.run { traversal := traversal } direction net root s = .ok (1, s) := by
    intro direction s
    simp [CountingWalk.run, walk_of_no_fanins hroot]
  simp only [CountingWalk.excursion, CountingWalk.dereference, CountingWalk.reference, hrun,
    ok_bind]
  cases inside s with
  | error fault => rfl
  | ok result => rfl

theorem stampCone_of_no_fanins (traversal : Traversal) (s : Stores) :
    stampCone traversal net root s =
      (stampRoot root s).map fun (nodes, s') => ((1, nodes), s') := by
  simp only [stampCone, Network.isLeaf, Network.site, hroot, map_ok, ok_bind,
    excursion_of_no_fanins hroot, collectFrom_of_no_fanins hroot]
  cases stampRoot root s with
  | error fault => rfl
  | ok result => rfl

/-- Leaves that are protected have their counts raised and lowered again. -/
theorem protectedCone_of_no_fanins (leaves : List Nat) (traversal : Traversal) (s : Stores) :
    protectedCone leaves traversal net root s =
      s.counts.incrementAll leaves >>= fun _ => stampRoot root s := by
  obtain ⟨counts, marks⟩ := s
  have hleaf : net.isLeaf root = .ok false := by simp [Network.isLeaf, Network.site, hroot]
  simp only [protectedCone, hleaf, ok_bind, Bool.false_eq_true, if_false, Stores.updateCounts,
    excursion_of_no_fanins hroot, collectFrom_of_no_fanins hroot]
  cases hraised : counts.incrementAll leaves with
  | error fault => rfl
  | ok raised =>
    have hlowered := FanoutCounts.decrementAll_of_incrementAll hraised
    simp only [ok_bind, stampRoot]
    cases marks.advance.isCurrent root with
    | error fault => rfl
    | ok seen =>
      cases seen with
      | true => simp [hlowered]
      | false => cases marks.advance.mark root <;> simp [hlowered]

/-- A query that does not look at the fanins finds the root. -/
theorem ConeQuery.run_of_no_fanins {q : ConeQuery} (hq : q.looksAtFanins = false) (s : Stores) :
    q.run net root s = s.counts.incrementAll q.leaves >>= fun _ =>
      (stampRoot root s).map fun (nodes, s') => (q.answer 1 nodes, s') := by
  have hprotected : ∀ leaves traversal,
      (protectedCone leaves traversal net root s).map (Prod.map ConeAnswer.nodes id) =
        s.counts.incrementAll leaves >>= fun _ =>
          (stampRoot root s).map fun (nodes, s') => (.nodes nodes, s') := by
    intro leaves traversal
    rw [protectedCone_of_no_fanins hroot]
    cases s.counts.incrementAll leaves with
    | error fault => rfl
    | ok raised => rfl
  cases q with
  | size | sizeToInverters | labelled | sizeWith | maximum => cases hq
  | protecting leaves traversal => exact hprotected leaves traversal
  | inner traversal => exact hprotected [] traversal
  | stamped traversal =>
    simp only [run, stampCone_of_no_fanins hroot]
    cases stampRoot root s with
    | error fault => rfl
    | ok result => rfl

end NoFanins

/-- A query that finds at its guard that the root has no cone is done. -/
theorem ConeQuery.run_of_guard (q : ConeQuery) (hsite : net.site? root = some site)
    (hcone : site.hasCone = false) (hguard : site.kind = .leaf ∨ q.looksAtFanins = true)
    (s : Stores) : q.run net root s = .ok (q.answer 0 [], s) := by
  have hsite' : net.site root = .ok site := Network.site_eq_ok_iff.2 hsite
  have hleaf : q.looksAtFanins = false → net.isLeaf root = .ok true := fun hq => by
    have hkind := hguard.resolve_right (by simp [hq])
    simp [Network.isLeaf, hsite', hkind]
  cases q with
  | size | sizeToInverters | labelled | sizeWith =>
    simp [run, coneSize, coneSizeToInverters, labelCone, coneSizeWith, sizeByWalk, hsite', hcone,
      answer]
  | maximum => simp [run, maximumCone, hsite', hcone, answer, Cone.empty]
  | protecting | inner => simp [run, innerCone, protectedCone, hleaf rfl, answer]
  | stamped => simp [run, stampCone, hleaf rfl, answer]

/-- What every query does at a root without a cone. It answers that the cone is empty and leaves the
stores alone exactly where the root is a leaf or the query looks at the fanins. The others, at an
internal root without fanins and with room for the protected nodes, answer that the root is its own
cone; they keep the counts, and where no stamp lies above the generation they forget every mark and
mark the root. In the same way nothing is appended to a list only where the root is a leaf. -/
theorem run_of_not_hasCone (hsite : net.site? root = some site) (hcone : site.hasCone = false)
    (s : Stores) :
    (∀ q : ConeQuery, q.run net root s = .ok (q.answer 0 [], s) ↔
        site.kind = .leaf ∨ q.looksAtFanins = true) ∧
      (∀ held traversal, stampConeOnto held traversal net root s = .ok ((0, held), s) ↔
        site.kind = .leaf) ∧
      ∀ q : ConeQuery, site.kind = .internal → q.looksAtFanins = false →
        (∀ v ∈ q.leaves, v < s.counts.size) → s.counts.RoomFor q.leaves →
          root < s.marks.size → s.marks.Bounded →
          ∃ marks, q.run net root s = .ok (q.answer 1 [root], ⟨s.counts, marks⟩) ∧
            ∀ v, marks.isMarked v = true ↔ v = root := by
  have hbare : site.kind = .internal → net.site? root = some ⟨.internal, []⟩ := fun hkind => by
    rw [hsite, Site.eq_of_not_hasCone hcone hkind]
  refine ⟨fun q => ⟨fun hrun => ?_, fun hguard => q.run_of_guard hsite hcone hguard s⟩,
    fun held traversal => ⟨fun hrun => ?_, fun hkind => ?_⟩,
    fun q hkind hq hleaves hroom hroot hbounded => ?_⟩
  · cases hkind : site.kind with
    | leaf => exact Or.inl rfl
    | internal =>
      by_contra hguard
      have hq : q.looksAtFanins = false := by simpa using hguard
      rw [ConeQuery.run_of_no_fanins (hbare hkind) hq] at hrun
      obtain ⟨raised, -, hrun⟩ := bind_eq_ok_iff.1 hrun
      obtain ⟨⟨nodes, s'⟩, hstamp, heq⟩ := map_eq_ok_iff.1 hrun
      obtain rfl : s' = s := congrArg Prod.snd heq
      exact s'.marks.generation_advance_ne (generation_stampRoot hstamp).symm
  · cases hkind : site.kind with
    | leaf => rfl
    | internal =>
      obtain ⟨⟨⟨size, nodes⟩, s₁⟩, hstamp, heq⟩ := bind_eq_ok_iff.1 hrun
      rw [stampCone_of_no_fanins (hbare hkind)] at hstamp
      obtain ⟨⟨nodes', s₂⟩, -, hsize⟩ := map_eq_ok_iff.1 hstamp
      cases hsize
      cases heq
  · have hstamp : stampCone traversal net root s = .ok ((0, []), s) := by
      have hleaf : net.isLeaf root = .ok true := by
        simp [Network.isLeaf, Network.site, hsite, hkind]
      simp [stampCone, hleaf]
    simp [stampConeOnto, hstamp]
  · obtain ⟨raised, hraised⟩ := FanoutCounts.exists_incrementAll hleaves hroom
    obtain ⟨marks, hstamp, hmarked⟩ := exists_stampRoot hroot hbounded
    refine ⟨marks, ?_, hmarked⟩
    rw [ConeQuery.run_of_no_fanins (hbare hkind) hq, hraised, ok_bind, hstamp, map_ok]

def constantAndInput : Network := Aig.networkOf #[.const, .input 0]

def inputMarked : Stores := ⟨⟨#[0, 0]⟩, ⟨1, #[0, 1]⟩⟩

theorem run_of_not_hasCone_constant :
    (ConeQuery.maximum {}).run constantAndInput 0 inputMarked = .ok (.cone ⟨[], []⟩, inputMarked) ∧
      (stampConeOnto (some []) .recursive constantAndInput 1 inputMarked =
        .ok ((0, some []), inputMarked)) ∧
      ∃ marks, (ConeQuery.protecting [1] .iterative).run constantAndInput 0 inputMarked =
          .ok (.nodes [0], ⟨inputMarked.counts, marks⟩) ∧ ∀ v, marks.isMarked v = true ↔ v = 0 := by
  have hconstant : constantAndInput.site? 0 = some ⟨.internal, []⟩ := rfl
  have hinput : constantAndInput.site? 1 = some ⟨.leaf, []⟩ := rfl
  have hbounded : inputMarked.marks.Bounded := by
    intro stamp hstamp
    simp only [inputMarked, List.mem_toArray, List.mem_cons, List.not_mem_nil, or_false]
      at hstamp ⊢
    omega
  obtain ⟨hempty, -, hown⟩ := run_of_not_hasCone hconstant rfl inputMarked
  obtain ⟨-, hheld, -⟩ := run_of_not_hasCone hinput rfl inputMarked
  exact ⟨(hempty (.maximum {})).2 (Or.inr rfl), (hheld (some []) .recursive).2 rfl,
    hown (.protecting [1] .iterative) rfl rfl (by decide) (by decide) (by decide) hbounded⟩

/-- The constant has no cone, but a query that only asks whether it is a leaf finds one and forgets
every mark. -/
theorem constant_in_own_cone :
    (ConeQuery.maximum {}).run constantAndInput 0 inputMarked = .ok (.cone ⟨[], []⟩, inputMarked) ∧
      ∃ s, (ConeQuery.inner .recursive).run constantAndInput 0 inputMarked =
          .ok (.nodes [0], s) ∧
        inputMarked.marks.isMarked 1 = true ∧ s.marks.isMarked 1 = false :=
  ⟨rfl, _, rfl, rfl, rfl⟩

end FanoutCone
