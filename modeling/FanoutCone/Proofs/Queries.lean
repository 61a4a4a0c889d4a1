import FanoutCone.FaninTable
import FanoutCone.Proofs.Balance

/-!
# Queries

The entry points of the engine ask one kind of question in different ways: a
walk out, perhaps a collection, and a walk back. `ConeQuery` lists them, so that
a fact about all of them is stated once. The walk out of a query runs over the
counts that protect the leaves of the query, if it has any.
-/
namespace FanoutCone

/-- A question about the cone of a node. -/
inductive ConeQuery where
  | size
  | sizeToInverters
  | labelled
  | sizeWith (settings : ConeSettings)
  | maximum (settings : ConeSettings)
  | protecting (leaves : List Nat) (traversal : Traversal)
  | inner (traversal : Traversal)
  | stamped (traversal : Traversal)
deriving DecidableEq

inductive ConeAnswer where
  | size (size : Nat)
  | cone (found : Cone)
  | nodes (nodes : List Nat)
  | stamped (size : Nat) (nodes : List Nat)
deriving DecidableEq

namespace ConeQuery

def run (net : Network) (root : Nat) (s : Stores) :
    ConeQuery → Except Fault (ConeAnswer × Stores)
  | .size => (coneSize net root s).map (Prod.map .size id)
  | .sizeToInverters => (coneSizeToInverters net root s).map (Prod.map .size id)
  | .labelled => (labelCone net root s).map (Prod.map .size id)
  | .sizeWith settings => (coneSizeWith settings net root s).map (Prod.map .size id)
  | .maximum settings => (maximumCone settings net root s).map (Prod.map .cone id)
  | .protecting leaves traversal =>
    (protectedCone leaves traversal net root s).map (Prod.map .nodes id)
  | .inner traversal => (innerCone traversal net root s).map (Prod.map .nodes id)
  | .stamped traversal =>
    (stampCone traversal net root s).map (Prod.map (fun r => .stamped r.1 r.2) id)

def walk : ConeQuery → CountingWalk
  | .size => {}
  | .sizeToInverters => { filter := .uncomplemented }
  | .labelled => { label := true }
  | .sizeWith settings | .maximum settings => settings.walk
  | .protecting _ traversal | .inner traversal | .stamped traversal => { traversal := traversal }

/-- The nodes kept out of the cone. -/
def leaves : ConeQuery → List Nat
  | .protecting leaves _ => leaves
  | .size | .sizeToInverters | .labelled | .sizeWith _ | .maximum _ | .inner _ | .stamped _ => []

/-- Whether the walk out takes a parent from a node that has none. -/
def Underflows (q : ConeQuery) (net : Network) (root : Nat) (counts : FanoutCounts) : Prop :=
  ∃ raised breakdown v, counts.incrementAll q.leaves = .ok raised ∧
    FanoutCone.walk net q.walk.filter q.walk.traversal .dereference root raised =
      .error breakdown ∧ breakdown.fault = .underflow v

end ConeQuery

section
variable {net : Network} {root : Nat} {s : Stores} {site : Site} {t : Trail}

theorem exists_sizeByWalk {w : CountingWalk} (hcounts : net.Closed s.counts.size)
    (hmarks : net.Closed s.marks.size) (hsite : net.site? root = some site)
    (hwalk : walk net w.filter w.traversal .dereference root s.counts = .ok t) :
    ∃ s', sizeByWalk w net root s = .ok (if site.hasCone then t.passed.length else 0, s') ∧
      s.Kept s' := by
  have hsite' : net.site root = .ok site := Network.site_eq_ok_iff.2 hsite
  cases hcone : site.hasCone with
  | false => exact ⟨s, by simp [sizeByWalk, hsite', hcone], .refl s⟩
  | true =>
    obtain ⟨a, s', h, hkept⟩ := CountingWalk.exists_excursion w { w with label := false }
      (fun s => .ok ((), s)) hcounts hmarks ⟨site, hsite⟩ rfl hwalk
      fun s₁ _ _ => ⟨(), s₁, rfl, .refl s₁⟩
    have hroot : root ∈ t.passed := by
      refine (walk_eq_ok hwalk).1.mem_iff.2 ⟨⟨site, hsite, ?_⟩, Or.inl rfl⟩
      simp only [Site.hasCone, Bool.and_eq_true, beq_iff_eq] at hcone
      exact hcone.1
    have hpos : 0 < t.passed.length := List.length_pos_of_mem hroot
    exact ⟨s', by simp [sizeByWalk, hsite', hcone, h, hpos], hkept⟩

theorem exists_maximumCone {settings : ConeSettings} (hcounts : net.Closed s.counts.size)
    (hmarks : net.Closed s.marks.size) (hroot : net.Present root)
    (hwalk : walk net settings.filter settings.traversal .dereference root s.counts = .ok t) :
    ∃ found s', maximumCone settings net root s = .ok (found, s') ∧ s.Kept s' := by
  obtain ⟨site, hsite⟩ := hroot
  have hsite' : net.site root = .ok site := Network.site_eq_ok_iff.2 hsite
  cases hcone : site.hasCone with
  | false => exact ⟨.empty, s, by simp [maximumCone, hsite', hcone], .refl s⟩
  | true =>
    obtain ⟨found, s', h, hkept⟩ := CountingWalk.exists_excursion settings.walk settings.walk
      (collectCone settings.cutLimit settings.traversal net root) hcounts hmarks ⟨site, hsite⟩ rfl
      hwalk fun s₁ hcounts₁ hmarks₁ =>
        exists_collectCone settings.cutLimit settings.traversal hcounts₁ hmarks₁ ⟨site, hsite⟩
    exact ⟨found, s', by simp [maximumCone, hsite', hcone, h], hkept⟩

theorem exists_protectedCone {leaves : List Nat} {traversal : Traversal} {raised : FanoutCounts}
    (hcounts : net.Closed s.counts.size) (hmarks : net.Closed s.marks.size)
    (hroot : net.Present root) (hraised : s.counts.incrementAll leaves = .ok raised)
    (hwalk : walk net .all traversal .dereference root raised = .ok t) :
    ∃ nodes s', protectedCone leaves traversal net root s = .ok (nodes, s') ∧ s.Kept s' := by
  obtain ⟨site, hsite⟩ := hroot
  obtain ⟨counts, marks⟩ := s
  cases hkind : site.kind with
  | leaf =>
    refine ⟨[], ⟨counts, marks⟩, ?_, .refl _⟩
    simp [protectedCone, Network.isLeaf, Network.site, hsite, hkind]
  | internal =>
    have hcounts' : net.Closed raised.size := by
      rwa [(FanoutCounts.incrementAll_eq_ok hraised).1]
    obtain ⟨found, ⟨counts', marks'⟩, h, hkept⟩ := CountingWalk.exists_excursion
      (s := ⟨raised, marks⟩) { traversal := traversal } { traversal := traversal }
      (collectFrom .listed none traversal net root) hcounts' hmarks ⟨site, hsite⟩ rfl hwalk
      fun s₁ hcounts₁ hmarks₁ =>
        exists_collectFrom .listed none traversal hcounts₁ hmarks₁ ⟨site, hsite⟩
    obtain rfl : counts' = raised := hkept.counts_eq
    have hlowered := FanoutCounts.decrementAll_of_incrementAll hraised
    refine ⟨found.nodes, ⟨counts, marks'⟩, ?_, rfl, hkept.evolves⟩
    dsimp only at hraised
    simp [protectedCone, Network.isLeaf, Network.site, hsite, hkind, Stores.updateCounts, hraised,
      h, hlowered]

theorem exists_stampCone {traversal : Traversal} (hcounts : net.Closed s.counts.size)
    (hmarks : net.Closed s.marks.size) (hroot : net.Present root)
    (hwalk : walk net .all traversal .dereference root s.counts = .ok t) :
    ∃ a s', stampCone traversal net root s = .ok (a, s') ∧ s.Kept s' := by
  obtain ⟨site, hsite⟩ := hroot
  cases hkind : site.kind with
  | leaf =>
    refine ⟨(0, []), s, ?_, .refl s⟩
    simp [stampCone, Network.isLeaf, Network.site, hsite, hkind]
  | internal =>
    obtain ⟨found, s', h, hkept⟩ := CountingWalk.exists_excursion
      { traversal := traversal } { traversal := traversal }
      (collectFrom .ignored none traversal net root) hcounts hmarks ⟨site, hsite⟩ rfl hwalk
      fun s₁ hcounts₁ hmarks₁ =>
        exists_collectFrom .ignored none traversal hcounts₁ hmarks₁ ⟨site, hsite⟩
    refine ⟨(t.passed.length, found.nodes), s', ?_, hkept⟩
    simp [stampCone, Network.isLeaf, Network.site, hsite, hkind, h]

variable {s' : Stores}

/-- What the cone of a node was collected from: the stores that the dereference has left. -/
theorem maximumCone_eq_ok {settings : ConeSettings} {found : Cone}
    (hroot : net.site? root = some site) (hcone : site.hasCone = true)
    (h : maximumCone settings net root s = .ok (found, s')) :
    ∃ t s₁ s₂, walk net settings.filter settings.traversal .dereference root s.counts = .ok t ∧
      s₁.counts = t.counts ∧ s.marks.Evolves s₁.marks ∧
      collectCone settings.cutLimit settings.traversal net root s₁ = .ok (found, s₂) := by
  unfold maximumCone at h
  rw [Network.site_eq_ok_iff.2 hroot, ok_bind, if_pos hcone] at h
  obtain ⟨⟨⟨size, found'⟩, s₃⟩, hexcursion, h⟩ := bind_eq_ok_iff.1 h
  cases h
  obtain ⟨t, s₁, s₂, hwalk, -, hcounts, hevolves, hinside⟩ :=
    CountingWalk.excursion_eq_ok hexcursion
  exact ⟨t, s₁, s₂, hwalk, hcounts, hevolves, hinside⟩

/-- What a protected cone was collected from: the stores that the dereference over the raised counts
has left. -/
theorem protectedCone_eq_ok {leaves nodes : List Nat} {traversal : Traversal}
    (hroot : net.Internal root) (h : protectedCone leaves traversal net root s = .ok (nodes, s')) :
    ∃ raised t s₁ s₂ found, s.counts.incrementAll leaves = .ok raised ∧
      walk net .all traversal .dereference root raised = .ok t ∧
      s₁.counts = t.counts ∧ s.marks.Evolves s₁.marks ∧
      collectFrom .listed none traversal net root s₁ = .ok (found, s₂) ∧ nodes = found.nodes := by
  obtain ⟨counts, marks⟩ := s
  unfold protectedCone at h
  rw [Network.isLeaf_eq_false_iff.2 hroot, ok_bind, if_neg Bool.false_ne_true] at h
  obtain ⟨s₀, hraise, h⟩ := bind_eq_ok_iff.1 h
  cases hraised : counts.incrementAll leaves with
  | error fault => simp [Stores.updateCounts, hraised] at hraise
  | ok raised =>
    simp only [Stores.updateCounts, hraised, Except.ok.injEq] at hraise
    obtain ⟨⟨⟨size, found⟩, s₃⟩, hexcursion, h⟩ := bind_eq_ok_iff.1 h
    obtain ⟨s₄, -, h⟩ := bind_eq_ok_iff.1 h
    cases h
    obtain ⟨t, s₁, s₂, hwalk, -, hcounts, hevolves, hinside⟩ :=
      CountingWalk.excursion_eq_ok hexcursion
    rw [← hraise] at hwalk hevolves
    exact ⟨raised, t, s₁, s₂, found, rfl, hwalk, hcounts, hevolves, hinside, rfl⟩

/-- What a stamped cone was collected from: the stores that the dereference has left. -/
theorem stampCone_eq_ok {traversal : Traversal} {size : Nat} {nodes : List Nat}
    (hroot : net.Internal root) (h : stampCone traversal net root s = .ok ((size, nodes), s')) :
    ∃ t s₁ s₂ found, walk net .all traversal .dereference root s.counts = .ok t ∧
      s₁.counts = t.counts ∧ s.marks.Evolves s₁.marks ∧
      collectFrom .ignored none traversal net root s₁ = .ok (found, s₂) ∧ nodes = found.nodes := by
  unfold stampCone at h
  rw [Network.isLeaf_eq_false_iff.2 hroot, ok_bind, if_neg Bool.false_ne_true] at h
  obtain ⟨⟨⟨size', found⟩, s₃⟩, hexcursion, h⟩ := bind_eq_ok_iff.1 h
  cases h
  obtain ⟨t, s₁, s₂, hwalk, -, hcounts, hevolves, hinside⟩ :=
    CountingWalk.excursion_eq_ok hexcursion
  exact ⟨t, s₁, s₂, found, hwalk, hcounts, hevolves, hinside, rfl⟩

/-- A query that returns has kept the stores, since its walk out has ended. -/
theorem sizeByWalk_kept {w : CountingWalk} {size : Nat} (hcounts : net.Closed s.counts.size)
    (hmarks : net.Closed s.marks.size) (h : sizeByWalk w net root s = .ok (size, s')) :
    s.Kept s' := by
  have hreturned := h
  obtain ⟨site, hsite, h⟩ := bind_eq_ok_iff.1 h
  cases hcone : site.hasCone with
  | false =>
    simp only [hcone, Bool.false_eq_true, if_false, Except.ok.injEq, Prod.mk.injEq] at h
    rw [← h.2]
    exact .refl s
  | true =>
    rw [hcone, if_pos rfl] at h
    obtain ⟨⟨⟨size', _⟩, s₁⟩, hexcursion, -⟩ := bind_eq_ok_iff.1 h
    obtain ⟨t, -, -, hwalk, -⟩ := CountingWalk.excursion_eq_ok hexcursion
    obtain ⟨s₂, hsame, hkept⟩ := exists_sizeByWalk hcounts hmarks (Network.site_eq_ok hsite) hwalk
    cases hreturned.symm.trans hsame
    exact hkept

theorem maximumCone_kept {settings : ConeSettings} {found : Cone}
    (hcounts : net.Closed s.counts.size) (hmarks : net.Closed s.marks.size)
    (h : maximumCone settings net root s = .ok (found, s')) : s.Kept s' := by
  obtain ⟨site, hsite, hrest⟩ := bind_eq_ok_iff.1 h
  have hroot := Network.site_eq_ok hsite
  cases hcone : site.hasCone with
  | false =>
    simp only [hcone, Bool.false_eq_true, if_false, pure_eq_ok, Except.ok.injEq,
      Prod.mk.injEq] at hrest
    rw [← hrest.2]
    exact .refl s
  | true =>
    obtain ⟨t, -, -, hwalk, -⟩ := maximumCone_eq_ok hroot hcone h
    obtain ⟨found₂, s₂, hsame, hkept⟩ := exists_maximumCone hcounts hmarks ⟨site, hroot⟩ hwalk
    cases h.symm.trans hsame
    exact hkept

theorem protectedCone_kept {leaves nodes : List Nat} {traversal : Traversal}
    (hcounts : net.Closed s.counts.size) (hmarks : net.Closed s.marks.size)
    (h : protectedCone leaves traversal net root s = .ok (nodes, s')) : s.Kept s' := by
  obtain ⟨leaf, hleaf, hrest⟩ := bind_eq_ok_iff.1 h
  cases leaf with
  | true =>
    cases hrest
    exact .refl s
  | false =>
    have hroot := Network.isLeaf_eq_false_iff.1 hleaf
    obtain ⟨raised, t, -, -, -, hraised, hwalk, -⟩ := protectedCone_eq_ok hroot h
    obtain ⟨nodes₂, s₂, hsame, hkept⟩ :=
      exists_protectedCone hcounts hmarks hroot.present hraised hwalk
    cases h.symm.trans hsame
    exact hkept

theorem stampCone_kept {traversal : Traversal} {a : Nat × List Nat}
    (hcounts : net.Closed s.counts.size) (hmarks : net.Closed s.marks.size)
    (h : stampCone traversal net root s = .ok (a, s')) : s.Kept s' := by
  obtain ⟨leaf, hleaf, hrest⟩ := bind_eq_ok_iff.1 h
  cases leaf with
  | true =>
    cases hrest
    exact .refl s
  | false =>
    have hroot := Network.isLeaf_eq_false_iff.1 hleaf
    obtain ⟨size, nodes⟩ := a
    obtain ⟨t, -, -, -, hwalk, -⟩ := stampCone_eq_ok hroot h
    obtain ⟨a₂, s₂, hsame, hkept⟩ := exists_stampCone hcounts hmarks hroot.present hwalk
    cases h.symm.trans hsame
    exact hkept

end

/-- A table is closed when its rows name nodes of the table only. -/
theorem FaninTable.closed_networkOf {rows : Array Site} {bound : Nat}
    (h : rows.size ≤ bound ∧ ∀ site ∈ rows.toList, ∀ fanin ∈ site.fanins,
      fanin.any (fun e => decide (e.node < rows.size)) = true) :
    (networkOf rows).Closed bound := by
  refine ⟨fun hsite => ?_, fun {n site fanin} hsite hfanin => ?_⟩
  · exact (Array.getElem?_eq_some_iff.1 hsite).1.trans_le h.1
  · have hrange := h.2 site (Array.mem_toList_iff.2 (Array.mem_of_getElem? hsite)) fanin hfanin
    obtain ⟨e, rfl, he⟩ := (Option.any_eq_true _ _).1 hrange
    have hlt : e.node < rows.size := of_decide_eq_true he
    exact ⟨e, rfl, rows[e.node], Array.getElem?_eq_getElem hlt⟩

namespace ConeQuery

variable {net : Network} {root : Nat} {s : Stores}

/-- Where the walk out does not underflow, it ends. -/
theorem exists_walk {q : ConeQuery} (hcounts : net.Closed s.counts.size) (hroot : net.Present root)
    (hleaves : ∀ v ∈ q.leaves, v < s.counts.size) (hroom : s.counts.RoomFor q.leaves)
    (hwalk : ¬ q.Underflows net root s.counts) :
    ∃ raised t, s.counts.incrementAll q.leaves = .ok raised ∧
      FanoutCone.walk net q.walk.filter q.walk.traversal .dereference root raised = .ok t := by
  obtain ⟨raised, hraised⟩ := FanoutCounts.exists_incrementAll hleaves hroom
  have hcounts' : net.Closed raised.size := by
    rwa [(FanoutCounts.incrementAll_eq_ok hraised).1]
  cases h : FanoutCone.walk net q.walk.filter q.walk.traversal .dereference root raised with
  | ok t => exact ⟨raised, t, hraised, h⟩
  | error breakdown =>
    obtain ⟨-, v, hfault, -⟩ := walk_eq_error hcounts' hroot h
    exact absurd ⟨raised, breakdown, v, hraised, h, hfault⟩ hwalk

/-- A query whose walk out ends returns and keeps the stores. -/
theorem exists_run (q : ConeQuery) {raised : FanoutCounts} {t : Trail}
    (hcounts : net.Closed s.counts.size) (hmarks : net.Closed s.marks.size)
    (hroot : net.Present root) (hraised : s.counts.incrementAll q.leaves = .ok raised)
    (hwalk : FanoutCone.walk net q.walk.filter q.walk.traversal .dereference root raised = .ok t) :
    ∃ a s', q.run net root s = .ok (a, s') ∧ s.Kept s' := by
  obtain ⟨site, hsite⟩ := hroot
  have hsize : ∀ w : CountingWalk, s.counts = raised →
      FanoutCone.walk net w.filter w.traversal .dereference root raised = .ok t →
      ∃ a s', (sizeByWalk w net root s).map (Prod.map .size id) = .ok ((a : ConeAnswer), s') ∧
        s.Kept s' := by
    rintro w rfl hw
    obtain ⟨s', h, hkept⟩ := exists_sizeByWalk hcounts hmarks hsite hw
    exact ⟨_, s', by rw [h]; rfl, hkept⟩
  cases q with
  | size => exact hsize _ (FanoutCounts.incrementAll_nil_eq_ok hraised) hwalk
  | sizeToInverters => exact hsize _ (FanoutCounts.incrementAll_nil_eq_ok hraised) hwalk
  | labelled => exact hsize _ (FanoutCounts.incrementAll_nil_eq_ok hraised) hwalk
  | sizeWith settings => exact hsize _ (FanoutCounts.incrementAll_nil_eq_ok hraised) hwalk
  | maximum settings =>
    obtain rfl := FanoutCounts.incrementAll_nil_eq_ok hraised
    obtain ⟨found, s', h, hkept⟩ :
        ∃ found s', maximumCone settings net root s = .ok (found, s') ∧ s.Kept s' :=
      exists_maximumCone hcounts hmarks ⟨site, hsite⟩ hwalk
    exact ⟨.cone found, s', by simp [run, h], hkept⟩
  | protecting leaves traversal =>
    obtain ⟨nodes, s', h, hkept⟩ :
        ∃ nodes s', protectedCone leaves traversal net root s = .ok (nodes, s') ∧ s.Kept s' :=
      exists_protectedCone hcounts hmarks ⟨site, hsite⟩ hraised hwalk
    exact ⟨.nodes nodes, s', by simp [run, h], hkept⟩
  | inner traversal =>
    obtain ⟨nodes, s', h, hkept⟩ :
        ∃ nodes s', innerCone traversal net root s = .ok (nodes, s') ∧ s.Kept s' :=
      exists_protectedCone hcounts hmarks ⟨site, hsite⟩ hraised hwalk
    exact ⟨.nodes nodes, s', by simp [run, h], hkept⟩
  | stamped traversal =>
    obtain rfl := FanoutCounts.incrementAll_nil_eq_ok hraised
    obtain ⟨a, s', h, hkept⟩ :
        ∃ a s', stampCone traversal net root s = .ok (a, s') ∧ s.Kept s' :=
      exists_stampCone hcounts hmarks ⟨site, hsite⟩ hwalk
    exact ⟨.stamped a.1 a.2, s', by simp [run, h], hkept⟩

/-- A query that returns has kept the stores. -/
theorem run_kept (q : ConeQuery) {a : ConeAnswer} {s' : Stores}
    (hcounts : net.Closed s.counts.size) (hmarks : net.Closed s.marks.size)
    (h : q.run net root s = .ok (a, s')) : s.Kept s' := by
  cases q with
  | size | sizeToInverters | labelled | sizeWith settings =>
    obtain ⟨⟨size, s₁⟩, hsize, heq⟩ := map_eq_ok_iff.1 h
    cases heq
    exact sizeByWalk_kept hcounts hmarks hsize
  | maximum settings =>
    obtain ⟨⟨found, s₁⟩, hfound, heq⟩ := map_eq_ok_iff.1 h
    cases heq
    exact maximumCone_kept hcounts hmarks hfound
  | protecting leaves traversal =>
    obtain ⟨⟨nodes, s₁⟩, hnodes, heq⟩ := map_eq_ok_iff.1 h
    cases heq
    exact protectedCone_kept hcounts hmarks hnodes
  | inner traversal =>
    obtain ⟨⟨nodes, s₁⟩, hnodes, heq⟩ := map_eq_ok_iff.1 h
    cases heq
    exact protectedCone_kept hcounts hmarks hnodes
  | stamped traversal =>
    obtain ⟨⟨a, s₁⟩, hstamped, heq⟩ := map_eq_ok_iff.1 h
    cases heq
    exact stampCone_kept hcounts hmarks hstamped

/-- Every query is balanced. In a network whose fanins are all in range, with any counts, marks,
root and settings, and with room for the protected nodes, a query whose walk out never takes a
parent from a node without one returns, and leaves every count as it was. -/
theorem run_balanced (q : ConeQuery) {net : Network} {root : Nat} {s : Stores}
    (hcounts : net.Closed s.counts.size) (hmarks : net.Closed s.marks.size)
    (hroot : net.Present root) (hleaves : ∀ v ∈ q.leaves, v < s.counts.size)
    (hroom : s.counts.RoomFor q.leaves) (hwalk : ¬ q.Underflows net root s.counts) :
    ∃ a s', q.run net root s = .ok (a, s') ∧ s'.counts = s.counts := by
  obtain ⟨raised, t, hraised, ht⟩ := exists_walk hcounts hroot hleaves hroom hwalk
  obtain ⟨a, s', h, hkept⟩ := q.exists_run hcounts hmarks hroot hraised ht
  exact ⟨a, s', h, hkept.counts_eq⟩

/-- Two gates that read each other, over a leaf, with counts that no structure explains. -/
def feedback : FaninTable :=
  .ofRows [(.internal, [⟨1, false⟩, ⟨1, true⟩]), (.internal, [⟨0, false⟩, ⟨2, true⟩]), (.leaf, [])]
    [4, 2, 1]

theorem run_balanced_feedback :
    ∃ a s', (protecting [2, 0] .iterative).run (FaninTable.networkOf feedback.rows) 0
      feedback.stores = .ok (a, s') ∧ s'.counts = feedback.stores.counts := by
  refine run_balanced (.protecting [2, 0] .iterative) (FaninTable.closed_networkOf (by decide))
    (FaninTable.closed_networkOf (by decide)) ⟨_, rfl⟩ (by decide) (by decide) ?_
  rintro ⟨raised, breakdown, v, hraised, hwalk, -⟩
  obtain rfl := Except.ok.inj hraised
  cases hwalk

end ConeQuery

end FanoutCone
