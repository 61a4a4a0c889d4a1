import FanoutCone.Proofs.MaximumCone

/-!
# Cones from the bottom up

A collection lists a node once its fanins are done. In an acyclic network every
fanin that is in the cone too then comes before the node, with a cut limit as
well, which leaves fanins out but never brings them later.

What could be later is a fanin that was marked when the node met it and not yet
listed. Such a fanin is open, and the open nodes lie on a path of fanins from
the root down, so it would be read by itself through the node.
-/
namespace FanoutCone

namespace Network

/-- Of the nodes in the list, each comes after those it reads. -/
def BottomUp (net : Network) (nodes : List Nat) : Prop :=
  ∀ i j u v : Nat, nodes[i]? = some u → nodes[j]? = some v → net.Reads v u → i < j

variable {net : Network} {nodes : List Nat}

theorem bottomUp_nil : net.BottomUp [] := fun i j u v hu => by simp at hu

/-- In an acyclic network it is enough that no node reads a later one. -/
theorem BottomUp.of_pairwise (hacyclic : net.Acyclic)
    (h : nodes.Pairwise fun earlier later => ¬ net.Reads earlier later) : net.BottomUp nodes := by
  intro i j u v hu hv hread
  obtain ⟨hi, rfl⟩ := List.getElem?_eq_some_iff.1 hu
  obtain ⟨hj, rfl⟩ := List.getElem?_eq_some_iff.1 hv
  rcases Nat.lt_trichotomy i j with hlt | rfl | hlt
  · exact hlt
  · exact absurd (.single hread) (hacyclic _)
  · exact absurd hread (List.pairwise_iff_getElem.1 h j i hj hi hlt)

end Network

namespace Collection

/-- How the nodes stand to each other that a collection has gone below. `opened` are those whose
fanins are not done, newest first. -/
structure Arranged (c : Collection) (opened : List Nat) (p : Progress) : Prop where
  path : opened.Pairwise fun newer older => Relation.TransGen c.net.Reads older newer
  unread : ∀ u ∈ p.cone, ∀ v ∈ opened, ¬ c.net.Reads u v
  sorted : p.cone.Pairwise fun later earlier => ¬ c.net.Reads earlier later

variable {c : Collection} {root u v n : Nat} {opened : List Nat} {p p' : Progress}
variable {fanins : List (Option Edge)}

/-- Meeting a node without going below it opens nothing and finishes nothing. -/
theorem Arranged.pass {atRoot : Bool} (h : c.Arranged opened p)
    (hmet : c.Met atRoot v p false p') : c.Arranged opened p' := by
  refine ⟨h.path, ?_, ?_⟩
  · rw [hmet.cone_eq]
    exact h.unread
  · rw [hmet.cone_eq]
    exact h.sorted

/-- No node in the cone reads a node that can still be gone below, since it has dealt with all that
it reads. -/
theorem Covered.not_reads (h : c.Covered root opened p) (hmet : c.Met false v p true p') :
    ∀ u ∈ p.cone, ¬ c.net.Reads u v := by
  intro u hu hread
  cases hmet with
  | cone hfresh hdead hroom hexpand =>
    rcases h.settled u hu v hread with hmarked | ⟨-, hboundary⟩ | ⟨hfull, -⟩
    · simp [hfresh] at hmarked
    · exact (hdead.resolve_left Bool.false_ne_true).not_boundary hboundary
    · simp [hroom] at hfull

/-- Meeting a fanin of the newest open node and going below it. -/
theorem Arranged.expand (h : c.Arranged (u :: opened) p) (hcovered : c.Covered root (u :: opened) p)
    (hread : c.net.Reads u v) (hmet : c.Met false v p true p') :
    c.Arranged (v :: u :: opened) p' := by
  refine ⟨List.pairwise_cons.2 ⟨fun w hw => ?_, h.path⟩, fun x hx w hw => ?_, ?_⟩
  · rcases List.mem_cons.1 hw with rfl | hw
    · exact .single hread
    · exact ((List.pairwise_cons.1 h.path).1 w hw).tail hread
  · rw [hmet.cone_eq] at hx
    rcases List.mem_cons.1 hw with rfl | hw
    · exact hcovered.not_reads hmet x hx
    · exact h.unread x hx w hw
  · rw [hmet.cone_eq]
    exact h.sorted

/-- Emitting the newest open node. It reads none of the others, which it is read by. -/
theorem Arranged.emit (h : c.Arranged (n :: opened) p) (hacyclic : c.net.Acyclic) :
    c.Arranged opened (p.emit n) := by
  obtain ⟨hnewest, hpath⟩ := List.pairwise_cons.1 h.path
  refine ⟨hpath, fun u hu v hv hread => ?_, List.pairwise_cons.2 ⟨fun u hu => ?_, h.sorted⟩⟩
  · rcases List.mem_cons.1 hu with rfl | hu
    · exact hacyclic v ((hnewest v hv).tail hread)
    · exact h.unread u hu v (List.mem_cons_of_mem n hv) hread
  · exact h.unread u hu n List.mem_cons_self

/-- An exploration of fanins of the newest open node keeps the arrangement. -/
theorem Explores.arranged (h : c.Explores fanins p p') (hacyclic : c.net.Acyclic)
    {opened : List Nat} {u : Nat} (hp : c.Arranged (u :: opened) p)
    (hcovered : c.Covered root (u :: opened) p)
    (hread : ∀ e, some e ∈ fanins → c.net.Reads u e.node) : c.Arranged (u :: opened) p' := by
  induction h generalizing opened u with
  | done p => exact hp
  | @pass e fanins p p₁ p₂ hmet hrest ih =>
    obtain ⟨hcovered₁, -⟩ := hcovered.pass List.mem_cons_self (hread e List.mem_cons_self) hmet
    exact ih (hp.pass hmet) hcovered₁ fun e he => hread e (List.mem_cons_of_mem _ he)
  | @expand e site fanins p p₁ p₂ p₃ hmet hsite hbelow hrest ihbelow ihrest =>
    have hreadhead := hread e List.mem_cons_self
    obtain ⟨hcovered₁, ⟨site', hsite', hkind⟩, -⟩ :=
      hcovered.expand List.mem_cons_self hreadhead hmet
    obtain rfl : site = site' := Option.some.inj (hsite.symm.trans hsite')
    have hreads : ∀ e', some e' ∈ site.fanins → c.net.Reads e.node e'.node :=
      fun e' he' => (Network.reads_iff hsite hkind).2 ⟨e', he', rfl⟩
    obtain ⟨hcovered₂, hall⟩ := hbelow.covered hcovered₁ List.mem_cons_self hreads
    have hcovered₃ := hcovered₂.emit fun v hv => by
      obtain ⟨e', he', rfl⟩ := (Network.reads_iff hsite hkind).1 hv
      exact hall e' he'
    have hp₂ := ihbelow (hp.expand hcovered hreadhead hmet) hcovered₁ hreads
    exact ihrest (hp₂.emit hacyclic) hcovered₃ fun e he => hread e (List.mem_cons_of_mem _ he)

/-- A whole collection from an internal root lists its cone from the bottom up. -/
theorem Collects.bottomUp {marks : Marks} (h : c.Collects root marks p) (hmarks : marks.Bounded)
    (hroot : c.net.Internal root) (hacyclic : c.net.Acyclic) : c.net.BottomUp p.cone.reverse := by
  have hstart : c.Arranged [] ⟨marks.advance, 0, [], []⟩ := ⟨.nil, by simp, .nil⟩
  suffices harranged : c.Arranged [] p from
    .of_pairwise hacyclic (List.pairwise_reverse.2 harranged.sorted)
  cases h with
  | stay hmet => exact hstart.pass hmet
  | @expand site p₁ p' hmet hsite hbelow =>
    obtain ⟨site', hsite', hkind⟩ := hroot
    obtain rfl : site = site' := Option.some.inj (hsite.symm.trans hsite')
    have hcone : p₁.cone = [] := hmet.cone_eq
    have hopened : c.Arranged [root] p₁ :=
      ⟨List.pairwise_singleton _ _, by simp [hcone], by simp [hcone]⟩
    exact (hbelow.arranged hacyclic hopened (.start hmarks hmet) fun e he =>
      (Network.reads_iff hsite hkind).2 ⟨e, he, rfl⟩).emit hacyclic

end Collection

/-- The nodes that an answer lists as a cone, none where it is a size. -/
def ConeAnswer.listed : ConeAnswer → List Nat
  | .size _ => []
  | .cone found => found.nodes
  | .nodes l | .stamped _ l => l

section
variable {net : Network} {root : Nat} {s s' : Stores}

theorem collectFrom_bottomUp {use : BoundaryUse} {limit : Option Nat} {traversal : Traversal}
    {found : Cone} (hacyclic : net.Acyclic) (hbounded : s.marks.Bounded)
    (hroot : net.Internal root)
    (h : collectFrom use limit traversal net root s = .ok (found, s')) :
    net.BottomUp found.nodes := by
  obtain ⟨p, hcollects, rfl, -⟩ := collectFrom_eq_ok h
  exact hcollects.bottomUp hbounded hroot hacyclic

/-- The nodes that a query of an internal root lists were collected over sound marks. -/
theorem ConeQuery.run_listed {q : ConeQuery} {a : ConeAnswer} (hroot : net.Internal root)
    (h : q.run net root s = .ok (a, s')) :
    a.listed = [] ∨ ∃ use limit traversal found s₁ s₂, s.marks.Evolves s₁.marks ∧
      collectFrom use limit traversal net root s₁ = .ok (found, s₂) ∧ a.listed = found.nodes := by
  cases q with
  | size | sizeToInverters | labelled | sizeWith settings =>
    obtain ⟨⟨size, s₁⟩, -, heq⟩ := map_eq_ok_iff.1 h
    cases heq
    exact Or.inl rfl
  | maximum settings =>
    obtain ⟨⟨found, s₁⟩, hfound, heq⟩ := map_eq_ok_iff.1 h
    cases heq
    obtain ⟨site, hsite⟩ := hroot.present
    cases hcone : site.hasCone with
    | false =>
      have hsite' : net.site root = .ok site := Network.site_eq_ok_iff.2 hsite
      simp only [maximumCone, hsite', ok_bind, hcone] at hfound
      cases hfound
      exact Or.inl rfl
    | true =>
      obtain ⟨t, s₁, s₂, -, -, hevolves, hcollect⟩ := maximumCone_eq_ok hsite hcone hfound
      exact Or.inr ⟨_, _, _, found, s₁, s₂, hevolves, collectCone_eq_ok hroot hcollect, rfl⟩
  | protecting leaves traversal =>
    obtain ⟨⟨nodes, s₁⟩, hnodes, heq⟩ := map_eq_ok_iff.1 h
    cases heq
    obtain ⟨-, t, s₁, s₂, found, -, -, -, hevolves, hcollect, rfl⟩ :=
      protectedCone_eq_ok hroot hnodes
    exact Or.inr ⟨_, _, _, found, s₁, s₂, hevolves, hcollect, rfl⟩
  | inner traversal =>
    obtain ⟨⟨nodes, s₁⟩, hnodes, heq⟩ := map_eq_ok_iff.1 h
    cases heq
    obtain ⟨-, t, s₁, s₂, found, -, -, -, hevolves, hcollect, rfl⟩ :=
      protectedCone_eq_ok hroot hnodes
    exact Or.inr ⟨_, _, _, found, s₁, s₂, hevolves, hcollect, rfl⟩
  | stamped traversal =>
    obtain ⟨⟨⟨size, nodes⟩, s₁⟩, hnodes, heq⟩ := map_eq_ok_iff.1 h
    cases heq
    obtain ⟨t, s₁, s₂, found, -, -, hevolves, hcollect, rfl⟩ := stampCone_eq_ok hroot hnodes
    exact Or.inr ⟨_, _, _, found, s₁, s₂, hevolves, hcollect, rfl⟩

/-- Cones are listed from the bottom up. In an acyclic network, over any counts and over marks none
of which exceeds the generation, every cone node that is read by another stands before it: in what
a collection from an internal root returns, whatever its cut limit and traversal, and in what the
queries list, whenever they return. If all fanins are in range, the collection does return. -/
theorem cones_bottomUp (hacyclic : net.Acyclic) (hbounded : s.marks.Bounded)
    (hroot : net.Internal root) :
    (∀ limit traversal found s', collectCone limit traversal net root s = .ok (found, s') →
      net.BottomUp found.nodes) ∧
    (net.Closed s.counts.size → net.Closed s.marks.size → ∀ limit traversal,
      ∃ found s', collectCone limit traversal net root s = .ok (found, s')) ∧
    ∀ (q : ConeQuery) a s', q.run net root s = .ok (a, s') → net.BottomUp a.listed := by
  refine ⟨fun limit traversal found s' h => ?_, fun hcounts hmarks limit traversal => ?_,
    fun q a s' h => ?_⟩
  · exact collectFrom_bottomUp hacyclic hbounded hroot (collectCone_eq_ok hroot h)
  · obtain ⟨found, s', h, -⟩ := exists_collectCone limit traversal hcounts hmarks hroot.present
    exact ⟨found, s', h⟩
  · rcases ConeQuery.run_listed hroot h with
      hnil | ⟨use, limit, traversal, found, s₁, s₂, hevolves, hcollect, hlisted⟩
    · rw [hnil]
      exact Network.bottomUp_nil
    · rw [hlisted]
      exact collectFrom_bottomUp hacyclic (hevolves.bounded hbounded) hroot hcollect

end

/-- A gate over two gates that share a third, over a leaf. -/
def diamond : FaninTable :=
  .ofRows [(.leaf, []), (.internal, [⟨0, false⟩, ⟨0, true⟩]), (.internal, [⟨1, true⟩]),
    (.internal, [⟨1, false⟩]), (.internal, [⟨2, false⟩, ⟨3, true⟩])] [2, 2, 1, 1, 1]

/-- The shared gate comes first, and a cut limit that leaves a gate out keeps the others in
order. -/
theorem cones_bottomUp_diamond :
    ∃ s₁ s₂,
      ConeQuery.run (FaninTable.networkOf diamond.rows) 4 diamond.stores
        (.maximum { traversal := .iterative }) = .ok (.cone ⟨[1, 2, 3, 4], [0]⟩, s₁) ∧
      (FaninTable.networkOf diamond.rows).BottomUp [1, 2, 3, 4] ∧
      ConeQuery.run (FaninTable.networkOf diamond.rows) 4 diamond.stores
        (.maximum { cutLimit := some 3 }) = .ok (.cone ⟨[1, 2, 4], [0]⟩, s₂) ∧
      (FaninTable.networkOf diamond.rows).BottomUp [1, 2, 4] := by
  obtain ⟨-, -, hquery⟩ :=
    @cones_bottomUp (FaninTable.networkOf diamond.rows) 4 diamond.stores
      (FaninTable.acyclic_networkOf (by decide)) (Marks.bounded_empty.grow 5) ⟨_, rfl, rfl⟩
  obtain ⟨s₁, huncut⟩ : ∃ s₁, ConeQuery.run (FaninTable.networkOf diamond.rows) 4 diamond.stores
      (.maximum { traversal := .iterative }) = .ok (.cone ⟨[1, 2, 3, 4], [0]⟩, s₁) := ⟨_, rfl⟩
  obtain ⟨s₂, hcut⟩ : ∃ s₂, ConeQuery.run (FaninTable.networkOf diamond.rows) 4 diamond.stores
      (.maximum { cutLimit := some 3 }) = .ok (.cone ⟨[1, 2, 4], [0]⟩, s₂) := ⟨_, rfl⟩
  exact ⟨s₁, s₂, huncut, hquery _ _ _ huncut, hcut, hquery _ _ _ hcut⟩

end FanoutCone
