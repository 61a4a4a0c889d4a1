import FanoutCone.Proofs.FittingStores

/-!
# Cones are nested or disjoint

A set free of fanout below one root can be joined to one below another root that
lies in it. So the greatest set below a node holds the greatest sets below all
its nodes. And where two such sets meet without either holding the root of the
other, each node in both has its consumers in both: going up from consumer to
consumer never ends, which no acyclic network allows.

The cones of a network are therefore a laminar family, as the subtrees of the
dominator tree are.
-/
namespace FanoutCone

namespace Network.FanoutFree

variable {net : Network} {filter : EdgeFilter} {ext : Nat → Nat} {a b v : Nat} {S T : Set Nat}

/-- A set below a node of `S` can be joined to `S`. -/
theorem union (hS : net.FanoutFree filter ext a S) (hT : net.FanoutFree filter ext b T)
    (hb : b ∈ S) : net.FanoutFree filter ext a (S ∪ T) := by
  have hother : ∀ v ∈ S ∪ T, v ∈ S ∨ v ∈ T ∧ v ≠ b := by
    intro v hv
    by_cases hvS : v ∈ S
    · exact Or.inl hvS
    · refine Or.inr ⟨hv.resolve_left hvS, ?_⟩
      rintro rfl
      exact hvS hb
  refine ⟨fun v hv => ?_, Or.inl hS.root_mem, fun v hv hne => ?_, fun v hv hne => ?_,
    fun v hv hne u e hconsumes hnode => ?_⟩
  · rcases hv with hv | hv
    · exact hS.internal v hv
    · exact hT.internal v hv
  · rcases hother v hv with hv | ⟨hv, hvb⟩
    · exact hS.unexported v hv hne
    · exact hT.unexported v hv hvb
  · rcases hother v hv with hv | ⟨hv, hvb⟩
    · exact hS.consumed v hv hne
    · exact hT.consumed v hv hvb
  · rcases hother v hv with hv | ⟨hv, hvb⟩
    · obtain ⟨hkeep, hu⟩ := hS.enclosed v hv hne u e hconsumes hnode
      exact ⟨hkeep, Or.inl hu⟩
    · obtain ⟨hkeep, hu⟩ := hT.enclosed v hv hvb u e hconsumes hnode
      exact ⟨hkeep, Or.inr hu⟩

/-- The greatest set below a node holds the sets below its nodes. -/
theorem subset_of_isGreatest (hS : IsGreatest {S | net.FanoutFree filter ext a S} S)
    (hT : net.FanoutFree filter ext b T) (hb : b ∈ S) : T ⊆ S :=
  Set.subset_union_right.trans (hS.2 (hS.1.union hT hb))

/-- Of two sets that share a node one holds the root of the other. -/
theorem root_mem_or_root_mem (hwf : WellFounded net.Reads) (hS : net.FanoutFree filter ext a S)
    (hT : net.FanoutFree filter ext b T) (hvS : v ∈ S) (hvT : v ∈ T) : b ∈ S ∨ a ∈ T := by
  by_contra hnone
  obtain ⟨hb, ha⟩ := not_or.1 hnone
  -- By induction from the consumers down: no node is in both sets.
  induction v using hwf.induction with
  | h v ih =>
    have hva : v ≠ a := by
      rintro rfl
      exact ha hvT
    have hvb : v ≠ b := by
      rintro rfl
      exact hb hvS
    obtain ⟨u, e, hconsumes, hnode⟩ := hS.consumed v hvS hva
    have huS := (hS.enclosed v hvS hva u e hconsumes hnode).2
    have huT := (hT.enclosed v hvT hvb u e hconsumes hnode).2
    exact ih u (reads_iff_consumes.2 ⟨e, hconsumes, hnode⟩) huS huT

end Network.FanoutFree

/-- How the cones of `a` and of `b` lie: apart, or one within the other, as the roots say. -/
structure LaminarCones (a b : Nat) (cone cone' : List Nat) : Prop where
  disjoint_or_nested : cone.Disjoint cone' ∨ cone' ⊆ cone ∨ cone ⊆ cone'
  /-- Cones that share a node share a root. -/
  root_mem : ∀ v ∈ cone, v ∈ cone' → b ∈ cone ∨ a ∈ cone'
  subset_of_mem : b ∈ cone → cone' ⊆ cone
  subset_of_mem_right : a ∈ cone' → cone ⊆ cone'

/-- The greatest sets below two nodes of an acyclic network are laminar. -/
theorem laminarCones_of_isGreatest {net : Network} {filter : EdgeFilter} {ext : Nat → Nat}
    {a b : Nat} {cone cone' : List Nat} (hwf : WellFounded net.Reads)
    (h : IsGreatest {S | net.FanoutFree filter ext a S} {v | v ∈ cone})
    (h' : IsGreatest {S | net.FanoutFree filter ext b S} {v | v ∈ cone'}) :
    LaminarCones a b cone cone' := by
  have hsub : b ∈ cone → cone' ⊆ cone := fun hb v hv =>
    Network.FanoutFree.subset_of_isGreatest h h'.1 hb hv
  have hsub' : a ∈ cone' → cone ⊆ cone' := fun ha v hv =>
    Network.FanoutFree.subset_of_isGreatest h' h.1 ha hv
  have hroot : ∀ v ∈ cone, v ∈ cone' → b ∈ cone ∨ a ∈ cone' := fun v hv hv' =>
    Network.FanoutFree.root_mem_or_root_mem hwf h.1 h'.1 hv hv'
  refine ⟨?_, hroot, hsub, hsub'⟩
  by_cases hdisjoint : cone.Disjoint cone'
  · exact Or.inl hdisjoint
  · simp only [List.Disjoint, not_forall] at hdisjoint
    obtain ⟨v, hv, hv', -⟩ := hdisjoint
    rcases hroot v hv hv' with hb | ha
    · exact Or.inr (Or.inl (hsub hb))
    · exact Or.inr (Or.inr (hsub' ha))

/-- Without a cut limit, the cone of a node is found and is the greatest set free of fanout. -/
theorem Network.Fits.exists_isGreatest {net : Network} {ext : Nat → Nat} {s : Stores} {root : Nat}
    (h : net.Fits ext s) (settings : ConeSettings) (hroot : net.HasCone root)
    (hcut : settings.cutLimit = none) :
    ∃ found s', maximumCone settings net root s = .ok (found, s') ∧ s.Kept s' ∧
      IsGreatest {S | net.FanoutFree settings.filter ext root S} {v | v ∈ found.nodes} := by
  have hinternal := hroot.internal
  have haccounted := h.consistent.accounted h.counts
  obtain ⟨found, s', hfound, hkept⟩ := h.exists_maximumCone settings hinternal.present
  obtain ⟨site, hsite, hcone⟩ := hroot
  obtain ⟨t, s₁, s₂, hwalk, hcounts', hevolves, hcollect⟩ := maximumCone_eq_ok hsite hcone hfound
  rw [hcut] at hcollect
  have hperm := collectFrom_perm_passed haccounted h.counts h.acyclic hinternal hwalk hcounts'
    (hevolves.bounded h.bounded) (collectCone_eq_ok hinternal hcollect)
  have hsame : {v | v ∈ found.nodes} = {v | v ∈ t.passed} := Set.ext fun v => hperm.mem_iff
  refine ⟨found, s', hfound, hkept, ?_⟩
  rw [hsame]
  exact isGreatest_passed h.consistent h.counts h.acyclic hinternal hwalk

/-- The cones of any two gates are laminar, whichever filter both queries use. This holds in every
acyclic network over stores that fit it, and in every graph that was built or loaded, where the
second query runs on what the first has left. -/
theorem maximumCones_laminar (filter : EdgeFilter) (traversal traversal' : Traversal) (a b : Nat) :
    (∀ (net : Network) (ext : Nat → Nat) (s s' : Stores), net.Fits ext s → net.Fits ext s' →
      net.HasCone a → net.HasCone b →
      ∃ found s₁ found' s₂, maximumCone ⟨filter, traversal, none⟩ net a s = .ok (found, s₁) ∧
        maximumCone ⟨filter, traversal', none⟩ net b s' = .ok (found', s₂) ∧
        LaminarCones a b found.nodes found'.nodes) ∧
    ∀ aig : Aig, aig.Reached → a ∈ aig.ands → b ∈ aig.ands →
      ∃ found aig₁ found' aig₂,
        Container.query (fun net s => maximumCone ⟨filter, traversal, none⟩ net a s) aig =
          .ok (found, aig₁) ∧
        Container.query (fun net s => maximumCone ⟨filter, traversal', none⟩ net b s) aig₁ =
          .ok (found', aig₂) ∧
        LaminarCones a b found.nodes found'.nodes := by
  refine ⟨fun net ext s s' hs hs' ha hb => ?_, fun aig haig ha hb => ?_⟩
  · obtain ⟨found, s₁, hfound, -, hgreatest⟩ :=
      hs.exists_isGreatest ⟨filter, traversal, none⟩ ha rfl
    obtain ⟨found', s₂, hfound', -, hgreatest'⟩ :=
      hs'.exists_isGreatest ⟨filter, traversal', none⟩ hb rfl
    exact ⟨found, s₁, found', s₂, hfound, hfound',
      laminarCones_of_isGreatest (hs.counts.wellFounded_reads hs.acyclic) hgreatest hgreatest'⟩
  · have hfits := haig.sound.fits
    obtain ⟨found, s₁, hfound, hkept, hgreatest⟩ :=
      hfits.exists_isGreatest ⟨filter, traversal, none⟩ (Aig.hasCone_of_mem_ands ha) rfl
    obtain ⟨found', s₂, hfound', -, hgreatest'⟩ := (hfits.of_kept hkept).exists_isGreatest
      ⟨filter, traversal', none⟩ (Aig.hasCone_of_mem_ands hb) rfl
    exact ⟨found, _, found', _, Aig.query_of_eq_ok hfound, Aig.query_of_eq_ok hfound',
      laminarCones_of_isGreatest (hfits.counts.wellFounded_reads hfits.acyclic) hgreatest
        hgreatest'⟩

/-- A gate over a gate that it reads in both polarities, over the constant and an input. -/
def Aig.stacked : Aig where
  nodes := #[.const, .input 0, .and ⟨1, false⟩ ⟨0, true⟩, .and ⟨2, false⟩ ⟨2, true⟩]
  inputs := #[1]
  latches := #[]
  outputs := #[⟨3, true⟩]
  names := ∅
  outputNames := ∅
  stores := ⟨⟨#[1, 1, 2, 1]⟩, ⟨1, #[0, 0, 0, 0]⟩⟩

theorem Aig.reached_stacked : stacked.Reached := by
  have hlow := Reached.empty.addInput.addAnd (show addAnd _ ⟨1, false⟩ ⟨0, true⟩ = .ok _ from rfl)
  have hhigh := hlow.addAnd (show addAnd _ ⟨2, false⟩ ⟨2, true⟩ = .ok _ from rfl)
  exact hhigh.addOutput (show addOutput _ ⟨3, true⟩ = .ok _ from rfl)

theorem maximumCones_laminar_stacked :
    (∃ found s₁ found' s₂,
      maximumCone ⟨.all, .recursive, none⟩ Aig.stacked.network 3 Aig.stacked.stores =
        .ok (found, s₁) ∧
      maximumCone ⟨.all, .iterative, none⟩ Aig.stacked.network 2 Aig.stacked.stores =
        .ok (found', s₂) ∧
      LaminarCones 3 2 found.nodes found'.nodes) ∧
    ∃ found aig₁ found' aig₂,
      Container.query (fun net s => maximumCone ⟨.uncomplemented, .iterative, none⟩ net 3 s)
        Aig.stacked = .ok (found, aig₁) ∧
      Container.query (fun net s => maximumCone ⟨.uncomplemented, .recursive, none⟩ net 2 s) aig₁ =
        .ok (found', aig₂) ∧
      LaminarCones 3 2 found.nodes found'.nodes := by
  have hhigh : 3 ∈ Aig.stacked.ands := by decide
  have hlow : 2 ∈ Aig.stacked.ands := by decide
  have hfits := Aig.reached_stacked.sound.fits
  exact ⟨(maximumCones_laminar .all .recursive .iterative 3 2).1 _ _ _ _ hfits hfits
      (Aig.hasCone_of_mem_ands hhigh) (Aig.hasCone_of_mem_ands hlow),
    (maximumCones_laminar .uncomplemented .iterative .recursive 3 2).2 _ Aig.reached_stacked hhigh
      hlow⟩

end FanoutCone
