import Mathlib.Data.Fintype.EquivFin
import Mathlib.Data.Multiset.Bind
import Mathlib.Logic.Relation
import FanoutCone.Proofs.Result
import FanoutCone.Walk

/-!
# The shape of a network

Fanin edges run from the nodes that are read to the internal nodes that read
them. `sources` lists what one node reads, and `uses` counts how often the nodes
of a multiset read one node. A network is closed when every fanin edge is there
and comes from a node that is, and acyclic when no node reads itself through
others. Leaves read nothing, whatever fanins they hold.
-/
namespace FanoutCone

/-- The node that a fanin edge comes from, if the edge is there and is not skipped for its
complement. -/
def keptSource (filter : EdgeFilter) : Option Edge → Option Nat
  | none => none
  | some e =>
    match filter with
    | .all => some e.node
    | .uncomplemented => if e.complement then none else some e.node

/-- Edges are skipped for their complement only. -/
theorem EdgeFilter.keeps_iff {filter : EdgeFilter} {e : Edge} :
    filter.keeps e = true ↔ (filter = .uncomplemented → e.complement = false) := by
  cases filter <;> simp [keeps]

@[simp] theorem keptSource_all (e : Edge) : keptSource .all (some e) = some e.node := rfl

theorem keptSource_some (filter : EdgeFilter) (e : Edge) :
    keptSource filter (some e) = if filter.keeps e then some e.node else none := by
  cases filter <;> cases hcomplement : e.complement <;>
    simp [keptSource, EdgeFilter.keeps, hcomplement]

theorem keptSource_eq_some {filter : EdgeFilter} {fanin : Option Edge} {v : Nat} :
    keptSource filter fanin = some v ↔
      ∃ e, fanin = some e ∧ filter.keeps e = true ∧ e.node = v := by
  cases fanin with
  | none => simp [keptSource]
  | some e => simp [keptSource_some]

/-- A filter only drops edges. -/
theorem keptSources_sublist (filter : EdgeFilter) (fanins : List (Option Edge)) :
    (fanins.filterMap (keptSource filter)).Sublist (fanins.filterMap (keptSource .all)) := by
  induction fanins with
  | nil => exact List.Sublist.slnil
  | cons fanin fanins ih =>
    rw [List.filterMap_cons, List.filterMap_cons]
    cases hkept : keptSource filter fanin with
    | none =>
      cases keptSource .all fanin with
      | none => exact ih
      | some v => exact ih.cons v
    | some v =>
      obtain ⟨e, rfl, -, rfl⟩ := keptSource_eq_some.1 hkept
      exact ih.cons_cons e.node

namespace Network

def Internal (net : Network) (n : Nat) : Prop :=
  ∃ site, net.site? n = some site ∧ site.kind = .internal

/-- The nodes that the kept fanin edges of an internal node come from, in order. -/
def sources (net : Network) (filter : EdgeFilter) (n : Nat) : List Nat :=
  match net.site? n with
  | some ⟨.internal, fanins⟩ => fanins.filterMap (keptSource filter)
  | some ⟨.leaf, _⟩ | none => []

/-- How many kept fanin edges of the nodes in `M` come from `v`. -/
def uses (net : Network) (filter : EdgeFilter) (M : Multiset Nat) (v : Nat) : Nat :=
  (M.bind fun u => (net.sources filter u : Multiset Nat)).count v

def Present (net : Network) (n : Nat) : Prop := ∃ site, net.site? n = some site

/-- Nodes stand below a bound only, and every fanin edge is there and comes from a node that
is. -/
structure Closed (net : Network) (bound : Nat) : Prop where
  lt_of_site : ∀ {n site}, net.site? n = some site → n < bound
  fanin_of_mem : ∀ {n site fanin}, net.site? n = some site → fanin ∈ site.fanins →
    ∃ e, fanin = some e ∧ net.Present e.node

/-- Whether the internal node `u` has a fanin edge from `v`. -/
def Reads (net : Network) (u v : Nat) : Prop := v ∈ net.sources .all u

/-- No internal node reads itself, directly or through others. -/
def Acyclic (net : Network) : Prop := ∀ v, ¬ Relation.TransGen net.Reads v v

variable {net : Network} {filter : EdgeFilter}

theorem site_eq_ok_iff {n : Nat} {site : Site} :
    net.site n = .ok site ↔ net.site? n = some site := by
  unfold Network.site
  cases net.site? n <;> simp

theorem site_eq_ok {n : Nat} {site : Site} (h : net.site n = .ok site) :
    net.site? n = some site :=
  site_eq_ok_iff.1 h

theorem Internal.present {n : Nat} (h : net.Internal n) : net.Present n := by
  obtain ⟨site, hsite, -⟩ := h
  exact ⟨site, hsite⟩

/-- The internal nodes are those that are found not to be leaves. -/
theorem isLeaf_eq_false_iff {n : Nat} : net.isLeaf n = .ok false ↔ net.Internal n := by
  rw [isLeaf, map_eq_ok_iff]
  refine exists_congr fun site => and_congr site_eq_ok_iff ?_
  cases site.kind <;> simp

theorem sources_of_internal {n : Nat} {site : Site} (h : net.site? n = some site)
    (hkind : site.kind = .internal) :
    net.sources filter n = site.fanins.filterMap (keptSource filter) := by
  obtain ⟨kind, fanins⟩ := site
  subst hkind
  simp only [sources, h]

theorem internal_of_mem_sources {n v : Nat} (h : v ∈ net.sources filter n) :
    net.Internal n := by
  unfold sources at h
  split at h
  · rename_i fanins hsite
    exact ⟨_, hsite, rfl⟩
  · cases h
  · cases h

@[simp] theorem uses_zero (v : Nat) : net.uses filter 0 v = 0 := by
  simp [uses]

@[simp] theorem uses_cons (n : Nat) (M : Multiset Nat) (v : Nat) :
    net.uses filter (n ::ₘ M) v = (net.sources filter n).count v + net.uses filter M v := by
  simp [uses]

@[simp] theorem uses_add (M N : Multiset Nat) (v : Nat) :
    net.uses filter (M + N) v = net.uses filter M v + net.uses filter N v := by
  simp [uses]

theorem uses_mono {M N : Multiset Nat} (h : M ≤ N) (v : Nat) :
    net.uses filter M v ≤ net.uses filter N v := by
  obtain ⟨K, rfl⟩ := Multiset.le_iff_exists_add.1 h
  rw [uses_add]
  omega

/-- A node is used by the nodes of `M` exactly when one of them reads it. -/
theorem uses_pos_iff {M : Multiset Nat} {v : Nat} :
    0 < net.uses filter M v ↔ ∃ u ∈ M, v ∈ net.sources filter u := by
  rw [uses, Multiset.count_pos, Multiset.mem_bind]
  simp only [Multiset.mem_coe]

theorem sources_sublist (n : Nat) : (net.sources filter n).Sublist (net.sources .all n) := by
  unfold sources
  split
  · exact keptSources_sublist filter _
  · exact List.Sublist.refl _
  · exact List.Sublist.refl _

theorem reads_of_mem_sources {u v : Nat} (h : v ∈ net.sources filter u) : net.Reads u v :=
  (sources_sublist u).subset h

/-- A walk that keeps some of the edges uses no node more often than one that keeps all. -/
theorem uses_le_all (M : Multiset Nat) (v : Nat) :
    net.uses filter M v ≤ net.uses .all M v := by
  induction M using Multiset.induction with
  | empty => simp
  | cons n M ih =>
    have hsub : (net.sources filter n).Sublist (net.sources .all n) := sources_sublist n
    have hcount := hsub.count_le v
    rw [uses_cons, uses_cons]
    omega

theorem Reads.internal {u v : Nat} (h : net.Reads u v) : net.Internal u :=
  internal_of_mem_sources h

/-- What an internal node reads are the nodes of its fanin edges. -/
theorem reads_iff {u v : Nat} {site : Site} (h : net.site? u = some site)
    (hkind : site.kind = .internal) :
    net.Reads u v ↔ ∃ e, some e ∈ site.fanins ∧ e.node = v := by
  unfold Reads
  rw [sources_of_internal h hkind, List.mem_filterMap]
  constructor
  · rintro ⟨fanin, hmem, hfanin⟩
    obtain ⟨e, rfl, -, hnode⟩ := keptSource_eq_some.1 hfanin
    exact ⟨e, hmem, hnode⟩
  · rintro ⟨e, hmem, rfl⟩
    exact ⟨some e, hmem, rfl⟩

namespace Closed

variable {bound bound' : Nat}

theorem mono (h : net.Closed bound) (hbound : bound ≤ bound') : net.Closed bound' :=
  ⟨fun hsite => (h.lt_of_site hsite).trans_le hbound, h.fanin_of_mem⟩

theorem lt_of_present (h : net.Closed bound) {n : Nat} (hn : net.Present n) : n < bound := by
  obtain ⟨site, hsite⟩ := hn
  exact h.lt_of_site hsite

theorem lt_of_internal (h : net.Closed bound) {n : Nat} (hn : net.Internal n) : n < bound := by
  obtain ⟨site, hsite, -⟩ := hn
  exact h.lt_of_site hsite

theorem present_of_reads (h : net.Closed bound) {u v : Nat} (hv : net.Reads u v) :
    net.Present v := by
  obtain ⟨site, hsite, hkind⟩ := hv.internal
  obtain ⟨e, hmem, rfl⟩ := (reads_iff hsite hkind).1 hv
  obtain ⟨e', he', hpresent⟩ := h.fanin_of_mem hsite hmem
  rwa [Option.some.inj he']

/-- In a closed network without cycles, what holds of a node whenever it holds of all that read it
holds of every node. -/
theorem wellFounded_reads (h : net.Closed bound) (hacyclic : net.Acyclic) :
    WellFounded net.Reads := by
  let below : Fin bound → Fin bound → Prop := fun a b => Relation.TransGen net.Reads a b
  have : IsTrans (Fin bound) below := ⟨fun _ _ _ => Relation.TransGen.trans⟩
  have : Std.Irrefl below := ⟨fun a => hacyclic a⟩
  have hbelow : WellFounded below := Finite.wellFounded_of_trans_of_irrefl below
  have hacc : ∀ a : Fin bound, Acc net.Reads a := by
    intro a
    induction a using hbelow.induction with
    | h a ih =>
      apply Acc.intro _
      intro u hu
      exact ih ⟨u, h.lt_of_internal hu.internal⟩ (Relation.TransGen.single hu)
  refine ⟨fun v => Acc.intro v fun u hu => ?_⟩
  exact hacc ⟨u, h.lt_of_internal hu.internal⟩

end Closed

end Network

end FanoutCone
