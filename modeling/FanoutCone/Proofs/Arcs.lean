import FanoutCone.Digraph
import FanoutCone.Proofs.Slots

/-!
# Laws of directed graphs

A graph is sound when its arcs run between vertices that are present and every
vertex lists exactly the arcs at it, each once. The labels of the vertices and
the arcs by index say all that matters of a sound graph: each operation is
described by what it does to these two views.
-/
namespace FanoutCone.Digraph

variable {α : Type} {g g' : Digraph α} {n m arc : Nat} {x : Arc} {v : Vertex α}

/-- Arcs run between vertices that are present, and vertices list the arcs at them. -/
structure Sound (g : Digraph α) : Prop where
  vertices : g.vertices.Sound
  arcs : g.arcs.Sound
  endpoints : ∀ {arc x}, g.arcs.get? arc = some x →
    g.contains x.source = true ∧ g.contains x.target = true
  nodup : ∀ {n v}, g.vertices.get? n = some v → v.outgoing.Nodup ∧ v.incoming.Nodup
  mem_outgoing : ∀ {n v}, g.vertices.get? n = some v →
    ∀ arc, arc ∈ v.outgoing ↔ ∃ x, g.arcs.get? arc = some x ∧ x.source = n
  mem_incoming : ∀ {n v}, g.vertices.get? n = some v →
    ∀ arc, arc ∈ v.incoming ↔ ∃ x, g.arcs.get? arc = some x ∧ x.target = n

theorem contains_iff_label? : g.contains n = true ↔ ∃ label, g.label? n = some label := by
  unfold contains label?
  cases g.vertices.get? n <;> simp

theorem contains_eq_of_label?_eq (h : g'.label? n = g.label? n) : g'.contains n = g.contains n := by
  rw [Bool.eq_iff_iff, contains_iff_label?, contains_iff_label?, h]

theorem sound_empty : (empty : Digraph α).Sound where
  vertices := SlotArena.sound_empty
  arcs := SlotArena.sound_empty
  endpoints h := by simp [empty] at h
  nodup h := by simp [empty] at h
  mem_outgoing h := by simp [empty] at h
  mem_incoming h := by simp [empty] at h

@[simp] theorem label?_empty (n : Nat) : (empty : Digraph α).label? n = none := by
  simp [empty, label?]

section addVertex
variable {label : α}

theorem label?_addVertex_fst (h : g.Sound) (label : α) : g.label? (g.addVertex label).1 = none := by
  have hvacant := SlotArena.get?_insert_fst h.vertices (⟨label, [], []⟩ : Vertex α)
  unfold label?
  show (g.vertices.get? (g.vertices.insert ⟨label, [], []⟩).1).map _ = none
  rw [hvacant, Option.map_none]

theorem label?_addVertex (h : g.Sound) (label : α) (m : Nat) :
    (g.addVertex label).2.label? m =
      if m = (g.addVertex label).1 then some label else g.label? m := by
  have hget := SlotArena.get?_insert h.vertices (⟨label, [], []⟩ : Vertex α) m
  unfold label?
  show ((g.vertices.insert ⟨label, [], []⟩).2.get? m).map _ =
    if m = (g.vertices.insert ⟨label, [], []⟩).1 then _ else _
  rw [hget]
  split <;> simp

/-- No arc touches a vertex that is not present. -/
theorem Sound.ne_of_label? (h : g.Sound) (hn : g.label? n = none) (hx : g.arcs.get? arc = some x) :
    x.source ≠ n ∧ x.target ≠ n := by
  obtain ⟨hsource, htarget⟩ := h.endpoints hx
  rw [contains_iff_label?] at hsource htarget
  constructor
  · rintro rfl
    simp [hn] at hsource
  · rintro rfl
    simp [hn] at htarget

theorem Sound.addVertex (h : g.Sound) (label : α) : (g.addVertex label).2.Sound := by
  have hvacant := label?_addVertex_fst h label
  have hget : ∀ m, (g.addVertex label).2.vertices.get? m =
      if m = (g.addVertex label).1 then some ⟨label, [], []⟩ else g.vertices.get? m :=
    SlotArena.get?_insert h.vertices ⟨label, [], []⟩
  refine ⟨h.vertices.insert _, h.arcs, fun hx => ?_, fun {m v} hv => ?_, fun {m v} hv arc => ?_,
    fun {m v} hv arc => ?_⟩
  · obtain ⟨hsource, htarget⟩ := h.endpoints hx
    obtain ⟨hne, hne'⟩ := h.ne_of_label? hvacant hx
    have hcontains : ∀ k, k ≠ (g.addVertex label).1 →
        (g.addVertex label).2.contains k = g.contains k := fun k hk =>
      contains_eq_of_label?_eq (by rw [label?_addVertex h, if_neg hk])
    rw [hcontains _ hne, hcontains _ hne']
    exact ⟨hsource, htarget⟩
  · rw [hget] at hv
    split at hv
    · cases hv
      exact ⟨List.nodup_nil, List.nodup_nil⟩
    · exact h.nodup hv
  · rw [hget] at hv
    split at hv
    · rename_i hm
      cases hv
      refine ⟨fun hmem => absurd hmem List.not_mem_nil, ?_⟩
      rintro ⟨x, hx, hsource⟩
      exact absurd (hsource.trans hm) (h.ne_of_label? hvacant hx).1
    · exact h.mem_outgoing hv arc
  · rw [hget] at hv
    split at hv
    · rename_i hm
      cases hv
      refine ⟨fun hmem => absurd hmem List.not_mem_nil, ?_⟩
      rintro ⟨x, hx, htarget⟩
      exact absurd (htarget.trans hm) (h.ne_of_label? hvacant hx).2
    · exact h.mem_incoming hv arc

end addVertex

theorem label?_setLabel (g : Digraph α) (n : Nat) (label : α) (m : Nat) :
    (g.setLabel n label).label? m =
      if n = m then (g.label? m).map fun _ => label else g.label? m := by
  unfold label?
  show ((g.vertices.modify n _).get? m).map _ = _
  rw [SlotArena.get?_modify]
  split
  · rw [Option.map_map, Option.map_map]
    rfl
  · rfl

theorem Sound.setLabel (h : g.Sound) (n : Nat) (label : α) : (g.setLabel n label).Sound := by
  have hget : ∀ {m v}, (g.setLabel n label).vertices.get? m = some v →
      ∃ w, g.vertices.get? m = some w ∧ v.outgoing = w.outgoing ∧ v.incoming = w.incoming := by
    intro m v hv
    change (g.vertices.modify n _).get? m = some v at hv
    rw [SlotArena.get?_modify] at hv
    split at hv
    · obtain ⟨w, hw, rfl⟩ := Option.map_eq_some_iff.1 hv
      exact ⟨w, hw, rfl, rfl⟩
    · exact ⟨v, hv, rfl, rfl⟩
  have hcontains : ∀ m, (g.setLabel n label).contains m = g.contains m := by
    intro m
    rw [Bool.eq_iff_iff, contains_iff_label?, contains_iff_label?, label?_setLabel]
    split
    · cases g.label? m <;> simp
    · rfl
  refine ⟨h.vertices.modify _ _, h.arcs, fun hx => ?_, fun hv => ?_, fun hv arc => ?_,
    fun hv arc => ?_⟩
  · rw [hcontains, hcontains]
    exact h.endpoints hx
  · obtain ⟨w, hw, hout, hin⟩ := hget hv
    rw [hout, hin]
    exact h.nodup hw
  · obtain ⟨w, hw, hout, -⟩ := hget hv
    rw [hout]
    exact h.mem_outgoing hw arc
  · obtain ⟨w, hw, -, hin⟩ := hget hv
    rw [hin]
    exact h.mem_incoming hw arc

/-- What a change of the arcs listed at the two ends of an arc does to a vertex. -/
theorem get?_modify_ends (vertices : SlotArena (Vertex α)) (source target : Nat)
    (f : List Nat → List Nat) (n : Nat) :
    ((vertices.modify source fun v => { v with outgoing := f v.outgoing }).modify target
      fun v => { v with incoming := f v.incoming }).get? n =
      (vertices.get? n).map fun v =>
        ⟨v.label, if source = n then f v.outgoing else v.outgoing,
          if target = n then f v.incoming else v.incoming⟩ := by
  rw [SlotArena.get?_modify, SlotArena.get?_modify]
  by_cases hsource : source = n
  · by_cases htarget : target = n
    · simp [hsource, htarget]
      rfl
    · simp [hsource, htarget]
  · by_cases htarget : target = n
    · simp [hsource, htarget]
    · simp [hsource, htarget]

section addArc
variable {source target : Nat} {inverted : Bool}

theorem exists_addArc (hsource : g.contains source = true) (htarget : g.contains target = true)
    (inverted : Bool) : ∃ arc g', g.addArc source target inverted = .ok (arc, g') :=
  ⟨_, _, by rw [addArc, hsource, htarget]; rfl⟩

/-- What drawing an arc does: the vertices at its ends were present and list it first. -/
theorem addArc_eq_ok (h : g.addArc source target inverted = .ok (arc, g')) :
    g.contains source = true ∧ g.contains target = true ∧
      (arc, g'.arcs) = g.arcs.insert ⟨source, target, inverted⟩ ∧
      g'.vertices =
        (g.vertices.modify source fun v => { v with outgoing := arc :: v.outgoing }).modify target
          fun v => { v with incoming := arc :: v.incoming } := by
  unfold addArc at h
  cases hsource : g.contains source with
  | false => simp [hsource] at h
  | true =>
    cases htarget : g.contains target with
    | false => simp [hsource, htarget] at h
    | true =>
      rw [hsource, htarget] at h
      cases h
      exact ⟨rfl, rfl, rfl, rfl⟩

/-- The index of a new arc was vacant, and the other arcs stay. -/
theorem get?_addArc (hg : g.Sound) (h : g.addArc source target inverted = .ok (arc, g')) :
    g.arcs.get? arc = none ∧ ∀ b, g'.arcs.get? b =
      if b = arc then some ⟨source, target, inverted⟩ else g.arcs.get? b := by
  obtain ⟨-, -, hinsert, -⟩ := addArc_eq_ok h
  have hvacant := SlotArena.get?_insert_fst hg.arcs ⟨source, target, inverted⟩
  have hget := SlotArena.get?_insert hg.arcs ⟨source, target, inverted⟩
  rw [← hinsert] at hvacant hget
  exact ⟨hvacant, hget⟩

theorem label?_addArc (h : g.addArc source target inverted = .ok (arc, g')) (n : Nat) :
    g'.label? n = g.label? n := by
  obtain ⟨-, -, -, hvertices⟩ := addArc_eq_ok h
  unfold label?
  rw [hvertices, get?_modify_ends _ _ _ (arc :: ·), Option.map_map]
  rfl

theorem Sound.addArc (hg : g.Sound) (h : g.addArc source target inverted = .ok (arc, g')) :
    g'.Sound := by
  have hlabel := label?_addArc h
  obtain ⟨hvacant, hget⟩ := get?_addArc hg h
  obtain ⟨hsource, htarget, hinsert, hvertices⟩ := addArc_eq_ok h
  have harcs : g'.arcs = (g.arcs.insert ⟨source, target, inverted⟩).2 := congrArg Prod.snd hinsert
  have hvertex : ∀ {n v}, g'.vertices.get? n = some v → ∃ w, g.vertices.get? n = some w ∧
      v.outgoing = (if source = n then arc :: w.outgoing else w.outgoing) ∧
      v.incoming = (if target = n then arc :: w.incoming else w.incoming) := by
    intro n v hv
    rw [hvertices, get?_modify_ends _ _ _ (arc :: ·)] at hv
    obtain ⟨w, hw, rfl⟩ := Option.map_eq_some_iff.1 hv
    exact ⟨w, hw, rfl, rfl⟩
  refine ⟨?_, ?_, fun {b x} hx => ?_, fun {n v} hv => ?_, fun {n v} hv b => ?_,
    fun {n v} hv b => ?_⟩
  · rw [hvertices]
    exact (hg.vertices.modify _ _).modify _ _
  · rw [harcs]
    exact hg.arcs.insert _
  · rw [contains_eq_of_label?_eq (hlabel _), contains_eq_of_label?_eq (hlabel _)]
    rw [hget] at hx
    split at hx
    · cases hx
      exact ⟨hsource, htarget⟩
    · exact hg.endpoints hx
  · obtain ⟨w, hw, hout, hin⟩ := hvertex hv
    obtain ⟨hnodup, hnodup'⟩ := hg.nodup hw
    have hout' : arc ∉ w.outgoing := by simp [hg.mem_outgoing hw, hvacant]
    have hin' : arc ∉ w.incoming := by simp [hg.mem_incoming hw, hvacant]
    rw [hout, hin]
    constructor
    · split
      · exact List.nodup_cons.2 ⟨hout', hnodup⟩
      · exact hnodup
    · split
      · exact List.nodup_cons.2 ⟨hin', hnodup'⟩
      · exact hnodup'
  · obtain ⟨w, hw, hout, -⟩ := hvertex hv
    have hmem := hg.mem_outgoing hw b
    rw [hout, hget]
    by_cases hb : b = arc
    · subst hb
      by_cases hn : source = n <;> simp [hn, hmem, hvacant]
    · by_cases hn : source = n <;> simp [hn, hb, hmem]
  · obtain ⟨w, hw, -, hin⟩ := hvertex hv
    have hmem := hg.mem_incoming hw b
    rw [hin, hget]
    by_cases hb : b = arc
    · subst hb
      by_cases hn : target = n <;> simp [hn, hmem, hvacant]
    · by_cases hn : target = n <;> simp [hn, hb, hmem]

end addArc

section removeArc

/-- What removing an arc does, if it is present. -/
theorem removeArc_eq (h : g.arcs.get? arc = some x) :
    (g.removeArc arc).arcs = g.arcs.erase arc ∧
      (g.removeArc arc).vertices =
        (g.vertices.modify x.source fun v => { v with outgoing := v.outgoing.erase arc }).modify
          x.target fun v => { v with incoming := v.incoming.erase arc } := by
  simp [removeArc, h]

theorem removeArc_of_get? (h : g.arcs.get? arc = none) : g.removeArc arc = g := by
  simp [removeArc, h]

theorem get?_removeArc (g : Digraph α) (arc b : Nat) :
    (g.removeArc arc).arcs.get? b = if arc = b then none else g.arcs.get? b := by
  cases h : g.arcs.get? arc with
  | none =>
    rw [removeArc_of_get? h]
    split
    · rename_i hb
      rw [← hb, h]
    · rfl
  | some x => rw [(removeArc_eq h).1, SlotArena.get?_erase]

theorem label?_removeArc (g : Digraph α) (arc n : Nat) :
    (g.removeArc arc).label? n = g.label? n := by
  cases h : g.arcs.get? arc with
  | none => rw [removeArc_of_get? h]
  | some x =>
    unfold label?
    rw [(removeArc_eq h).2, get?_modify_ends _ _ _ (·.erase arc), Option.map_map]
    rfl

theorem Sound.removeArc (hg : g.Sound) (arc : Nat) : (g.removeArc arc).Sound := by
  cases h : g.arcs.get? arc with
  | none => rwa [removeArc_of_get? h]
  | some x =>
    have hget := get?_removeArc g arc
    obtain ⟨harcs, hvertices⟩ := removeArc_eq h
    have hvertex : ∀ {n v}, (g.removeArc arc).vertices.get? n = some v →
        ∃ w, g.vertices.get? n = some w ∧
          v.outgoing = (if x.source = n then w.outgoing.erase arc else w.outgoing) ∧
          v.incoming = (if x.target = n then w.incoming.erase arc else w.incoming) := by
      intro n v hv
      rw [hvertices, get?_modify_ends _ _ _ (·.erase arc)] at hv
      obtain ⟨w, hw, rfl⟩ := Option.map_eq_some_iff.1 hv
      exact ⟨w, hw, rfl, rfl⟩
    refine ⟨?_, ?_, fun {b y} hy => ?_, fun {n v} hv => ?_, fun {n v} hv b => ?_,
      fun {n v} hv b => ?_⟩
    · rw [hvertices]
      exact (hg.vertices.modify _ _).modify _ _
    · rw [harcs]
      exact hg.arcs.erase _
    · rw [contains_eq_of_label?_eq (label?_removeArc g arc _),
        contains_eq_of_label?_eq (label?_removeArc g arc _)]
      rw [hget] at hy
      split at hy
      · cases hy
      · exact hg.endpoints hy
    · obtain ⟨w, hw, hout, hin⟩ := hvertex hv
      obtain ⟨hnodup, hnodup'⟩ := hg.nodup hw
      rw [hout, hin]
      constructor
      · split
        · exact hnodup.erase arc
        · exact hnodup
      · split
        · exact hnodup'.erase arc
        · exact hnodup'
    · obtain ⟨w, hw, hout, -⟩ := hvertex hv
      have hmem := hg.mem_outgoing hw b
      rw [hout, hget]
      by_cases hb : arc = b
      · subst hb
        by_cases hn : x.source = n
        · simp [hn, (hg.nodup hw).1.mem_erase_iff]
        · simp [hn, hmem, h]
      · by_cases hn : x.source = n
        · simp [hn, hb, (hg.nodup hw).1.mem_erase_iff, hmem, Ne.symm hb]
        · simp [hn, hb, hmem]
    · obtain ⟨w, hw, -, hin⟩ := hvertex hv
      have hmem := hg.mem_incoming hw b
      rw [hin, hget]
      by_cases hb : arc = b
      · subst hb
        by_cases hn : x.target = n
        · simp [hn, (hg.nodup hw).2.mem_erase_iff]
        · simp [hn, hmem, h]
      · by_cases hn : x.target = n
        · simp [hn, hb, (hg.nodup hw).2.mem_erase_iff, hmem, Ne.symm hb]
        · simp [hn, hb, hmem]

end removeArc

section removeArcs
variable {list : List Nat}

theorem Sound.removeArcs (hg : g.Sound) (list : List Nat) :
    (list.foldl Digraph.removeArc g).Sound := by
  induction list generalizing g with
  | nil => exact hg
  | cons arc list ih => exact ih (hg.removeArc arc)

theorem label?_removeArcs (g : Digraph α) (list : List Nat) (n : Nat) :
    (list.foldl removeArc g).label? n = g.label? n := by
  induction list generalizing g with
  | nil => rfl
  | cons arc list ih => exact (ih _).trans (label?_removeArc g arc n)

theorem get?_removeArcs (g : Digraph α) (list : List Nat) (b : Nat) :
    (list.foldl removeArc g).arcs.get? b = if b ∈ list then none else g.arcs.get? b := by
  induction list generalizing g with
  | nil => simp
  | cons arc list ih =>
    rw [List.foldl_cons, ih, get?_removeArc]
    by_cases hb : b ∈ list
    · simp [hb]
    · by_cases hb' : b = arc
      · simp [hb']
      · simp [hb, hb', Ne.symm hb']

end removeArcs

section removeVertex

/-- The graph without the arcs at a vertex. -/
def strip (g : Digraph α) (v : Vertex α) : Digraph α :=
  v.incoming.foldl removeArc (v.outgoing.foldl removeArc g)

theorem removeVertex_of_get? (h : g.vertices.get? n = none) : g.removeVertex n = g := by
  simp [removeVertex, h]

theorem removeVertex_eq (h : g.vertices.get? n = some v) :
    g.removeVertex n = ⟨(g.strip v).vertices.erase n, (g.strip v).arcs⟩ := by
  simp only [removeVertex, h, strip]

/-- Stripping a vertex removes the arcs at it and no other. -/
theorem get?_strip (hg : g.Sound) (h : g.vertices.get? n = some v) (b : Nat) :
    (g.strip v).arcs.get? b =
      (g.arcs.get? b).filter fun x => x.source != n && x.target != n := by
  have hout := hg.mem_outgoing h b
  have hin := hg.mem_incoming h b
  unfold strip
  rw [get?_removeArcs, get?_removeArcs]
  cases hb : g.arcs.get? b with
  | none => simp
  | some x =>
    by_cases hsource : x.source = n
    · simp [Option.filter, hout, hb, hsource]
    · by_cases htarget : x.target = n
      · simp [Option.filter, hin, hb, htarget]
      · simp [Option.filter, hout, hin, hb, hsource, htarget]

theorem label?_strip (g : Digraph α) (v : Vertex α) (m : Nat) :
    (g.strip v).label? m = g.label? m := by
  unfold strip
  rw [label?_removeArcs, label?_removeArcs]

theorem Sound.strip (hg : g.Sound) (v : Vertex α) : (g.strip v).Sound :=
  (hg.removeArcs v.outgoing).removeArcs v.incoming

/-- Removing a vertex removes the arcs at it and no other. -/
theorem get?_removeVertex (hg : g.Sound) (n b : Nat) :
    (g.removeVertex n).arcs.get? b =
      (g.arcs.get? b).filter fun x => x.source != n && x.target != n := by
  cases h : g.vertices.get? n with
  | some v =>
    rw [removeVertex_eq h]
    exact get?_strip hg h b
  | none =>
    rw [removeVertex_of_get? h]
    cases hb : g.arcs.get? b with
    | none => rfl
    | some x =>
      have hn : g.label? n = none := by simp [label?, h]
      obtain ⟨hsource, htarget⟩ := hg.ne_of_label? hn hb
      simp [Option.filter, hsource, htarget]

theorem label?_removeVertex (g : Digraph α) (n m : Nat) :
    (g.removeVertex n).label? m = if n = m then none else g.label? m := by
  cases h : g.vertices.get? n with
  | none =>
    rw [removeVertex_of_get? h]
    split
    · rename_i hm
      simp [label?, ← hm, h]
    · rfl
  | some v =>
    rw [removeVertex_eq h]
    have hlabel := label?_strip g v m
    unfold label? at hlabel ⊢
    rw [SlotArena.get?_erase]
    split
    · rfl
    · exact hlabel

theorem Sound.removeVertex (hg : g.Sound) (n : Nat) : (g.removeVertex n).Sound := by
  cases h : g.vertices.get? n with
  | none => rwa [removeVertex_of_get? h]
  | some v =>
    have hstrip := hg.strip v
    have hget := get?_strip hg h
    have hlabel := label?_removeVertex g n
    rw [removeVertex_eq h] at hlabel ⊢
    have hvertex : ∀ {m w}, ((g.strip v).vertices.erase n).get? m = some w →
        (g.strip v).vertices.get? m = some w := by
      intro m w hw
      rw [SlotArena.get?_erase] at hw
      split at hw
      · cases hw
      · exact hw
    refine ⟨hstrip.vertices.erase n, hstrip.arcs, fun {arc x} hx => ?_,
      fun hw => hstrip.nodup (hvertex hw), fun hw => hstrip.mem_outgoing (hvertex hw),
      fun hw => hstrip.mem_incoming (hvertex hw)⟩
    dsimp only at hx
    rw [hget, Option.filter_eq_some_iff] at hx
    obtain ⟨hx, hends⟩ := hx
    simp only [Bool.and_eq_true, bne_iff_ne] at hends
    obtain ⟨hsource, htarget⟩ := hg.endpoints hx
    rw [contains_eq_of_label?_eq ((hlabel _).trans (if_neg (Ne.symm hends.1))),
      contains_eq_of_label?_eq ((hlabel _).trans (if_neg (Ne.symm hends.2)))]
    exact ⟨hsource, htarget⟩

end removeVertex

section removeVertices
variable {nodes : List Nat}

theorem Sound.removeVertices (hg : g.Sound) (nodes : List Nat) :
    (nodes.foldl Digraph.removeVertex g).Sound := by
  induction nodes generalizing g with
  | nil => exact hg
  | cons n nodes ih => exact ih (hg.removeVertex n)

theorem label?_removeVertices (g : Digraph α) (nodes : List Nat) (m : Nat) :
    (nodes.foldl removeVertex g).label? m = if m ∈ nodes then none else g.label? m := by
  induction nodes generalizing g with
  | nil => simp
  | cons n nodes ih =>
    rw [List.foldl_cons, ih, label?_removeVertex]
    by_cases hm : m ∈ nodes
    · simp [hm]
    · by_cases hm' : m = n
      · simp [hm']
      · simp [hm, hm', Ne.symm hm']

/-- Removing vertices removes the arcs at them and no other. -/
theorem get?_removeVertices (hg : g.Sound) (nodes : List Nat) (b : Nat) :
    (nodes.foldl removeVertex g).arcs.get? b =
      (g.arcs.get? b).filter fun x => decide (x.source ∉ nodes) && decide (x.target ∉ nodes) := by
  induction nodes generalizing g with
  | nil => cases hb : g.arcs.get? b <;> simp [hb, Option.filter]
  | cons n nodes ih =>
    rw [List.foldl_cons, ih (hg.removeVertex n), get?_removeVertex hg, Option.filter_filter]
    congr 1
    funext x
    rw [Bool.eq_iff_iff]
    simp only [Bool.and_eq_true, bne_iff_ne, decide_eq_true_eq, List.mem_cons, not_or]
    exact and_and_and_comm

end removeVertices

theorem mem_vertexIndices : n ∈ g.vertexIndices ↔ ∃ label, g.label? n = some label := by
  rw [← contains_iff_label?]
  exact SlotArena.mem_occupied

theorem nodup_vertexIndices (g : Digraph α) : g.vertexIndices.Nodup := g.vertices.nodup_occupied

end FanoutCone.Digraph
