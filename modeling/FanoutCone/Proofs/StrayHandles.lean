import FanoutCone.Proofs.StableMirror

/-!
# Stray handles

Sweeps leave handles behind that name no node any more, and a handle can be made
up. A graph is intact when no gate reads itself, directly or through others, and
every output names a node that is present. Calls that are only given nodes that
are present keep it so. A call that is given another handle is nearly always
refused, since no arc can start at a vacant slot.

Two get through. A gate takes its slot before its fanins are connected, so a
handle of the very slot that the gate is about to take becomes a fanin of the
gate from itself. And an output draws no arc, so it may name any slot, vacant
or not. Each of the two leaves the graph broken at once, so a run that is intact
all along is one that was only given nodes present.
-/
namespace FanoutCone.StableAig

inductive EditCall where
  | build (call : BuildCall)
  | sweep

namespace BuildCall

def handles : BuildCall → List Edge
  | .input => []
  | .and left right => [left, right]
  | .output e => [e]

/-- Whether a graph takes the call: a fanin has to come from a node that is present or from the
slot that the gate itself takes, for an output there has to be a slot, and there has to be room for
the parents in the counts. -/
def Accepted (g : StableAig) : BuildCall → Prop
  | .input => True
  | .and left right =>
      (∀ e ∈ [left, right], g.Present e.node ∨ e.node = (g.addNode .unconnected).1) ∧
        g.stores.counts.RoomFor [left.node, right.node]
  | .output e =>
      e.node < g.stores.counts.size ∧ g.stores.counts.parents e.node < FanoutCounts.maxCount

end BuildCall

namespace EditCall

def perform (g : StableAig) : EditCall → Except Fault StableAig
  | .build call => call.onStable g
  | .sweep => g.sweep.map Prod.snd

/-- Whether the call is given nodes only that are present. -/
def NamesPresent (g : StableAig) : EditCall → Prop
  | .build call => ∀ e ∈ call.handles, g.Present e.node
  | .sweep => True

/-- Whether a graph takes the call. -/
def Accepted (g : StableAig) : EditCall → Prop
  | .build call => call.Accepted g
  | .sweep => True

end EditCall

/-- No gate lies on a cycle, and every output names a node that is present. -/
structure Intact (g : StableAig) : Prop where
  acyclic : g.network.Acyclic
  outputs : ∀ e ∈ g.outputs, g.Present e.node

variable {T made : GateTable} {g g' : StableAig} {n : Nat} {left right e : Edge}

theorem Reached.intact (h : Reached made g) : Intact g := by
  obtain ⟨T, hcomplete, hacyclic, -⟩ := h.exists_complete
  exact ⟨hcomplete.acyclic hacyclic, hcomplete.outputs⟩

/-- Fanins are only drawn from nodes that are present. -/
theorem present_of_connect (h : g.connect n left right = .ok g') :
    g.Present left.node ∧ g.Present right.node := by
  obtain ⟨leftArc, rightArc, graph₁, graph₂, counts, hleft, hright, -⟩ := connect_eq_ok h
  obtain ⟨hsource, -⟩ := Digraph.addArc_eq_ok hleft
  obtain ⟨hsource', -⟩ := Digraph.addArc_eq_ok hright
  have hlabel := Digraph.label?_addArc hleft right.node
  refine ⟨present_iff_contains.2 hsource, present_iff_contains.2 ?_⟩
  rwa [Digraph.contains_eq_of_label?_eq hlabel] at hsource'

/-- Where a gate can be added: its fanins come from nodes that are present or from itself. -/
theorem Wired.addAnd_accepted_iff (h : Complete T g) :
    (∃ r, g.addAnd left right = .ok r) ↔ (BuildCall.and left right).Accepted g := by
  have hpresent := present_addNode h.graph .unconnected
  constructor
  · rintro ⟨⟨e, g'⟩, hadd⟩
    obtain ⟨-, hconnect⟩ := addAnd_eq_ok hadd
    obtain ⟨hleft, hright⟩ := present_of_connect hconnect
    refine ⟨fun e he => ?_, roomFor_of_addAnd hadd⟩
    rcases List.mem_pair.1 he with rfl | rfl
    · exact ((hpresent _).1 hleft).symm
    · exact ((hpresent _).1 hright).symm
  · rintro ⟨haccepted, hroom⟩
    have hfanin : ∀ e ∈ [left, right], (g.addNode .unconnected).2.Present e.node := fun e he =>
      (hpresent _).2 (haccepted e he).symm
    have hroom₁ := (roomFor_addNode g .unconnected _).2 hroom
    obtain ⟨g', leftArc, rightArc, hconnect, -⟩ := (h.addNode (Or.inr rfl)).exists_connect
      (Or.inr ⟨rfl, rfl⟩) (hfanin left (by simp)) (hfanin right (by simp)) hroom₁
    exact ⟨_, by simp only [addAnd, hconnect, ok_bind]; rfl⟩

/-- Whatever its fanins, a gate that was added takes its place in the table. -/
theorem Wired.complete_of_addAnd (h : Complete T g) (hadd : g.addAnd left right = .ok (e, g')) :
    Complete (T.insert (g.addNode .unconnected).1 left right) g' := by
  obtain ⟨-, hconnect⟩ := addAnd_eq_ok hadd
  have hpending := h.addNode (Or.inr rfl)
  have hpresent := (present_addNode h.graph .unconnected _).2 (Or.inl rfl)
  obtain ⟨leftArc, rightArc, hdrawn⟩ := drawn_of_connect hpending.graph hpresent hconnect
  exact (hdrawn.wired hpending (Or.inr ⟨rfl, rfl⟩)).congr_pending fun m => by simp

/-- A gate over its own slot reads itself. -/
theorem Wired.not_acyclic_of_addAnd (h : Complete T g)
    (hadd : g.addAnd left right = .ok (e, g')) {fanin : Edge} (hfanin : fanin ∈ [left, right])
    (hself : fanin.node = (g.addNode .unconnected).1) : ¬ g'.network.Acyclic := by
  intro hacyclic
  refine hacyclic fanin.node (.single ((h.complete_of_addAnd hadd).reads_iff.2 ?_))
  rw [← hself]
  unfold GateTable.Reads
  rw [GateTable.sources_of_some (GateTable.insert_self T fanin.node left right)]
  exact List.mem_map_of_mem (f := Edge.node) hfanin

theorem addOutput_accepted_iff :
    (∃ r, g.addOutput e = .ok r) ↔ (BuildCall.output e).Accepted g := by
  constructor
  · rintro ⟨⟨position, g'⟩, hadd⟩
    obtain ⟨before, counts, hincrement, -⟩ := addOutput_eq_ok hadd
    obtain ⟨hlt, -, hroom, -⟩ := FanoutCounts.increment_eq_ok_iff.1 hincrement
    exact ⟨hlt, hroom⟩
  · rintro ⟨hlt, hroom⟩
    obtain ⟨counts, hincrement⟩ := FanoutCounts.exists_increment hlt hroom
    exact ⟨_, by simp only [addOutput, consume, hincrement, ok_bind]; rfl⟩

/-- Along a run, which calls the graph takes. -/
theorem Reached.perform_accepted_iff (h : Reached made g) (call : EditCall) :
    (∃ g', call.perform g = .ok g') ↔ call.Accepted g := by
  obtain ⟨T, hcomplete, hacyclic, -⟩ := h.exists_complete
  have hmap : ∀ {α : Type} {x : Except Fault (α × StableAig)},
      (∃ g', x.map Prod.snd = .ok g') ↔ ∃ r, x = .ok r := by
    intro α x
    constructor
    · rintro ⟨g', hx⟩
      obtain ⟨r, hr, -⟩ := map_eq_ok_iff.1 hx
      exact ⟨r, hr⟩
    · rintro ⟨r, rfl⟩
      exact ⟨r.2, rfl⟩
  cases call with
  | build call =>
    cases call with
    | input => exact iff_of_true ⟨_, rfl⟩ trivial
    | and left right => exact hmap.trans hcomplete.addAnd_accepted_iff
    | output e => exact hmap.trans addOutput_accepted_iff
  | sweep =>
    obtain ⟨doomed, g', hsweep, -⟩ := hcomplete.sweep hacyclic
    exact iff_of_true (hmap.2 ⟨_, hsweep⟩) trivial

/-- A call that is given nodes present, and is taken, continues a run. -/
theorem Reached.perform (h : Reached made g) {call : EditCall} (hnames : call.NamesPresent g)
    (hcall : call.perform g = .ok g') : ∃ made', Reached made' g' := by
  cases call with
  | build call =>
    cases call with
    | input =>
      cases hcall
      exact ⟨_, h.addInput⟩
    | and left right =>
      obtain ⟨⟨e, g'⟩, hadd, rfl⟩ := map_eq_ok_iff.1 hcall
      exact ⟨_, h.addAnd left right (hnames left (by simp [BuildCall.handles]))
        (hnames right (by simp [BuildCall.handles])) hadd⟩
    | output e =>
      obtain ⟨⟨position, g'⟩, hadd, rfl⟩ := map_eq_ok_iff.1 hcall
      exact ⟨_, h.addOutput e (hnames e (by simp [BuildCall.handles])) hadd⟩
  | sweep =>
    obtain ⟨⟨removed, g'⟩, hsweep, rfl⟩ := map_eq_ok_iff.1 hcall
    exact ⟨_, h.sweep hsweep⟩

/-- One call on an intact graph of a run leaves it intact exactly when it was given nodes that are
present. -/
theorem Reached.intact_perform_iff (h : Reached made g) {call : EditCall}
    (hcall : call.perform g = .ok g') : Intact g' ↔ call.NamesPresent g := by
  refine ⟨fun hintact => ?_, fun hnames => ?_⟩
  · cases call with
    | build call =>
      cases call with
      | input => exact fun e he => absurd he List.not_mem_nil
      | and left right =>
        obtain ⟨⟨e, g'⟩, hadd, rfl⟩ := map_eq_ok_iff.1 hcall
        obtain ⟨T, hcomplete, -⟩ := h.exists_complete
        intro fanin hfanin
        have haccepted := hcomplete.addAnd_accepted_iff.1 ⟨_, hadd⟩
        refine (haccepted.1 fanin hfanin).resolve_right fun hself => ?_
        exact hcomplete.not_acyclic_of_addAnd hadd hfanin hself hintact.acyclic
      | output e =>
        obtain ⟨⟨position, g'⟩, hadd, rfl⟩ := map_eq_ok_iff.1 hcall
        obtain ⟨before, counts, -, rfl⟩ := addOutput_eq_ok hadd
        intro fanin hfanin
        obtain rfl := List.mem_singleton.1 hfanin
        exact hintact.outputs fanin (Array.mem_push_self)
    | sweep => trivial
  · obtain ⟨made', hreached⟩ := h.perform hnames hcall
    exact hreached.intact

/-- The graphs that a run of calls passes, from the empty one on. A call that is refused ends the
run. -/
def Passes (calls : List EditCall) (g : StableAig) : Prop :=
  ∃ done, done <+: calls ∧ done.foldlM EditCall.perform empty = .ok g

/-- The calls that a run of calls takes, each with the graph that it was made on. -/
def Takes (calls : List EditCall) (g : StableAig) (call : EditCall) : Prop :=
  ∃ done g', done ++ [call] <+: calls ∧ done.foldlM EditCall.perform empty = .ok g ∧
    call.perform g = .ok g'

/-- What a run passes it has reached by calls on nodes present, if each call it takes on a graph so
reached names such nodes. -/
theorem Passes.exists_reached {calls : List EditCall}
    (hnames : ∀ made g call, Reached made g → Takes calls g call → call.NamesPresent g)
    (h : Passes calls g) : ∃ made, Reached made g := by
  obtain ⟨done, hdone, hrun⟩ := h
  induction done using List.reverseRecOn generalizing g with
  | nil =>
    cases hrun
    exact ⟨_, .empty⟩
  | append_singleton done call ih =>
    rw [List.foldlM_append] at hrun
    obtain ⟨g₁, hrun₁, hcall⟩ := bind_eq_ok_iff.1 hrun
    rw [List.foldlM_cons] at hcall
    obtain ⟨g₂, hcall, hnil⟩ := bind_eq_ok_iff.1 hcall
    cases hnil
    obtain ⟨made, hreached⟩ := ih ((List.prefix_append done [call]).trans hdone) hrun₁
    exact hreached.perform (hnames made g₁ call hreached ⟨done, g, hdone, hrun₁, hcall⟩) hcall

theorem Takes.passes {calls : List EditCall} {call : EditCall} (h : Takes calls g call) :
    Passes calls g ∧ ∃ g', call.perform g = .ok g' ∧ Passes calls g' := by
  obtain ⟨done, g', hdone, hrun, hcall⟩ := h
  refine ⟨⟨done, (List.prefix_append done [call]).trans hdone, hrun⟩, g', hcall, ?_⟩
  refine ⟨done ++ [call], hdone, ?_⟩
  rw [List.foldlM_append, hrun, ok_bind, List.foldlM_cons, hcall]
  rfl

/-- What stray handles can do. A run of calls with any handles, which a refused call ends, passes
intact graphs only if and only if each call that it took was given nodes present at that time. On
such a run the only other calls that are taken are a gate with a fanin from the slot that it takes
itself, and an output that names a vacant slot. -/
theorem intact_iff_names_present (calls : List EditCall) :
    ((∀ g, Passes calls g → Intact g) ↔
      ∀ g call, Takes calls g call → call.NamesPresent g) ∧
    ((∀ g, Passes calls g → Intact g) → ∀ g, Passes calls g → ∀ call : EditCall,
      (∃ g', call.perform g = .ok g') ↔ call.Accepted g) := by
  have hreached : (∀ g, Passes calls g → Intact g) → ∀ g, Passes calls g →
      ∃ made, Reached made g := by
    intro hintact g hpasses
    refine hpasses.exists_reached fun made g call hreached htakes => ?_
    obtain ⟨-, g', hcall, hpasses'⟩ := htakes.passes
    exact (hreached.intact_perform_iff hcall).1 (hintact g' hpasses')
  refine ⟨⟨fun hintact g call htakes => ?_, fun hnames g hpasses => ?_⟩,
    fun hintact g hpasses call => ?_⟩
  · obtain ⟨hpasses, g', hcall, hpasses'⟩ := htakes.passes
    obtain ⟨made, hmade⟩ := hreached hintact g hpasses
    exact (hmade.intact_perform_iff hcall).1 (hintact g' hpasses')
  · obtain ⟨made, hmade⟩ := hpasses.exists_reached fun _ g call _ htakes => hnames g call htakes
    exact hmade.intact
  · obtain ⟨made, hmade⟩ := hreached hintact g hpasses
    exact hmade.perform_accepted_iff call

/-- A gate that nothing consumes is swept, and its handle is left over. -/
def sweepGate : List EditCall :=
  [.build .input, .build (.and ⟨1, false⟩ ⟨1, true⟩), .sweep]

/-- A new gate over the left over handle takes the same slot and reads itself. An output of the
handle names a vacant slot. -/
theorem stray_handles_accepted :
    (∃ g, (sweepGate ++ [EditCall.build (.and ⟨2, false⟩ ⟨1, false⟩)]).foldlM EditCall.perform empty
      = .ok g ∧ ¬ g.network.Acyclic) ∧
    ∃ g, (sweepGate ++ [EditCall.build (.output ⟨2, false⟩)]).foldlM EditCall.perform empty
      = .ok g ∧ ∃ e ∈ g.outputs, ¬ g.Present e.node := by
  refine ⟨⟨_, rfl, fun hacyclic => ?_⟩, ⟨_, rfl, ⟨2, false⟩, ?_, ?_⟩⟩
  · have hself : 2 ∈ [2, 1] := List.mem_cons_self
    exact hacyclic 2 (.single hself)
  · exact Array.mem_push_self
  · rintro ⟨node, hnode⟩
    cases hnode

end FanoutCone.StableAig
