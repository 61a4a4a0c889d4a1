import FanoutCone.Proofs.AigCounts

/-!
# Runs of building and asking

Whatever a graph went through, its counts are exact, its gates form no cycle,
and its inputs and latches are listed where their nodes say. A node takes the
next position of its list when it is added, and both stay as they are: a latch
only changes what comes next. A loader defines variables in any order, and by
the same argument lists them alike.

With exact counts no next state can be set without a parent to take away, and
no query on nodes of the graph can break off.
-/
namespace FanoutCone

/-- A list holds exactly the nodes of one kind, each at its own position. -/
def Positions (list : Array Nat) (nodeAt : Nat → Option AigNode) (kindAt : Nat → AigNode) : Prop :=
  ∀ k n, list[k]? = some n ↔ nodeAt n = some (kindAt k)

namespace Positions

variable {list : Array Nat} {nodeAt nodeAt' : Nat → Option AigNode} {kindAt : Nat → AigNode}
variable {m : Nat}

/-- A new node of the kind takes the next position. -/
theorem push (h : Positions list nodeAt kindAt) (hkind : Function.Injective kindAt)
    (hfree : nodeAt m = none) (hnew : nodeAt' m = some (kindAt list.size))
    (hother : ∀ n, n ≠ m → nodeAt' n = nodeAt n) : Positions (list.push m) nodeAt' kindAt := by
  intro k n
  rw [Array.getElem?_push]
  by_cases hn : n = m
  · subst hn
    have hold : ∀ k, list[k]? ≠ some n := fun k hk => by
      rw [h k n, hfree] at hk
      cases hk
    rw [hnew, Option.some.injEq, hkind.eq_iff]
    by_cases hk : k = list.size
    · simp [hk]
    · simp [hk, hold k, Ne.symm hk]
  · rw [hother n hn, ← h k n]
    by_cases hk : k = list.size
    · simp [hk, Ne.symm hn]
    · simp [hk]

/-- A new node of another kind changes nothing. -/
theorem keep (h : Positions list nodeAt kindAt) (hfree : nodeAt m = none)
    (hnew : ∀ k, nodeAt' m ≠ some (kindAt k)) (hother : ∀ n, n ≠ m → nodeAt' n = nodeAt n) :
    Positions list nodeAt' kindAt := by
  intro k n
  by_cases hn : n = m
  · subst hn
    rw [h k n, hfree]
    exact iff_of_false nofun (hnew k)
  · rw [hother n hn]
    exact h k n

/-- No node is listed twice. -/
theorem nodup (h : Positions list nodeAt kindAt) (hkind : Function.Injective kindAt) :
    list.toList.Nodup := by
  rw [List.nodup_iff_getElem?_ne_getElem?]
  intro i j hij hj heq
  have hi : list[i]? = list[j]? := by simpa using heq
  have hget : list[j]? = some list[j] := Array.getElem?_eq_getElem hj
  have hkinds := ((h i _).1 (hi.trans hget)).symm.trans ((h j _).1 hget)
  have heq := hkind (Option.some.inj hkinds)
  omega

end Positions

theorem AigNode.input_injective : Function.Injective AigNode.input := fun _ _ => by simp

theorem AigNode.latch_injective : Function.Injective AigNode.latch := fun _ _ => by simp

/-- The inputs and latches listed are those that there are. -/
structure Listed (inputs : Array Nat) (latches : Array Latch) (nodeAt : Nat → Option AigNode) :
    Prop where
  inputs : Positions inputs nodeAt .input
  latches : Positions (latches.map Latch.node) nodeAt .latch

namespace Listed

variable {inputs : Array Nat} {latches : Array Latch} {nodeAt nodeAt' : Nat → Option AigNode}
variable {m : Nat}

/-- Where there are constants only, nothing is listed. -/
theorem of_const (h : ∀ n node, nodeAt n = some node → node = .const) : Listed #[] #[] nodeAt where
  inputs k n := iff_of_false (by simp) fun hn => AigNode.noConfusion (h n _ hn)
  latches k n := iff_of_false (by simp) fun hn => AigNode.noConfusion (h n _ hn)

theorem addInput (h : Listed inputs latches nodeAt) (hfree : nodeAt m = none)
    (hnew : nodeAt' m = some (.input inputs.size)) (hother : ∀ n, n ≠ m → nodeAt' n = nodeAt n) :
    Listed (inputs.push m) latches nodeAt' where
  inputs := h.inputs.push AigNode.input_injective hfree hnew hother
  latches := h.latches.keep hfree (fun k => by simp [hnew]) hother

theorem addLatch (h : Listed inputs latches nodeAt) (hfree : nodeAt m = none)
    (hnew : nodeAt' m = some (.latch latches.size)) (hother : ∀ n, n ≠ m → nodeAt' n = nodeAt n)
    (next : Edge) : Listed inputs (latches.push ⟨m, next⟩) nodeAt' where
  inputs := h.inputs.keep hfree (fun k => by simp [hnew]) hother
  latches := by
    rw [Array.map_push]
    refine h.latches.push AigNode.latch_injective hfree ?_ hother
    rwa [Array.size_map]

theorem addAnd (h : Listed inputs latches nodeAt) (hfree : nodeAt m = none) {left right : Edge}
    (hnew : nodeAt' m = some (.and left right)) (hother : ∀ n, n ≠ m → nodeAt' n = nodeAt n) :
    Listed inputs latches nodeAt' where
  inputs := h.inputs.keep hfree (fun k => by simp [hnew]) hother
  latches := h.latches.keep hfree (fun k => by simp [hnew]) hother

end Listed

namespace Aiger.Draft

variable {d d' : Draft} {var : Nat} {node : AigNode}

def nodeAt (d : Draft) (n : Nat) : Option AigNode := d.slots[n]?.join

/-- The nodes of a finished graph are the definitions that have come. -/
theorem Finished.nodeAt_eq {aig : Aig} (h : Finished d aig) (n : Nat) :
    d.nodeAt n = aig.nodes[n]? := by
  rw [nodeAt, h.slot_eq]
  cases aig.nodes[n]? <;> rfl

theorem define_eq_ok (h : d.define var node = .ok d') :
    d.nodeAt var = none ∧ d'.nodeAt var = some node ∧
      (∀ n, n ≠ var → d'.nodeAt n = d.nodeAt n) ∧ d'.inputs = d.inputs ∧
      d'.latches = d.latches := by
  obtain ⟨slots, inputs, latches, outputs, symbols⟩ := d
  unfold define at h
  dsimp only at h
  split at h
  · rename_i hvar
    cases h
    have hlt := (Array.getElem?_eq_some_iff.1 hvar).1
    refine ⟨by simp [nodeAt, hvar], by simp [nodeAt, hlt], fun n hn => ?_, rfl, rfl⟩
    simp [nodeAt, Ne.symm hn]
  · cases h
  · cases h

theorem listed_start (maximum : Nat) :
    Listed (start maximum).inputs (start maximum).latches (start maximum).nodeAt := by
  refine .of_const fun n node hn => ?_
  simp only [start, nodeAt, Array.getElem?_setIfInBounds, Array.getElem?_replicate] at hn
  split at hn
  · split at hn
    · simpa using hn.symm
    · cases hn
  · split at hn <;> cases hn

theorem listed_take (h : Listed d.inputs d.latches d.nodeAt) {record : Record}
    (htake : d.take record = .ok d') : Listed d'.inputs d'.latches d'.nodeAt := by
  cases record with
  | input literal =>
    obtain ⟨d₁, hdefine, htake⟩ := bind_eq_ok_iff.1 htake
    obtain ⟨hfree, hnew, hother, hinputs, hlatches⟩ := define_eq_ok hdefine
    cases htake
    dsimp only
    rw [hinputs, hlatches]
    exact h.addInput hfree hnew hother
  | latch state next =>
    obtain ⟨d₁, hdefine, htake⟩ := bind_eq_ok_iff.1 htake
    obtain ⟨hfree, hnew, hother, hinputs, hlatches⟩ := define_eq_ok hdefine
    cases htake
    dsimp only
    rw [hinputs, hlatches]
    exact h.addLatch hfree hnew hother _
  | output literal =>
    cases htake
    exact h
  | gate literal left right =>
    obtain ⟨hfree, hnew, hother, hinputs, hlatches⟩ := define_eq_ok htake
    rw [hinputs, hlatches]
    exact h.addAnd hfree hnew hother
  | symbol symbol =>
    cases htake
    exact h

end Aiger.Draft

namespace Aig

/-- What building, loading and asking keep. -/
structure Sound (aig : Aig) : Prop where
  shaped : aig.Shaped
  counts : aig.Ahead []
  listed : Listed aig.inputs aig.latches (aig.nodes[·]?)
  marks_bounded : aig.stores.marks.Bounded

variable {aig aig' : Aig} {node : AigNode} {left right e : Edge} {root : Nat}

theorem sound_empty : Sound empty where
  shaped := shaped_empty
  counts v := by
    have hzero : empty.stores.counts.parents v = FanoutCounts.empty.parents v :=
      FanoutCounts.parents_grow _ _ _
    rw [hzero]
    rfl
  listed := .of_const fun n node hn => by
    cases n with
    | zero => exact (Option.some.inj hn).symm
    | succ n => cases hn
  marks_bounded := Marks.bounded_empty.grow _

theorem sound_of_load {bytes : List UInt8} (h : Aiger.load bytes = .ok aig) : aig.Sound := by
  obtain ⟨d, ⟨hconst, hlisted⟩, hfinished⟩ := Aiger.load_eq_ok
    (P := fun d => d.OneConstant ∧ Listed d.inputs d.latches d.nodeAt)
    (fun maximum => ⟨Aiger.Draft.oneConstant_start maximum, Aiger.Draft.listed_start maximum⟩)
    (fun _ _ _ hd htake => ⟨hd.1.take htake, Aiger.Draft.listed_take hd.2 htake⟩) h
  refine ⟨hfinished.shaped hconst, hfinished.parents_eq, ?_, ?_⟩
  · have hnodeAt : d.nodeAt = fun n => aig.nodes[n]? := funext hfinished.nodeAt_eq
    rwa [hnodeAt, ← hfinished.inputs_eq, ← hfinished.latches_eq] at hlisted
  · rw [hfinished.marks_eq]
    exact Marks.bounded_empty.grow _

/-- A node that is added stands at the next index. -/
theorem getElem?_addNode (aig : Aig) (node : AigNode) :
    aig.nodes[aig.nodes.size]? = none ∧
      (aig.addNode node).2.nodes[aig.nodes.size]? = some node ∧
      ∀ n, n ≠ aig.nodes.size → (aig.addNode node).2.nodes[n]? = aig.nodes[n]? := by
  refine ⟨Array.getElem?_eq_none (Nat.le_refl _), ?_, fun n hn => ?_⟩
  · show (aig.nodes.push node)[aig.nodes.size]? = _
    rw [Array.getElem?_push_size]
  · show (aig.nodes.push node)[n]? = _
    rw [Array.getElem?_push, if_neg hn]

/-- A latch that gets a new next state stays at its node. -/
theorem map_node_setIfInBounds {latches : Array Latch} {position : Nat} {latch : Latch}
    (h : latches[position]? = some latch) (next : Edge) :
    (latches.setIfInBounds position { latch with next := next }).map Latch.node =
      latches.map Latch.node := by
  apply Array.ext_getElem?
  intro i
  rw [Array.getElem?_map, Array.getElem?_map, Array.getElem?_setIfInBounds]
  by_cases hi : position = i
  · subst hi
    rw [if_pos rfl, h]
    split
    · rfl
    · rename_i hlt
      exact absurd (Array.getElem?_eq_some_iff.1 h).1 hlt
  · rw [if_neg hi]

namespace Sound

theorem addInput (h : aig.Sound) : aig.addInput.2.Sound := by
  obtain ⟨hfree, hnew, hother⟩ := getElem?_addNode aig (.input aig.inputs.size)
  exact ⟨h.shaped.addInput, h.counts.addNode (List.Perm.refl []),
    h.listed.addInput hfree hnew hother, h.marks_bounded.grow _⟩

theorem addLatch (h : aig.Sound) (hadd : aig.addLatch = .ok (e, aig')) : aig'.Sound := by
  obtain ⟨hfree, hnew, hother⟩ := getElem?_addNode aig (.latch aig.latches.size)
  have hshaped := h.shaped.addLatch hadd
  obtain ⟨aig₁, hconsume, rfl⟩ := addLatch_eq_ok hadd
  have hnode : (aig.addNode (.latch aig.latches.size)).2.Ahead [] :=
    h.counts.addNode (List.Perm.refl [])
  have hcounts := hnode.consume hconsume
  obtain ⟨before, counts, -, rfl⟩ := consume_eq_ok hconsume
  exact ⟨hshaped, hcounts.addLatch _, h.listed.addLatch hfree hnew hother zero,
    h.marks_bounded.grow _⟩

theorem setNextState (h : aig.Sound) {position : Nat}
    (hset : aig.setNextState position e = .ok aig') : aig'.Sound := by
  have hshaped := h.shaped.setNextState hset
  obtain ⟨aig₁, latch, hconsume, hlatch, hrelease⟩ := setNextState_eq_ok hset
  have hcounts := ((h.counts.consume hconsume).setLatch hlatch).release hrelease
  obtain ⟨before, counts, -, rfl⟩ := consume_eq_ok hconsume
  obtain ⟨after, counts', -, rfl⟩ := release_eq_ok hrelease
  refine ⟨hshaped, hcounts, ⟨h.listed.inputs, ?_⟩, h.marks_bounded⟩
  dsimp only at hlatch ⊢
  rw [map_node_setIfInBounds hlatch]
  exact h.listed.latches

theorem addAnd (h : aig.Sound) (hadd : aig.addAnd left right = .ok (e, aig')) : aig'.Sound := by
  have hshaped := h.shaped.addAnd hadd
  obtain ⟨hfree, hnew, hother⟩ := getElem?_addNode aig (.and left right)
  obtain ⟨aig₁, aig₂, hleft, hright, -, rfl⟩ := addAnd_eq_ok hadd
  have hcounts := (h.counts.consume hleft).consume hright
  obtain ⟨before, counts, -, rfl⟩ := consume_eq_ok hleft
  obtain ⟨before', counts', -, rfl⟩ := consume_eq_ok hright
  exact ⟨hshaped, hcounts.addNode (List.Perm.swap _ _ _), h.listed.addAnd hfree hnew hother,
    h.marks_bounded.grow _⟩

theorem addOutput (h : aig.Sound) {position : Nat}
    (hadd : aig.addOutput e = .ok (position, aig')) : aig'.Sound := by
  have hshaped := h.shaped.addOutput hadd
  obtain ⟨aig₁, hconsume, rfl⟩ := addOutput_eq_ok hadd
  have hcounts := h.counts.consume hconsume
  obtain ⟨before, counts, -, rfl⟩ := consume_eq_ok hconsume
  exact ⟨hshaped, hcounts.addOutput, h.listed, h.marks_bounded⟩

theorem setName (h : aig.Sound) (n : Nat) (name : String) : (aig.setName n name).Sound :=
  ⟨h.shaped.setName n name, h.counts, h.listed, h.marks_bounded⟩

theorem query (h : aig.Sound) {q : ConeQuery} {a : ConeAnswer}
    (hquery : Container.query (fun net s => q.run net root s) aig = .ok (a, aig')) :
    aig'.Sound := by
  have hshaped := h.shaped.query hquery
  obtain ⟨stores, hrun, rfl⟩ := query_eq_ok hquery
  have hkept := q.run_kept (h.shaped.closed h.shaped.counts_size.symm)
    (h.shaped.closed h.shaped.marks_size.symm) hrun
  refine ⟨hshaped, fun v => ?_, h.listed, hkept.evolves.bounded h.marks_bounded⟩
  dsimp only
  rw [hkept.counts_eq]
  exact h.counts v

/-- A latch can be given any node with room for a parent as its next state: the old one has a
parent to give. -/
theorem exists_setNextState (h : aig.Sound) {position : Nat}
    (hposition : position < aig.latches.size) (he : e.node < aig.nodes.size)
    (hlt : aig.stores.counts.parents e.node < FanoutCounts.maxCount) :
    ∃ aig', aig.setNextState position e = .ok aig' := by
  obtain ⟨aig₁, hconsume⟩ := exists_consume (e := e) (h.shaped.counts_size ▸ he) hlt
  have hahead := h.counts.consume hconsume
  obtain ⟨before, counts, -, rfl⟩ := consume_eq_ok hconsume
  have hlatch : aig.latches[position]? = some aig.latches[position] :=
    Array.getElem?_eq_getElem hposition
  obtain ⟨aig', hrelease⟩ := (hahead.setLatch hlatch).exists_release
  refine ⟨aig', ?_⟩
  rw [Aig.setNextState, hconsume, ok_bind]
  dsimp only
  rw [hlatch]
  exact hrelease

/-- A query on nodes of the graph returns. -/
theorem exists_query (h : aig.Sound) (q : ConeQuery) (hroot : root < aig.nodes.size)
    (hleaves : ∀ v ∈ q.leaves, v < aig.nodes.size)
    (hroom : aig.stores.counts.RoomFor q.leaves) :
    ∃ a aig', Container.query (fun net s => q.run net root s) aig = .ok (a, aig') := by
  have hclosed := h.shaped.closed h.shaped.counts_size.symm
  have hpresent : aig.network.Present root :=
    ⟨aig.nodes[root].site, by simp [network, networkOf, hroot]⟩
  obtain ⟨a, s', hrun, -⟩ := q.exists_run_of_accounted
    ((h.counts.consistent h.shaped.counts_size).accounted hclosed) hclosed
    (h.shaped.closed h.shaped.marks_size.symm) (acyclic_network h.shaped.acyclic) hpresent
    (by rwa [h.shaped.counts_size]) hroom
  exact ⟨a, { aig with stores := s' }, by rw [query_eq_map, hrun]; rfl⟩

end Sound

theorem Reached.sound (h : Reached aig) : Sound aig := by
  induction h with
  | empty => exact sound_empty
  | load h => exact sound_of_load h
  | addInput _ ih => exact ih.addInput
  | addLatch _ h ih => exact ih.addLatch h
  | setNextState _ h ih => exact ih.setNextState h
  | addAnd _ h ih => exact ih.addAnd h
  | addOutput _ h ih => exact ih.addOutput h
  | setName n name _ ih => exact ih.setName n name
  | query _ h ih => exact ih.query h

/-- No node has more consumers than can be counted. -/
theorem Sound.demand_le (h : aig.Sound) (v : Nat) : aig.demand v ≤ FanoutCounts.maxCount := by
  have hparents : aig.stores.counts.parents v = aig.demand v := h.counts v
  rw [← hparents]
  exact aig.stores.counts.parents_le v

/-- What can be relied on in a graph. -/
structure Reliable (aig : Aig) : Prop where
  audit : aig.auditCounts = .ok ()
  parents_eq : ∀ v, aig.stores.counts.parents v = (aig.consumers.map Edge.node).count v
  acyclic : (gatesOf aig.nodes).Acyclic
  input_iff : ∀ k n : Nat, aig.inputs[k]? = some n ↔ aig.nodes[n]? = some (.input k)
  latch_iff : ∀ k n : Nat, aig.latches[k]?.map Latch.node = some n ↔ aig.nodes[n]? = some (.latch k)
  inputs_nodup : aig.inputs.toList.Nodup
  latches_nodup : (aig.latches.toList.map Latch.node).Nodup
  /-- A latch that exists can be given any node that can get one more parent as its next state. -/
  setNextState : ∀ position e, position < aig.latches.size → e.node < aig.nodes.size →
    aig.stores.counts.parents e.node < FanoutCounts.maxCount →
    ∃ aig', aig.setNextState position e = .ok aig'
  /-- A question about nodes that exist is answered, if the protected ones can get their parents. -/
  query : ∀ (q : ConeQuery) (root : Nat), root < aig.nodes.size →
    (∀ v ∈ q.leaves, v < aig.nodes.size) → aig.stores.counts.RoomFor q.leaves →
    ∃ a aig', Container.query (fun net s => q.run net root s) aig = .ok (a, aig')

/-- At every point of a run of building, loading and asking, the counts pass their audit, no gate
depends on itself, inputs and latches are listed at their positions and nowhere else, and where no
count passes its maximum any latch can be given any next state and every query on nodes of the graph
returns. -/
theorem Reached.reliable (h : Reached aig) : Reliable aig := by
  have hsound := h.sound
  have hlatches := hsound.listed.latches.nodup AigNode.latch_injective
  rw [Array.toList_map] at hlatches
  have haudit := auditCounts_eq_ok_iff.2 (recount_of_ahead hsound.counts hsound.shaped)
  refine ⟨haudit, hsound.counts, hsound.shaped.acyclic,
    hsound.listed.inputs, fun k n => ?_, hsound.listed.inputs.nodup AigNode.input_injective,
    hlatches, fun _ _ => hsound.exists_setNextState, fun q _ => hsound.exists_query q⟩
  rw [← Array.getElem?_map]
  exact hsound.listed.latches k n

/-- A latch that holds its state while the input is low, with its gate as an output. -/
def held : Aig where
  nodes := #[.const, .input 0, .latch 0, .and ⟨1, true⟩ ⟨2, false⟩]
  inputs := #[1]
  latches := #[⟨2, ⟨3, false⟩⟩]
  outputs := #[⟨3, true⟩]
  names := ∅
  outputNames := ∅
  stores := ⟨⟨#[0, 1, 1, 2]⟩, ⟨2, #[0, 0, 0, 2]⟩⟩

theorem reached_held : Reached held := by
  have hlatch := Reached.empty.addInput.addLatch rfl
  have hgate := hlatch.addAnd (show addAnd _ ⟨1, true⟩ ⟨2, false⟩ = .ok _ from rfl)
  have hnext := hgate.setNextState (show setNextState _ 0 ⟨3, false⟩ = .ok _ from rfl)
  have houtput := hnext.addOutput (show addOutput _ ⟨3, true⟩ = .ok _ from rfl)
  let q : ConeQuery := .stamped .iterative
  exact houtput.query (show Container.query (fun net s => q.run net 3 s) _ = .ok _ from rfl)

theorem reliable_held : Reliable held := reached_held.reliable

end Aig

end FanoutCone
