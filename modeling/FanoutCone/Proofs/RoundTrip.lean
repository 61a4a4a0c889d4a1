import FanoutCone.Proofs.WrittenGraphs

/-!
# Loading undoes writing

A graph that was built from nothing has no name of an output, and no node of it
was ever marked. That is also what a loaded graph is like, and its nodes, lists
and names are those that were written. Its counts were made anew, and agree
because both are the numbers of parents.
-/
namespace FanoutCone.Aig

open Aiger (Record Draft)

/-- The graphs that are built from the empty one, with names for inputs and latches that fit on
lines. -/
inductive Built : Aig → Prop
  | empty : Built empty
  | addInput {aig : Aig} : Built aig → Built aig.addInput.2
  | addLatch {aig aig' : Aig} {e : Edge} : Built aig → aig.addLatch = .ok (e, aig') → Built aig'
  | setNextState {aig aig' : Aig} {position : Nat} {e : Edge} :
      Built aig → aig.setNextState position e = .ok aig' → Built aig'
  | addAnd {aig aig' : Aig} {left right e : Edge} :
      Built aig → aig.addAnd left right = .ok (e, aig') → Built aig'
  | addOutput {aig aig' : Aig} {e : Edge} {position : Nat} :
      Built aig → aig.addOutput e = .ok (position, aig') → Built aig'
  | setName {aig : Aig} {n k : Nat} {name : String} : Built aig →
      aig.nodes[n]? = some (.input k) ∨ aig.nodes[n]? = some (.latch k) → name ≠ "" →
      '\n' ∉ name.toList → name.toList.getLast? ≠ some '\r' → Built (aig.setName n name)

/-- What building keeps beside the shape of a graph and its counts. -/
structure Plain (aig : Aig) : Prop where
  named : aig.Named
  outputNames_eq : aig.outputNames = ∅
  marks_eq : aig.stores.marks = Marks.empty.grow aig.nodes.size

variable {aig aig' : Aig} {node : AigNode} {e : Edge} {n : Nat}
variable {gates : List Nat} {names : List (Nat × String)} {d : Draft}

namespace Plain

theorem addNode (h : aig.Plain) (node : AigNode) : (aig.addNode node).2.Plain := by
  obtain ⟨hfree, -, hother⟩ := getElem?_addNode aig node
  refine ⟨fun n name hname => ?_, h.outputNames_eq, ?_⟩
  · obtain ⟨⟨k, hk⟩, hne, hendable⟩ := h.named n name hname
    refine ⟨⟨k, ?_⟩, hne, hendable⟩
    rwa [hother n (by rintro rfl; rw [hfree] at hk; rcases hk with hk | hk <;> cases hk)]
  · show aig.stores.marks.grow (aig.nodes.size + 1) = Marks.empty.grow (aig.nodes.push node).size
    rw [h.marks_eq, Array.size_push]
    simp [Marks.grow, Marks.empty, Array.replicate_succ]

/-- Changes of counts, next states, inputs and outputs alone. -/
theorem of_eq (h : aig.Plain) (hnodes : aig'.nodes = aig.nodes) (hnames : aig'.names = aig.names)
    (houtputNames : aig'.outputNames = aig.outputNames)
    (hmarks : aig'.stores.marks = aig.stores.marks) : aig'.Plain := by
  refine ⟨?_, houtputNames.trans h.outputNames_eq, ?_⟩
  · unfold Named
    rw [hnodes, hnames]
    exact h.named
  · rw [hnodes, hmarks]
    exact h.marks_eq

theorem consume (h : aig.Plain) (hconsume : aig.consume e = .ok aig') : aig'.Plain := by
  obtain ⟨before, counts, -, rfl⟩ := consume_eq_ok hconsume
  exact h.of_eq rfl rfl rfl rfl

theorem setNextState (h : aig.Plain) {position : Nat}
    (hset : aig.setNextState position e = .ok aig') : aig'.Plain := by
  obtain ⟨aig₁, latch, hconsume, -, hrelease⟩ := setNextState_eq_ok hset
  obtain ⟨after, counts, -, rfl⟩ := release_eq_ok hrelease
  exact (h.consume hconsume).of_eq rfl rfl rfl rfl

theorem setName (h : aig.Plain) {k : Nat} {name : String}
    (hn : aig.nodes[n]? = some (.input k) ∨ aig.nodes[n]? = some (.latch k)) (hne : name ≠ "")
    (hendable : Aiger.Endable name.toList) : (aig.setName n name).Plain := by
  refine ⟨fun m name' hname => ?_, h.outputNames_eq, h.marks_eq⟩
  change (aig.names.insert n name)[m]? = _ at hname
  rw [Std.ExtTreeMap.getElem?_insert] at hname
  split at hname
  · rename_i hm
    obtain rfl := Nat.compare_eq_eq.1 hm
    cases hname
    exact ⟨⟨k, hn⟩, fun hnil => hne (String.toList_eq_nil_iff.1 hnil), hendable⟩
  · exact h.named m name' hname

end Plain

theorem plain_empty : empty.Plain := by
  refine ⟨fun n name hname => ?_, rfl, rfl⟩
  change (∅ : NameTable)[n]? = some name at hname
  simp at hname

theorem Built.plain (h : Built aig) : aig.Plain := by
  induction h with
  | empty => exact plain_empty
  | addInput _ ih => exact (ih.addNode _).of_eq rfl rfl rfl rfl
  | addLatch _ hadd ih =>
    obtain ⟨aig₁, hconsume, rfl⟩ := addLatch_eq_ok hadd
    exact ((ih.addNode _).consume hconsume).of_eq rfl rfl rfl rfl
  | setNextState _ hset ih => exact ih.setNextState hset
  | addAnd _ hadd ih =>
    obtain ⟨aig₁, aig₂, hleft, hright, -, rfl⟩ := addAnd_eq_ok hadd
    exact ((ih.consume hleft).consume hright).addNode _
  | addOutput _ hadd ih =>
    obtain ⟨aig₁, hconsume, rfl⟩ := addOutput_eq_ok hadd
    exact (ih.consume hconsume).of_eq rfl rfl rfl rfl
  | setName _ hn hne hnewline hreturn ih => exact ih.setName hn hne ⟨hnewline, hreturn⟩

theorem Built.reached (h : Built aig) : aig.Reached := by
  induction h with
  | empty => exact .empty
  | addInput _ ih => exact ih.addInput
  | addLatch _ h ih => exact ih.addLatch h
  | setNextState _ h ih => exact ih.setNextState h
  | addAnd _ h ih => exact ih.addAnd h
  | addOutput _ h ih => exact ih.addOutput h
  | setName _ _ _ _ _ ih => exact ih.setName _ _

/-- A draft that holds the records of a graph holds its nodes and lists. -/
theorem Sound.draft_eq (h : aig.Sound) (hgates : gates.Perm aig.ands)
    (hd : d.Holds (aig.nodes.size - 1) (aig.records gates names)) :
    d.inputs = aig.inputs ∧ d.latches = aig.latches ∧ d.outputs = aig.outputs ∧
      d.symbols.toList = names.filterMap aig.symbol? ∧ ∀ n, d.nodeAt n = aig.nodes[n]? := by
  obtain ⟨hinputs, hlatches, houtputs, hsymbols⟩ := lists_records aig gates names
  have hinputs : d.inputs = aig.inputs := Array.toList_inj.1 (hd.inputs_eq.trans hinputs)
  have hlatches : d.latches = aig.latches := Array.toList_inj.1 (hd.latches_eq.trans hlatches)
  refine ⟨hinputs, hlatches, Array.toList_inj.1 (hd.outputs_eq.trans houtputs),
    hd.symbols_eq.trans hsymbols, fun n => Option.ext fun node => ?_⟩
  cases node with
  | const => rw [hd.const_iff, h.shaped.const_iff]
  | input k => rw [← hd.listed.inputs, ← h.listed.inputs, hinputs]
  | latch k => rw [← hd.listed.latches, ← h.listed.latches, hlatches]
  | and left right =>
    rw [hd.gate_iff]
    simp only [gate_mem_records fun n => hgates.mem_iff]
    constructor
    · rintro ⟨literal, l, r, ⟨m, left', right', hm, rfl, rfl, rfl⟩, rfl, rfl, rfl⟩
      simpa using hm
    · intro hn
      exact ⟨_, _, _, ⟨n, left, right, hn, rfl, rfl, rfl⟩, by simp, by simp, by simp⟩

/-- Inserting the entries of a table, in any order, gives the table. -/
theorem foldl_insert_of_perm {table : NameTable} (h : names.Perm table.toList) :
    names.foldl (fun t named => t.insert named.1 named.2) ∅ = table := by
  rw [← Std.ExtTreeMap.insertMany_list_eq_foldl, ← Std.ExtTreeMap.ofList_eq_insertMany_empty]
  have hdistinct : names.Pairwise fun a b => ¬ compare a.1 b.1 = .eq :=
    (h.pairwise_iff fun hne heq => hne (by
      rw [Nat.compare_eq_eq] at heq ⊢
      exact heq.symm)).2 Std.ExtTreeMap.distinct_keys_toList
  apply Std.ExtTreeMap.ext_getElem?
  intro n
  cases hn : table[n]? with
  | some name =>
    have hmem := h.mem_iff.2 (Std.ExtTreeMap.mem_toList_iff_getElem?_eq_some.2 hn)
    exact Std.ExtTreeMap.getElem?_ofList_of_mem (Nat.compare_eq_eq.2 rfl) hdistinct hmem
  | none =>
    apply Std.ExtTreeMap.getElem?_ofList_of_contains_eq_false
    refine Bool.eq_false_iff.2 fun hcontains => ?_
    obtain ⟨⟨m, name⟩, hmem, rfl⟩ := List.mem_map.1 (List.contains_iff_mem.1 hcontains)
    have hm := Std.ExtTreeMap.mem_toList_iff_getElem?_eq_some.1 (h.mem_iff.1 hmem)
    cases hn.symm.trans hm

/-- Symbols are resolved to the names that they were written for. -/
theorem Sound.names_eq (h : aig.Sound) (hnamed : aig.Named) (hgates : gates.Perm aig.ands)
    (hnames : names.Perm aig.names.toList)
    (hd : d.Holds (aig.nodes.size - 1) (aig.records gates names)) :
    d.names = aig.names ∧ d.outputNames = ∅ := by
  obtain ⟨hinputs, hlatches, -, hsymbols, -⟩ := h.draft_eq hgates hd
  have hsymbol : ∀ named ∈ names, ∃ s, aig.symbol? named = some s ∧ s.name = named.2 ∧
      s.kind ≠ .output ∧ d.symbolNode? s = some named.1 := by
    rintro ⟨n, name⟩ hmem
    have hname := Std.ExtTreeMap.mem_toList_iff_getElem?_eq_some.1 (hnames.mem_iff.1 hmem)
    obtain ⟨⟨k, hk⟩, -, -⟩ := hnamed n name hname
    rcases hk with hk | hk
    · refine ⟨_, symbol?_eq_some_iff.2 ⟨k, Or.inl ⟨hk, rfl⟩⟩, rfl, by simp, ?_⟩
      show d.inputs[k]? = some n
      rw [hinputs]
      exact (h.listed.inputs k n).2 hk
    · refine ⟨_, symbol?_eq_some_iff.2 ⟨k, Or.inr ⟨hk, rfl⟩⟩, rfl, by simp, ?_⟩
      show d.latches[k]?.map Latch.node = some n
      rw [hlatches, ← Array.getElem?_map]
      exact (h.listed.latches k n).2 hk
  constructor
  · rw [Draft.names, ← Array.foldl_toList, hsymbols, List.foldl_filterMap,
      ← foldl_insert_of_perm hnames]
    refine List.foldl_ext _ _ _ fun table named hmem => ?_
    obtain ⟨s, hs, hname, -, hnode⟩ := hsymbol named hmem
    simp only [hs, hnode, hname]
  · rw [Draft.outputNames, ← Array.foldl_toList, hsymbols, List.foldl_filterMap]
    refine (List.foldl_ext _ (fun table _ => table) _ fun table named hmem => ?_).trans
      (List.foldl_fixed _)
    obtain ⟨s, hs, -, hkind, -⟩ := hsymbol named hmem
    simp only [hs, hkind, if_false]

/-- A draft that holds the records of a graph is finished with the nodes of the graph. -/
theorem Writable.exists_finish (h : aig.Writable) (hgates : gates.Perm aig.ands)
    (hnames : names.Perm aig.names.toList)
    (hd : d.Holds (aig.nodes.size - 1) (aig.records gates names)) :
    ∃ aig', d.finish = .ok aig' ∧ aig'.nodes = aig.nodes := by
  obtain ⟨-, hlatches, houtputs, -, hnodeAt⟩ := h.sound.draft_eq hgates hd
  have hpos := h.sound.shaped.size_pos
  have hall : ∀ v ≤ aig.nodes.size - 1, Aiger.Defines (aig.records gates names) v := by
    intro v hv
    have hlt : v < aig.nodes.size := by omega
    rw [← hd.isSome_nodeAt_iff, hnodeAt, Array.getElem?_eq_getElem hlt]
    rfl
  have hnodes : d.slots.filterMap id = aig.nodes := by
    apply Array.ext_getElem?
    intro n
    rw [(hd.nodes_of_defined hall).2, hnodeAt]
  have hrange : ∀ record ∈ aig.records gates names, record.InRange (aig.nodes.size - 1) :=
    fun record hrecord => (h.writable_records hnames record hrecord).inRange
  rcases hd.finish_of_defined hrange hall with
    ⟨v, hcycle, -⟩ | ⟨-, ⟨v, hover, -⟩ | ⟨-, aig', hfinish⟩⟩
  · have hreads : Aiger.GateReads (aig.records gates names) = (gatesOf aig.nodes).Reads := by
      funext u v
      rw [← hnodes]
      exact (propext (hd.reads_iff hall)).symm
    rw [hreads] at hcycle
    exact absurd hcycle (h.sound.shaped.acyclic v)
  · have hparents : aig.stores.counts.parents v = (aig.consumers.map Edge.node).count v :=
      h.sound.counts v
    rw [← hd.count_consumers hall hnodes.symm hlatches.symm houtputs.symm, ← hparents] at hover
    exact absurd (aig.stores.counts.parents_le v) (Nat.not_le.2 hover)
  · exact ⟨aig', hfinish, (Draft.finish_eq_ok hfinish).nodes_eq.trans hnodes⟩

/-- Counts that are made anew are those that were kept while building. -/
theorem Sound.counts_eq (h : aig.Sound) (hfinished : Draft.Finished d aig')
    (hnodes : aig'.nodes = aig.nodes) (hlatches : aig'.latches = aig.latches)
    (houtputs : aig'.outputs = aig.outputs) : aig'.stores.counts = aig.stores.counts := by
  have hconsumers : aig'.consumers = aig.consumers := by
    unfold consumers
    rw [hnodes, hlatches, houtputs]
  apply FanoutCounts.ext_parents
  · rw [(FanoutCounts.incrementAll_eq_ok hfinished.counted).1, FanoutCounts.size_grow, hnodes,
      h.shaped.counts_size]
    exact Nat.zero_max _
  · intro v
    rw [hfinished.parents_eq, h.counts, hconsumers]
    rfl

/-- Loading undoes writing. The text of a graph that was built, with its gates and its names in any
order, is loaded as that graph: nodes, inputs, latches, outputs, names, counts and marks are the
same, as long as there are handles for all nodes and the number of outputs fits in 64 bits. -/
theorem Built.load_write (h : aig.Built) (hsize : aig.nodes.size ≤ Node.maxIndex + 1)
    (houtputs : aig.outputs.size < Aiger.valueLimit) (hgates : gates.Perm aig.ands)
    (hnames : names.Perm aig.names.toList) : Aiger.load (aig.write gates names) = .ok aig := by
  have hplain := h.plain
  have hsound := h.reached.sound
  have hwritable : aig.Writable := ⟨hsound, hplain.named, hsize, houtputs⟩
  obtain ⟨d, hd, hload⟩ := hwritable.load_written hgates hnames
  obtain ⟨aig', hfinish, hnodes⟩ := hwritable.exists_finish hgates hnames hd
  obtain ⟨hdinputs, hdlatches, hdoutputs, -, -⟩ := hsound.draft_eq hgates hd
  obtain ⟨hdnames, hdoutputNames⟩ := hsound.names_eq hplain.named hgates hnames hd
  obtain ⟨houtputsEq, hnamesEq, houtputNames⟩ := Draft.finish_frame hfinish
  have hfinished := Draft.finish_eq_ok hfinish
  have hlatches := hfinished.latches_eq.trans hdlatches
  have houtputs := houtputsEq.trans hdoutputs
  have hcounts := hsound.counts_eq hfinished hnodes hlatches houtputs
  have hmarks : aig'.stores.marks = aig.stores.marks := by
    rw [hfinished.marks_eq, hnodes, hplain.marks_eq]
  rw [hload, hfinish]
  show Except.ok (⟨aig'.nodes, aig'.inputs, aig'.latches, aig'.outputs, aig'.names,
    aig'.outputNames, ⟨aig'.stores.counts, aig'.stores.marks⟩⟩ : Aig) = _
  rw [hnodes, hfinished.inputs_eq, hdinputs, hlatches, houtputs, hnamesEq, hdnames, houtputNames,
    hdoutputNames, ← hplain.outputNames_eq, hcounts, hmarks]

/-- A latch with a gate below its next state, and an input with a name. -/
def labelled : Aig :=
  setName
    { nodes := #[.const, .input 0, .latch 0, .and ⟨1, true⟩ ⟨2, false⟩, .and ⟨3, false⟩ ⟨3, true⟩]
      inputs := #[1]
      latches := #[⟨2, ⟨4, true⟩⟩]
      outputs := #[⟨4, false⟩]
      names := ∅
      outputNames := ∅
      stores := ⟨⟨#[0, 1, 1, 2, 2]⟩, ⟨1, #[0, 0, 0, 0, 0]⟩⟩ } 1 "hold it"

theorem built_labelled : Built labelled := by
  have hlatch := Built.empty.addInput.addLatch rfl
  have hlow := hlatch.addAnd (show addAnd _ ⟨1, true⟩ ⟨2, false⟩ = .ok _ from rfl)
  have hhigh := hlow.addAnd (show addAnd _ ⟨3, false⟩ ⟨3, true⟩ = .ok _ from rfl)
  have hnext := hhigh.setNextState (show setNextState _ 0 ⟨4, true⟩ = .ok _ from rfl)
  have houtput := hnext.addOutput (show addOutput _ ⟨4, false⟩ = .ok _ from rfl)
  exact houtput.setName (k := 0) (Or.inl rfl) (by decide) (by decide) (by decide)

theorem load_write_labelled :
    Aiger.load (labelled.write [4, 3] labelled.names.toList) = .ok labelled :=
  built_labelled.load_write (by decide) (by decide) (by decide) (List.Perm.refl _)

end FanoutCone.Aig
