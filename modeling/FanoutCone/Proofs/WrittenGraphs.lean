import FanoutCone.Proofs.AigRuns
import FanoutCone.Proofs.Writing

/-!
# Written graphs

A graph is written as its inputs, latches and outputs in order, its gates in any
order, and a symbol for each name. Every node but the constant is defined by one
of these records, and by one only, because inputs and latches are listed at
their positions and nowhere else. So a draft that holds the records of a graph
holds the graph.
-/
namespace FanoutCone

theorem Edge.literal_div_two (e : Edge) : e.literal / 2 = e.node :=
  congrArg Edge.node e.ofLiteral_literal

namespace Aig

open Aiger (Record Symbol Header)

/-- What the header of a graph declares. -/
def header (aig : Aig) : Header :=
  ⟨aig.nodes.size - 1, aig.inputs.size, aig.latches.size, aig.outputs.size, aig.ands.length⟩

def inputRecord (n : Nat) : Record := .input (2 * n)

def latchRecord (latch : Latch) : Record := .latch (2 * latch.node) latch.next.literal

def outputRecord (e : Edge) : Record := .output e.literal

/-- The record of the gate at an index. -/
def gateRecord (aig : Aig) (n : Nat) : Option Record :=
  match aig.nodes[n]? with
  | some (.and left right) => some (.gate (2 * n) left.literal right.literal)
  | _ => none

/-- The symbol that gives a node its name: inputs and latches are named by their positions. -/
def symbol? (aig : Aig) (named : Nat × String) : Option Symbol :=
  match aig.nodes[named.1]? with
  | some (.input k) => some ⟨.input, k, named.2⟩
  | some (.latch k) => some ⟨.latch, k, named.2⟩
  | _ => none

/-- The records of a graph, with its gates and names in the given orders. -/
def records (aig : Aig) (gates : List Nat) (names : List (Nat × String)) : List Record :=
  aig.inputs.toList.map inputRecord ++ aig.latches.toList.map latchRecord ++
    aig.outputs.toList.map outputRecord ++ gates.filterMap aig.gateRecord ++
      (names.filterMap aig.symbol?).map .symbol

/-- The text of a graph, with its gates and names in the given orders. -/
def write (aig : Aig) (gates : List Nat) (names : List (Nat × String)) : List UInt8 :=
  Aiger.writeText aig.header (aig.records gates names)

/-- Only inputs and latches have names, and each name fits on a line. -/
def Named (aig : Aig) : Prop :=
  ∀ (n : Nat) (name : String), aig.names[n]? = some name →
    (∃ k, aig.nodes[n]? = some (.input k) ∨ aig.nodes[n]? = some (.latch k)) ∧
      name.toList ≠ [] ∧ Aiger.Endable name.toList

/-- A graph that can be written: handles and numerals reach as far as it does. -/
structure Writable (aig : Aig) : Prop where
  sound : aig.Sound
  named : aig.Named
  size_le : aig.nodes.size ≤ Node.maxIndex + 1
  outputs_lt : aig.outputs.size < Aiger.valueLimit

variable {aig : Aig} {gates : List Nat} {names : List (Nat × String)} {n : Nat} {record : Record}

theorem gateRecord_eq_some_iff : aig.gateRecord n = some record ↔
    ∃ left right, aig.nodes[n]? = some (.and left right) ∧
      record = .gate (2 * n) left.literal right.literal := by
  unfold gateRecord
  cases aig.nodes[n]? with
  | none => simp
  | some node => cases node <;> simp [eq_comm]

theorem symbol?_eq_some_iff {named : Nat × String} {s : Symbol} : aig.symbol? named = some s ↔
    ∃ k, aig.nodes[named.1]? = some (.input k) ∧ s = ⟨.input, k, named.2⟩ ∨
      aig.nodes[named.1]? = some (.latch k) ∧ s = ⟨.latch, k, named.2⟩ := by
  unfold symbol?
  cases aig.nodes[named.1]? with
  | none => simp
  | some node => cases node <;> simp [eq_comm]

/-- What is picked from records that are not gates. -/
theorem filterMap_records {β : Type} {pick : Record → Option β}
    (hgate : ∀ literal left right, pick (.gate literal left right) = none) :
    (aig.records gates names).filterMap pick =
      aig.inputs.toList.filterMap (pick ∘ inputRecord) ++
        aig.latches.toList.filterMap (pick ∘ latchRecord) ++
          aig.outputs.toList.filterMap (pick ∘ outputRecord) ++
            (names.filterMap aig.symbol?).filterMap (pick ∘ .symbol) := by
  have hgates : (gates.filterMap aig.gateRecord).filterMap pick = [] := by
    refine List.filterMap_eq_nil_iff.2 fun record hrecord => ?_
    obtain ⟨n, -, hn⟩ := List.mem_filterMap.1 hrecord
    obtain ⟨left, right, -, rfl⟩ := gateRecord_eq_some_iff.1 hn
    exact hgate _ _ _
  simp only [records, List.filterMap_append, List.filterMap_map, hgates, List.append_nil]

/-- The records declare the inputs, latches and outputs of the graph, in order. -/
theorem lists_records (aig : Aig) (gates : List Nat) (names : List (Nat × String)) :
    (aig.records gates names).filterMap Record.input? = aig.inputs.toList ∧
      (aig.records gates names).filterMap Record.latch? = aig.latches.toList ∧
      (aig.records gates names).filterMap Record.output? = aig.outputs.toList ∧
      (aig.records gates names).filterMap Record.symbol? = names.filterMap aig.symbol? := by
  refine ⟨?_, ?_, ?_, ?_⟩
  · rw [filterMap_records fun _ _ _ => rfl]
    simp [Function.comp_def, inputRecord, latchRecord, outputRecord, Record.input?]
  · rw [filterMap_records fun _ _ _ => rfl]
    simp [Function.comp_def, inputRecord, latchRecord, outputRecord, Record.latch?]
  · rw [filterMap_records fun _ _ _ => rfl]
    simp [Function.comp_def, inputRecord, latchRecord, outputRecord, Record.output?]
  · rw [filterMap_records fun _ _ _ => rfl]
    simp [Function.comp_def, inputRecord, latchRecord, outputRecord, Record.symbol?]

theorem gateRecord_of_mem (h : n ∈ aig.ands) :
    ∃ left right, aig.nodes[n]? = some (.and left right) ∧
      aig.gateRecord n = some (.gate (2 * n) left.literal right.literal) := by
  obtain ⟨left, right, hn⟩ := mem_ands.1 h
  exact ⟨left, right, hn, gateRecord_eq_some_iff.2 ⟨left, right, hn, rfl⟩⟩

/-- Each input, latch and gate is defined by one record. -/
theorem defined_records (names : List (Nat × String)) (hgates : ∀ n ∈ gates, n ∈ aig.ands) :
    (aig.records gates names).filterMap Record.defined? =
      aig.inputs.toList ++ aig.latches.toList.map Latch.node ++ gates := by
  have hdefined : (gates.filterMap aig.gateRecord).filterMap Record.defined? = gates := by
    rw [List.filterMap_filterMap]
    refine (List.filterMap_congr fun n hn => ?_).trans List.filterMap_some
    obtain ⟨left, right, -, hrecord⟩ := gateRecord_of_mem (hgates n hn)
    rw [hrecord, Option.bind_some]
    simp [Record.defined?]
  rw [records, List.filterMap_append, List.filterMap_append, hdefined]
  simp [List.filterMap_append, List.filterMap_map, Function.comp_def, inputRecord,
      latchRecord, outputRecord, Record.defined?]

/-- The gates among the records are those of the graph. -/
theorem gate_mem_records (hgates : ∀ n, n ∈ gates ↔ n ∈ aig.ands) {literal l r : Nat} :
    .gate literal l r ∈ aig.records gates names ↔
      ∃ n left right, aig.nodes[n]? = some (.and left right) ∧ literal = 2 * n ∧
        l = left.literal ∧ r = right.literal := by
  have hmem : .gate literal l r ∈ aig.records gates names ↔
      ∃ n ∈ gates, aig.gateRecord n = some (.gate literal l r) := by
    simp [records, inputRecord, latchRecord, outputRecord]
  rw [hmem]
  simp only [gateRecord_eq_some_iff, Record.gate.injEq, hgates, mem_ands]
  constructor
  · rintro ⟨n, -, left, right, hrecord⟩
    exact ⟨n, left, right, hrecord⟩
  · rintro ⟨n, left, right, hn, hrecord⟩
    exact ⟨n, ⟨left, right, hn⟩, left, right, hn, hrecord⟩

namespace Sound

theorem exists_input (h : aig.Sound) (hn : n ∈ aig.inputs) :
    ∃ k < aig.inputs.size, aig.nodes[n]? = some (.input k) := by
  obtain ⟨k, hk⟩ := Array.mem_iff_getElem?.1 hn
  exact ⟨k, (Array.getElem?_eq_some_iff.1 hk).1, (h.listed.inputs k n).1 hk⟩

theorem exists_latch (h : aig.Sound) {latch : Latch} (hlatch : latch ∈ aig.latches) :
    ∃ k < aig.latches.size, aig.nodes[latch.node]? = some (.latch k) := by
  obtain ⟨k, hk⟩ := Array.mem_iff_getElem?.1 hlatch
  refine ⟨k, (Array.getElem?_eq_some_iff.1 hk).1, (h.listed.latches k latch.node).1 ?_⟩
  rw [Array.getElem?_map, hk, Option.map_some]

/-- No node is defined by two records, and the constant by none. -/
theorem defined_nodup (h : aig.Sound) (hgates : gates.Perm aig.ands) :
    (aig.inputs.toList ++ aig.latches.toList.map Latch.node ++ gates).Nodup ∧
      ∀ n ∈ aig.inputs.toList ++ aig.latches.toList.map Latch.node ++ gates,
        n ≠ 0 ∧ n < aig.nodes.size := by
  have hinput : ∀ n ∈ aig.inputs.toList, ∃ k, aig.nodes[n]? = some (.input k) := fun n hn => by
    obtain ⟨k, -, hk⟩ := h.exists_input (Array.mem_toList_iff.1 hn)
    exact ⟨k, hk⟩
  have hlatch : ∀ n ∈ aig.latches.toList.map Latch.node, ∃ k, aig.nodes[n]? = some (.latch k) := by
    intro n hn
    obtain ⟨latch, hmem, rfl⟩ := List.mem_map.1 hn
    obtain ⟨k, -, hk⟩ := h.exists_latch (Array.mem_toList_iff.1 hmem)
    exact ⟨k, hk⟩
  have hgate : ∀ n ∈ gates, ∃ left right, aig.nodes[n]? = some (.and left right) := fun n hn =>
    mem_ands.1 (hgates.mem_iff.1 hn)
  refine ⟨List.nodup_append.2 ⟨List.nodup_append.2 ⟨?_, ?_, ?_⟩, ?_, ?_⟩, ?_⟩
  · exact h.listed.inputs.nodup AigNode.input_injective
  · have hnodup := h.listed.latches.nodup AigNode.latch_injective
    rwa [Array.toList_map] at hnodup
  · rintro n hn _ hm rfl
    obtain ⟨k, hk⟩ := hinput n hn
    obtain ⟨j, hj⟩ := hlatch n hm
    cases hk.symm.trans hj
  · exact hgates.nodup_iff.2 (List.nodup_range.filter _)
  · rintro n hn _ hm rfl
    obtain ⟨left, right, hgate⟩ := hgate n hm
    rcases List.mem_append.1 hn with hn | hn
    · obtain ⟨k, hk⟩ := hinput n hn
      cases hk.symm.trans hgate
    · obtain ⟨k, hk⟩ := hlatch n hn
      cases hk.symm.trans hgate
  · have hnode : ∀ n node, aig.nodes[n]? = some node → node ≠ .const →
        n ≠ 0 ∧ n < aig.nodes.size := by
      intro n node hn hne
      refine ⟨?_, (Array.getElem?_eq_some_iff.1 hn).1⟩
      rintro rfl
      exact hne (Option.some.inj (hn.symm.trans ((h.shaped.const_iff 0).2 rfl)))
    intro n hn
    rcases List.mem_append.1 hn with hn | hn
    · rcases List.mem_append.1 hn with hn | hn
      · obtain ⟨k, hk⟩ := hinput n hn
        exact hnode n _ hk AigNode.noConfusion
      · obtain ⟨k, hk⟩ := hlatch n hn
        exact hnode n _ hk AigNode.noConfusion
    · obtain ⟨left, right, hgate⟩ := hgate n hn
      exact hnode n _ hgate AigNode.noConfusion

/-- There are no more inputs, latches and gates than nodes. -/
theorem length_le_size (h : aig.Sound) :
    aig.inputs.size + aig.latches.size + aig.ands.length ≤ aig.nodes.size := by
  obtain ⟨hnodup, hlt⟩ := h.defined_nodup (List.Perm.refl aig.ands)
  have hsub : (aig.inputs.toList ++ aig.latches.toList.map Latch.node ++ aig.ands) ⊆
      List.range aig.nodes.size := fun n hn => List.mem_range.2 (hlt n hn).2
  have hle := (hnodup.subperm hsub).length_le
  simpa [Nat.add_assoc] using hle

end Sound

/-- Each record stands where its part has its place. -/
theorem part_records (hgates : gates.Perm aig.ands) {k : Nat}
    (hk : (aig.records gates names)[k]? = some record) : aig.header.part k = record.part := by
  have hlength : (gates.filterMap aig.gateRecord).length = aig.ands.length := by
    rw [List.filterMap_length_eq_length.2 fun n hn => ?_, hgates.length_eq]
    obtain ⟨left, right, -, hrecord⟩ := gateRecord_of_mem (hgates.mem_iff.1 hn)
    rw [hrecord]
    rfl
  have hgatesPart : ∀ r ∈ gates.filterMap aig.gateRecord, r.part = .gates := by
    intro r hr
    obtain ⟨n, -, hn⟩ := List.mem_filterMap.1 hr
    obtain ⟨left, right, -, rfl⟩ := gateRecord_eq_some_iff.1 hn
    rfl
  have hpart := Header.part_append (aig.nodes.size - 1) (List.forall_mem_map.2 fun _ _ => rfl)
    (List.forall_mem_map.2 fun _ _ => rfl) (List.forall_mem_map.2 fun _ _ => rfl) hgatesPart
    (List.forall_mem_map.2 fun _ _ => rfl) hk
  simpa [header, hlength] using hpart

namespace Writable

/-- A record that names nodes of the graph only is read from its line. -/
theorem writable_of_node_lt (h : aig.Writable)
    (hlt : ∀ literal ∈ record.literals, literal / 2 < aig.nodes.size)
    (hdefined : ∀ v, record.defined? = some v → record.literals.head? = some (2 * v))
    (hsymbol : ∀ s, record.symbol? = some s → s.Writable) :
    record.Writable aig.header.maximum := by
  have hsize := h.size_le
  have hmax : 2 * (Node.maxIndex + 1) < Aiger.valueLimit := by decide
  refine ⟨fun literal hliteral => ?_, fun literal hliteral => ?_, hdefined, hsymbol⟩
  · have hnode := hlt literal hliteral
    show literal / 2 ≤ aig.nodes.size - 1
    omega
  · have hnode := hlt literal hliteral
    omega

/-- Each record of the graph is read from its line. -/
theorem writable_records (h : aig.Writable)
    (hnames : names.Perm aig.names.toList) :
    ∀ record ∈ aig.records gates names, record.Writable aig.header.maximum := by
  have hnode : ∀ {n : Nat} {node}, aig.nodes[n]? = some node → n < aig.nodes.size :=
    fun hn => (Array.getElem?_eq_some_iff.1 hn).1
  have hedge : ∀ e ∈ aig.consumers, e.literal / 2 < aig.nodes.size := fun e he => by
    rw [e.literal_div_two]
    exact h.sound.shaped.consumers e he
  have hfanin : ∀ {n : Nat} {node : AigNode}, aig.nodes[n]? = some node → ∀ e ∈ node.fanins,
      e ∈ aig.consumers := fun hn _ he =>
    mem_consumers.2 (Or.inl ⟨_, Array.mem_of_getElem? hn, he⟩)
  have hnone : ∀ {α : Type} {P : α → Prop} (a : α), none = some a → P a :=
    fun a ha => absurd ha (Option.not_mem_none a)
  intro record hrecord
  simp only [records, List.mem_append, List.mem_map, List.mem_filterMap, Array.mem_toList_iff,
    or_assoc] at hrecord
  rcases hrecord with ⟨n, hn, rfl⟩ | ⟨latch, hlatch, rfl⟩ | ⟨e, he, rfl⟩ | ⟨n, hn, hrecord⟩ |
    ⟨s, ⟨⟨n, name⟩, hnamed, hs⟩, rfl⟩
  · obtain ⟨k, -, hk⟩ := h.sound.exists_input hn
    refine h.writable_of_node_lt ?_ ?_ hnone
    · simpa [inputRecord, Record.literals] using hnode hk
    · simp [inputRecord, Record.literals, Record.defined?]
  · obtain ⟨k, -, hk⟩ := h.sound.exists_latch hlatch
    have hnext := hedge latch.next (mem_consumers.2 (Or.inr (Or.inl ⟨latch, hlatch, rfl⟩)))
    refine h.writable_of_node_lt ?_ ?_ hnone
    · simpa [latchRecord, Record.literals] using ⟨hnode hk, hnext⟩
    · simp [latchRecord, Record.literals, Record.defined?]
  · have he := hedge e (mem_consumers.2 (Or.inr (Or.inr he)))
    refine h.writable_of_node_lt ?_ hnone hnone
    simpa [outputRecord, Record.literals] using he
  · obtain ⟨left, right, hn, rfl⟩ := gateRecord_eq_some_iff.1 hrecord
    have hleft := hedge left (hfanin hn left (by simp [AigNode.fanins]))
    have hright := hedge right (hfanin hn right (by simp [AigNode.fanins]))
    refine h.writable_of_node_lt ?_ ?_ hnone
    · simpa [Record.literals] using ⟨hnode hn, hleft, hright⟩
    · simp [Record.literals, Record.defined?]
  · have hname := Std.ExtTreeMap.mem_toList_iff_getElem?_eq_some.1 (hnames.mem_iff.1 hnamed)
    obtain ⟨-, hne, hendable⟩ := h.named n name hname
    refine h.writable_of_node_lt (fun _ hl => absurd hl List.not_mem_nil) hnone ?_
    intro s' hs'
    cases hs'
    have hlength := h.sound.length_le_size
    have hsize := h.size_le
    have hmax : Node.maxIndex + 1 < Aiger.valueLimit := by decide
    obtain ⟨k, ⟨hk, rfl⟩ | ⟨hk, rfl⟩⟩ := symbol?_eq_some_iff.1 hs
    · have hlt := (Array.getElem?_eq_some_iff.1 ((h.sound.listed.inputs k n).2 hk)).1
      exact ⟨show k < _ by omega, hne, hendable⟩
    · have hlt := (Array.getElem?_eq_some_iff.1 ((h.sound.listed.latches k n).2 hk)).1
      rw [Array.size_map] at hlt
      exact ⟨show k < _ by omega, hne, hendable⟩

theorem read_header (h : aig.Writable) : Header.read aig.header.written = .ok aig.header := by
  have hlength := h.sound.length_le_size
  have hsize := h.size_le
  have hmax : Node.maxIndex + 1 < Aiger.valueLimit := by decide
  apply Aiger.Header.read_written
  · show aig.nodes.size - 1 < _
    omega
  · show aig.inputs.size < _
    omega
  · show aig.latches.size < _
    omega
  · exact h.outputs_lt
  · show aig.ands.length < _
    omega

/-- The text of a graph is loaded as a draft that holds its records. -/
theorem load_written (h : aig.Writable) (hgates : gates.Perm aig.ands)
    (hnames : names.Perm aig.names.toList) :
    ∃ d : Aiger.Draft, d.Holds (aig.nodes.size - 1) (aig.records gates names) ∧
      Aiger.load (aig.write gates names) = d.finish := by
  obtain ⟨hnodup, hdefined⟩ := h.sound.defined_nodup hgates
  have hrecords := defined_records names fun n hn => hgates.mem_iff.1 hn
  refine Aiger.load_writeText (fun k record hk => part_records hgates hk)
    (h.writable_records hnames) h.read_header ?_ ?_ ?_
  · have hsize := h.size_le
    show aig.nodes.size - 1 ≤ _
    omega
  · rwa [hrecords]
  · rw [hrecords]
    exact fun hzero => (hdefined 0 hzero).1 rfl

end Writable

end Aig

end FanoutCone
