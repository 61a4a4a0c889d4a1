import FanoutCone.Proofs.Writing
import Mathlib.Data.List.Perm.Subperm

/-!
# Declared counts

Where no line breaks, each line before the first comment is one record, of the
part that its place says, and no two records define one variable. So a loaded
graph has of each part as many as the lines reach of what the header declares.
It has less than that exactly when the text ends before all the lines have come.

A variable without a definition is refused. So a text that leaves none of its
variables spare cannot lack a definition, and no output either if gates follow.
-/
namespace FanoutCone.Aiger

variable {h : Header} {maximum n : Nat} {part : Part} {record : Record} {records : List Record}
variable {line : List UInt8} {lines front : List (List UInt8)} {cs : List Char}

/-- The last of lines of which none breaks is a record that defines no variable again. -/
theorem exists_record_of_snoc (hsound : ∀ k failure, ¬ Breaks h (front ++ [line]) k failure) :
    (∀ k failure, ¬ Breaks h front k failure) ∧
      ∃ record, h.readLine front.length line = .ok record ∧
        ∀ v, record.defined? = some v → ¬ Defines (h.records front) v := by
  have hlast : (front ++ [line])[front.length]? = some line := List.getElem?_concat_length
  refine ⟨fun k failure hbreaks => ?_, ?_⟩
  · have hkeep : ∀ {l}, front[k]? = some l → (front ++ [line])[k]? = some l ∧
        (front ++ [line]).take k = front.take k := fun hk => by
      have hlt := (List.getElem?_eq_some_iff.1 hk).1
      exact ⟨by rwa [List.getElem?_append_left hlt], List.take_append_of_le_length hlt.le⟩
    cases hbreaks with
    | unread hk hread => exact hsound k _ (.unread (hkeep hk).1 hread)
    | redefined hk hread hdefined hv =>
      rw [← (hkeep hk).2] at hv
      exact hsound k _ (.redefined (hkeep hk).1 hread hdefined hv)
  · cases hread : h.readLine front.length line with
    | error failure => exact absurd (.unread hlast hread) (hsound front.length failure)
    | ok record =>
      refine ⟨record, rfl, fun v hdefined hv => ?_⟩
      refine hsound front.length _ (.redefined hlast hread hdefined ?_)
      rwa [List.take_left]

/-- Where no line breaks, there is one record for each line, and its place says its part. -/
theorem map_part_records (hsound : ∀ k failure, ¬ Breaks h lines k failure) :
    (h.records lines).map Record.part = (List.range lines.length).map h.part := by
  induction lines using List.reverseRecOn with
  | nil => rfl
  | append_singleton front line ih =>
    obtain ⟨hfront, record, hread, -⟩ := exists_record_of_snoc hsound
    obtain ⟨cs, -, hcs⟩ := readLine_eq_ok_iff.1 hread
    have hpart : record.part = h.part front.length := Record.part_of_read hcs
    rw [records_snoc hread, List.map_append, ih hfront, List.length_append, List.length_singleton,
      List.range_succ, List.map_append, List.map_singleton, List.map_singleton, hpart]

/-- Where no line breaks, no two records define one variable. -/
theorem nodup_defined (hsound : ∀ k failure, ¬ Breaks h lines k failure) :
    ((h.records lines).filterMap Record.defined?).Nodup := by
  induction lines using List.reverseRecOn with
  | nil => exact List.nodup_nil
  | append_singleton front line ih =>
    obtain ⟨hfront, record, hread, hnew⟩ := exists_record_of_snoc hsound
    rw [records_snoc hread, List.filterMap_append]
    refine List.nodup_append.2 ⟨ih hfront, ?_, ?_⟩
    · cases hdefined : record.defined? <;> simp [hdefined]
    · rintro v hv _ hlast rfl
      obtain ⟨earlier, hearlier, hdefined⟩ := List.mem_filterMap.1 hv
      have hrecord : record.defined? = some v := by simpa using hlast
      exact hnew v hrecord (Or.inr ⟨earlier, hearlier, hdefined⟩)

/-- As many of the first places lie in a part as it has, as far as the places reach. -/
theorem countP_range (first size n : Nat) :
    (List.range n).countP (fun k => first ≤ k ∧ k < first + size) = min size (n - first) := by
  induction n with
  | zero => simp
  | succ n ih =>
    rw [List.range_succ, List.countP_append, ih]
    by_cases hn : first ≤ n ∧ n < first + size
    · simp only [List.countP_singleton, hn, and_self, decide_true, if_true]
      omega
    · simp only [List.countP_singleton, hn, decide_false, Bool.false_eq_true, if_false]
      omega

/-- Where no line breaks, what is picked from the records of one part is as much as the lines
reach of that part. -/
theorem length_filterMap_records {α : Type} (pick : Record → Option α) {first size : Nat}
    (hsound : ∀ k failure, ¬ Breaks h lines k failure)
    (hpick : ∀ record : Record, (pick record).isSome ↔ record.part = part)
    (hpart : ∀ k, h.part k = part ↔ first ≤ k ∧ k < first + size) :
    ((h.records lines).filterMap pick).length = min size (lines.length - first) := by
  calc ((h.records lines).filterMap pick).length
      = (h.records lines).countP (fun record => record.part = part) := by
        rw [List.length_filterMap_eq_countP]
        exact List.countP_congr fun record _ => by simpa using hpick record
    _ = ((h.records lines).map Record.part).countP (fun p => p = part) := by
        rw [List.countP_map]
        rfl
    _ = (List.range lines.length).countP (fun k => first ≤ k ∧ k < first + size) := by
        rw [map_part_records hsound, List.countP_map]
        exact List.countP_congr fun k _ => by simpa using hpart k
    _ = min size (lines.length - first) := countP_range first size lines.length

/-- The places of a part. The inputs have the first ones and the symbols all that are left. -/
theorem part_eq_iff (k : Nat) (part : Part) : h.part k = part ↔
    match part with
    | .inputs => 0 ≤ k ∧ k < 0 + h.inputs
    | .latches => h.inputs ≤ k ∧ k < h.inputs + h.latches
    | .outputs => h.inputs + h.latches ≤ k ∧ k < h.inputs + h.latches + h.outputs
    | .gates =>
      h.inputs + h.latches + h.outputs ≤ k ∧ k < h.inputs + h.latches + h.outputs + h.gates
    | .symbols => h.inputs + h.latches + h.outputs + h.gates ≤ k := by
  unfold Header.part
  cases part <;> split_ifs <;> simp <;> omega

/-- A variable is defined by an input, a latch or a gate. -/
theorem length_defined (records : List Record) :
    (records.filterMap Record.defined?).length =
      (records.filterMap Record.input?).length + (records.filterMap Record.latch?).length +
        (records.filterMap Record.gate?).length := by
  induction records with
  | nil => rfl
  | cons record records ih =>
    cases record with
    | input | latch | gate =>
      simp only [List.filterMap_cons, Record.defined?, Record.input?, Record.latch?, Record.gate?,
        List.length_cons, ih]
      omega
    | output | symbol => exact ih

theorem gate?_sublist_defined (records : List Record) :
    (records.filterMap Record.gate?).Sublist (records.filterMap Record.defined?) := by
  induction records with
  | nil => exact .slnil
  | cons record records ih =>
    cases record with
    | gate literal left right => exact ih.cons_cons _
    | input literal | latch state next => exact ih.cons _
    | output literal | symbol name => exact ih

/-- The gates of a finished graph are the variables of the gate records. -/
theorem Draft.Holds.ands_perm {d : Draft} {aig : Aig} (hd : d.Holds maximum records)
    (hfinished : d.Finished aig) (hnodup : (records.filterMap Record.defined?).Nodup) :
    aig.ands.Perm (records.filterMap Record.gate?) := by
  have hands : aig.ands.Nodup := List.nodup_range.filter _
  have hgates := hnodup.sublist (gate?_sublist_defined records)
  refine (List.perm_ext_iff_of_nodup hands hgates).2 fun n => ?_
  rw [Aig.mem_ands, ← hfinished.nodeAt_eq]
  simp only [hd.gate_iff, List.mem_filterMap]
  constructor
  · rintro ⟨-, -, literal, l, r, hmem, rfl, -, -⟩
    exact ⟨_, hmem, rfl⟩
  · rintro ⟨record, hmem, hgate⟩
    cases record with
    | gate literal l r =>
      cases hgate
      exact ⟨_, _, literal, l, r, hmem, rfl, rfl, rfl⟩
    | input | latch | output | symbol => cases hgate

/-- Where all variables are defined, there are at least as many definitions as variables. -/
theorem le_length_defined (hall : ∀ v ≤ maximum, Defines records v) :
    maximum ≤ (records.filterMap Record.defined?).length := by
  have hsub : List.range' 1 maximum ⊆ records.filterMap Record.defined? := by
    intro v hv
    obtain ⟨hpos, hle⟩ := List.mem_range'_1.1 hv
    rcases hall v (by omega) with rfl | ⟨record, hmem, hdefined⟩
    · omega
    · exact List.mem_filterMap.2 ⟨record, hmem, hdefined⟩
  have hnodup : (List.range' 1 maximum).Nodup := List.nodup_range'
  have hlength := (hnodup.subperm hsub).length_le
  rwa [List.length_range'] at hlength

variable {bytes : List UInt8} {aig : Aig}

/-- What a graph has where `n` lines have come after a header. -/
structure Fills (h : Header) (n : Nat) (aig : Aig) : Prop where
  inputs : aig.inputs.size = min h.inputs n
  latches : aig.latches.size = min h.latches (n - h.inputs)
  outputs : aig.outputs.size = min h.outputs (n - (h.inputs + h.latches))
  gates : aig.ands.length = min h.gates (n - (h.inputs + h.latches + h.outputs))

/-- Whether a graph has all that a header declares. -/
structure Header.Describes (h : Header) (aig : Aig) : Prop where
  inputs : aig.inputs.size = h.inputs
  latches : aig.latches.size = h.latches
  outputs : aig.outputs.size = h.outputs
  gates : aig.ands.length = h.gates

theorem Fills.describes_iff (hfills : Fills h n aig) :
    h.Describes aig ↔ h.inputs + h.latches + h.outputs + h.gates ≤ n := by
  obtain ⟨hinputs, hlatches, houtputs, hgates⟩ := hfills
  constructor
  · rintro ⟨hi, hl, ho, ha⟩
    omega
  · exact fun hn => ⟨by omega, by omega, by omega, by omega⟩

/-- A loaded graph has of the inputs, latches, outputs and gates that the header declares as many
as the lines before the first comment reach, and all of them exactly when as many lines come as the
header declares. Where gates are declared and no variable is spare, a text that is loaded has them
all. -/
theorem load_fills (hload : load bytes = .ok aig) :
    ∃ h rest, readHeader (Aiger.lines bytes) = .ok (h, rest) ∧
      Fills h (recordLines rest).length aig ∧
      (h.Describes aig ↔
        h.inputs + h.latches + h.outputs + h.gates ≤ (recordLines rest).length) ∧
      (h.Describes aig ∨ h.gates = 0 ∨ h.maximum < h.inputs + h.latches + h.gates) := by
  obtain ⟨h, rest, hheader, hsound, hall, d, hd, hfinish⟩ := exists_finish_of_load hload
  have hfinished := Draft.finish_eq_ok hfinish
  obtain ⟨houtputs, -, -⟩ := Draft.finish_frame hfinish
  have hi := length_filterMap_records Record.input? hsound
    (fun record => by cases record <;> simp [Record.input?, Record.part])
    fun k => part_eq_iff k .inputs
  have hl := length_filterMap_records Record.latch? hsound
    (fun record => by cases record <;> simp [Record.latch?, Record.part])
    fun k => part_eq_iff k .latches
  have ho := length_filterMap_records Record.output? hsound
    (fun record => by cases record <;> simp [Record.output?, Record.part])
    fun k => part_eq_iff k .outputs
  have ha := length_filterMap_records Record.gate? hsound
    (fun record => by cases record <;> simp [Record.gate?, Record.part])
    fun k => part_eq_iff k .gates
  have hfills : Fills h (recordLines rest).length aig := by
    refine ⟨?_, ?_, ?_, ?_⟩
    · rw [hfinished.inputs_eq, ← Array.length_toList, hd.inputs_eq, hi, Nat.sub_zero]
    · rw [hfinished.latches_eq, ← Array.length_toList, hd.latches_eq, hl]
    · rw [houtputs, ← Array.length_toList, hd.outputs_eq, ho]
    · rw [(hd.ands_perm hfinished (nodup_defined hsound)).length_eq, ha]
  refine ⟨h, rest, hheader, hfills, hfills.describes_iff, ?_⟩
  have hdefined := le_length_defined hall
  rw [length_defined, hi, hl, ha] at hdefined
  rw [hfills.describes_iff]
  omega

/-- A text that ends before the second of its outputs. Its lines are `aag 2 1 1 2 0`, `2`, `4 3`,
`5`, `c` and `3`. -/
def cutShort : List UInt8 :=
  [97, 97, 103, 32, 50, 32, 49, 32, 49, 32, 50, 32, 48, 10, 50, 10, 52, 32, 51, 10, 53, 10, 99, 10,
    51, 10]

def cutGraph : Aig where
  nodes := #[.const, .input 0, .latch 0]
  inputs := #[1]
  latches := #[⟨2, ⟨1, true⟩⟩]
  outputs := #[⟨2, true⟩]
  names := ∅
  outputNames := ∅
  stores := ⟨⟨#[0, 1, 1]⟩, ⟨1, #[0, 0, 0]⟩⟩

theorem load_cutShort : load cutShort = .ok cutGraph := by decide +kernel

theorem load_fills_cutShort :
    load cutShort = .ok cutGraph ∧
      ∃ h rest, readHeader (Aiger.lines cutShort) = .ok (h, rest) ∧
        Fills h (recordLines rest).length cutGraph ∧
        (h.Describes cutGraph ↔
          h.inputs + h.latches + h.outputs + h.gates ≤ (recordLines rest).length) ∧
        (h.Describes cutGraph ∨ h.gates = 0 ∨ h.maximum < h.inputs + h.latches + h.gates) :=
  ⟨load_cutShort, load_fills load_cutShort⟩

/-- A text is loaded although one of its outputs is missing. -/
theorem cutShort_taken_for_whole :
    ∃ h rest, readHeader (Aiger.lines cutShort) = .ok (h, rest) ∧
      ∃ aig, load cutShort = .ok aig ∧ aig.outputs.size < h.outputs ∧ ¬ h.Describes aig := by
  have hheader : readHeader (Aiger.lines cutShort) =
      .ok (⟨2, 1, 1, 2, 0⟩, [[50], [52, 32, 51], [53], [99], [51]]) := by decide +kernel
  have hlt : cutGraph.outputs.size < 2 := by decide
  exact ⟨_, _, hheader, cutGraph, load_cutShort, hlt, fun h => hlt.ne h.outputs⟩

end FanoutCone.Aiger
