import FanoutCone.Proofs.AigRuns
import FanoutCone.Proofs.CycleReports

/-!
# Drafts and their records

What a draft holds is said by the records that it has taken: the lists by the
records of each kind in order, and the definition of each variable by the one
record that defines it. A record whose literals are in range is taken unless
it defines a variable again. A draft in which every variable is defined can be
finished exactly when its gates form no cycle.
-/
namespace FanoutCone.Aiger

namespace Record

/-- The variable that a record defines, if it defines one. -/
def defined? : Record → Option Nat
  | .input literal | .latch literal _ | .gate literal _ _ => some (literal / 2)
  | .output _ | .symbol _ => none

def part : Record → Part
  | .input _ => .inputs
  | .latch _ _ => .latches
  | .output _ => .outputs
  | .gate _ _ _ => .gates
  | .symbol _ => .symbols

def literals : Record → List Nat
  | .input literal | .output literal => [literal]
  | .latch state next => [state, next]
  | .gate literal left right => [literal, left, right]
  | .symbol _ => []

/-- Whether no literal names a variable above the maximum. -/
def InRange (maximum : Nat) (record : Record) : Prop :=
  ∀ literal ∈ record.literals, literal / 2 ≤ maximum

def input? : Record → Option Nat
  | .input literal => some (literal / 2)
  | .latch _ _ | .output _ | .gate _ _ _ | .symbol _ => none

def latch? : Record → Option Latch
  | .latch state next => some ⟨state / 2, .ofLiteral next⟩
  | .input _ | .output _ | .gate _ _ _ | .symbol _ => none

def output? : Record → Option Edge
  | .output literal => some (.ofLiteral literal)
  | .input _ | .latch _ _ | .gate _ _ _ | .symbol _ => none

def gate? : Record → Option Nat
  | .gate literal _ _ => some (literal / 2)
  | .input _ | .latch _ _ | .output _ | .symbol _ => none

def symbol? : Record → Option Symbol
  | .symbol name => some name
  | .input _ | .latch _ _ | .output _ | .gate _ _ _ => none

/-- The variables that a record consumes, each as often as it does. -/
def uses : Record → List Nat
  | .latch _ next => [next / 2]
  | .output literal => [literal / 2]
  | .gate _ left right => [left / 2, right / 2]
  | .input _ | .symbol _ => []

variable {maximum : Nat} {part : Part} {line : List Char} {record : Record}

theorem inRange_of_checkLiterals {defined : Option Nat} {literals : List Nat}
    (h : checkLiterals maximum defined literals = .ok ()) :
    ∀ literal ∈ literals, literal / 2 ≤ maximum := by
  unfold checkLiterals at h
  split at h
  · cases h
  · split at h
    · cases h
    · rename_i hrange
      intro literal hliteral
      simp only [List.any_eq_true, decide_eq_true_eq, not_exists, not_and] at hrange
      exact Nat.not_lt.1 (hrange literal hliteral)

/-- What is read from literals is of the part that was asked for, no symbol, and in range. -/
theorem of_readLiterals (h : readLiterals maximum part line = .ok record) :
    record.part = part ∧ record.symbol? = none ∧ record.InRange maximum := by
  unfold readLiterals at h
  split at h
  · cases h
  · split at h
    case h_5 => cases h
    all_goals
      obtain ⟨⟨⟩, hcheck, rfl⟩ := map_eq_ok_iff.1 h
      exact ⟨rfl, rfl, inRange_of_checkLiterals hcheck⟩

theorem read_eq_ok (h : Record.read maximum part line = .ok record) :
    (∃ s, readSymbol line = .ok s ∧ record = .symbol s) ∨
      readLiterals maximum part line = .ok record := by
  cases part with
  | symbols =>
    obtain ⟨s, hs, rfl⟩ := map_eq_ok_iff.1 h
    exact Or.inl ⟨s, hs, rfl⟩
  | inputs | latches | outputs | gates => exact Or.inr (mapError_eq_ok_iff.1 h)

theorem read_eq_error {failure : LoadFailure} (h : Record.read maximum part line = .error failure) :
    part = .symbols ∧ readSymbol line = .error failure ∨
      ∃ e, readLiterals maximum part line = .error e ∧ e.failure = failure := by
  cases part with
  | symbols => exact Or.inl ⟨rfl, map_eq_error_iff.1 h⟩
  | inputs | latches | outputs | gates => exact Or.inr (mapError_eq_error_iff.1 h)

/-- A reader lets no literal above the maximum through. -/
theorem inRange_of_read (h : Record.read maximum part line = .ok record) :
    record.InRange maximum := by
  rcases read_eq_ok h with ⟨s, -, rfl⟩ | hread
  · exact fun literal hliteral => absurd hliteral List.not_mem_nil
  · exact (of_readLiterals hread).2.2

/-- What is read from a line is of the part that was asked for. -/
theorem part_of_read (h : Record.read maximum part line = .ok record) : record.part = part := by
  cases part with
  | symbols =>
    obtain ⟨s, -, rfl⟩ := map_eq_ok_iff.1 h
    rfl
  | inputs | latches | outputs | gates => exact (of_readLiterals (mapError_eq_ok_iff.1 h)).1

end Record

/-- Whether a variable is defined by one of the records. Variable 0 needs no record. -/
def Defines (records : List Record) (v : Nat) : Prop :=
  v = 0 ∨ ∃ record ∈ records, record.defined? = some v

theorem defines_snoc {records : List Record} {record : Record} {v : Nat} :
    Defines (records ++ [record]) v ↔ Defines records v ∨ record.defined? = some v := by
  simp only [Defines, List.mem_append, List.mem_singleton, or_and_right, exists_or,
    exists_eq_left, or_assoc]

/-- Whether a gate among the records defines `u` and has a fanin from `v`. -/
def GateReads (records : List Record) (u v : Nat) : Prop :=
  ∃ literal left right, Record.gate literal left right ∈ records ∧ literal / 2 = u ∧
    (left / 2 = v ∨ right / 2 = v)

namespace Draft

variable {d d' : Draft} {maximum var v n : Nat} {node x : AigNode} {records : List Record}
variable {record : Record}

/-- A definition that is taken adds one node and changes no list. -/
theorem define_frame (h : d.define var node = .ok d') :
    d'.slots.size = d.slots.size ∧ d'.outputs = d.outputs ∧ d'.symbols = d.symbols := by
  obtain ⟨slots, inputs, latches, outputs, symbols⟩ := d
  unfold define at h
  dsimp only at h
  split at h
  · cases h
    exact ⟨by simp, rfl, rfl⟩
  · cases h
  · cases h

theorem nodeAt_define (h : d.define var node = .ok d') :
    d'.nodeAt n = some x ↔ n = var ∧ x = node ∨ d.nodeAt n = some x := by
  obtain ⟨hfree, hnew, hother, -, -⟩ := define_eq_ok h
  by_cases hn : n = var
  · subst hn
    rw [hnew, hfree]
    simp [eq_comm]
  · rw [hother n hn]
    simp [hn]

theorem define_of_isSome (h : (d.nodeAt var).isSome) :
    d.define var node = .error (.rejected (.redefined var)) := by
  obtain ⟨slots, inputs, latches, outputs, symbols⟩ := d
  unfold nodeAt at h
  unfold define
  dsimp only at h ⊢
  cases hvar : slots[var]? with
  | none => simp [hvar] at h
  | some slot =>
    cases slot with
    | none => simp [hvar] at h
    | some node => rfl

theorem exists_define (h : d.nodeAt var = none) (hvar : var < d.slots.size) :
    ∃ d', d.define var node = .ok d' := by
  obtain ⟨slots, inputs, latches, outputs, symbols⟩ := d
  unfold nodeAt at h
  unfold define
  dsimp only at h hvar ⊢
  rw [Array.getElem?_eq_getElem hvar] at h ⊢
  cases hslot : slots[var] with
  | none => exact ⟨_, rfl⟩
  | some node => simp [hslot] at h

/-- The node that a record makes of the variable that it defines. -/
def nodeOf? (d : Draft) : Record → Option AigNode
  | .input _ => some (.input d.inputs.size)
  | .latch _ _ => some (.latch d.latches.size)
  | .gate _ left right => some (.and (.ofLiteral left) (.ofLiteral right))
  | .output _ | .symbol _ => none

theorem nodeAt_take (h : d.take record = .ok d') :
    d'.nodeAt n = some x ↔
      record.defined? = some n ∧ d.nodeOf? record = some x ∨ d.nodeAt n = some x := by
  cases record with
  | input | latch =>
    obtain ⟨d₁, hdefine, h⟩ := bind_eq_ok_iff.1 h
    cases h
    exact (nodeAt_define hdefine).trans (by simp [Record.defined?, nodeOf?, eq_comm])
  | gate literal left right =>
    exact (nodeAt_define h).trans (by simp [Record.defined?, nodeOf?, eq_comm])
  | output literal | symbol name =>
    cases h
    exact (or_iff_right nofun).symm

theorem isSome_nodeAt_take (h : d.take record = .ok d') :
    (d'.nodeAt n).isSome ↔ record.defined? = some n ∨ (d.nodeAt n).isSome := by
  have hnode : ∀ v, record.defined? = some v → ∃ x, d.nodeOf? record = some x := by
    intro v hv
    cases record with
    | input | latch | gate => exact ⟨_, rfl⟩
    | output | symbol => cases hv
  simp only [Option.isSome_iff_exists, nodeAt_take h, exists_or, exists_and_left]
  exact or_congr_left (and_iff_left_of_imp (hnode n))

/-- A record that is taken adds to each list what it declares. -/
theorem lists_take (h : d.take record = .ok d') :
    d'.slots.size = d.slots.size ∧
      d'.inputs.toList = d.inputs.toList ++ [record].filterMap Record.input? ∧
      d'.latches.toList = d.latches.toList ++ [record].filterMap Record.latch? ∧
      d'.outputs.toList = d.outputs.toList ++ [record].filterMap Record.output? ∧
      d'.symbols.toList = d.symbols.toList ++ [record].filterMap Record.symbol? := by
  cases record with
  | input | latch =>
    obtain ⟨d₁, hdefine, h⟩ := bind_eq_ok_iff.1 h
    obtain ⟨-, -, -, hinputs, hlatches⟩ := define_eq_ok hdefine
    obtain ⟨hsize, houtputs, hsymbols⟩ := define_frame hdefine
    cases h
    simp [hsize, hinputs, hlatches, houtputs, hsymbols, Record.input?, Record.latch?,
      Record.output?, Record.symbol?]
  | gate literal left right =>
    obtain ⟨-, -, -, hinputs, hlatches⟩ := define_eq_ok h
    obtain ⟨hsize, houtputs, hsymbols⟩ := define_frame h
    simp [hsize, hinputs, hlatches, houtputs, hsymbols, Record.input?, Record.latch?,
      Record.output?, Record.symbol?]
  | output literal | symbol name =>
    cases h
    simp [Record.input?, Record.latch?, Record.output?, Record.symbol?]

def slotUses (slot : Option AigNode) : List Nat := (slot.elim [] AigNode.fanins).map Edge.node

/-- The variables that the definitions and the lists of a draft consume. -/
def uses (d : Draft) : List Nat :=
  d.slots.toList.flatMap slotUses ++ d.latches.toList.map (fun l => l.next.node)
    ++ d.outputs.toList.map Edge.node

theorem count_uses_define (h : d.define var node = .ok d') :
    d'.uses.count v = d.uses.count v + (node.fanins.map Edge.node).count v := by
  obtain ⟨slots, inputs, latches, outputs, symbols⟩ := d
  unfold define at h
  dsimp only at h
  split at h
  · rename_i hslot
    cases h
    have hold : slots.toList[var]? = some none := by rwa [Array.getElem?_toList]
    have hset := Aig.count_flatMap_set hold (some node) slotUses v
    simp only [slotUses, Option.elim_none, Option.elim_some, List.map_nil, List.count_nil] at hset
    simp only [uses, Array.toList_setIfInBounds, List.count_append]
    omega
  · cases h
  · cases h

/-- A record that is taken adds what it consumes. -/
theorem count_uses_take (h : d.take record = .ok d') :
    d'.uses.count v = d.uses.count v + record.uses.count v := by
  cases record with
  | input literal =>
    obtain ⟨d₁, hdefine, h⟩ := bind_eq_ok_iff.1 h
    cases h
    exact count_uses_define hdefine
  | latch state next =>
    obtain ⟨d₁, hdefine, h⟩ := bind_eq_ok_iff.1 h
    cases h
    have hdefined := count_uses_define (v := v) hdefine
    simp only [uses, Array.toList_push, List.map_append, List.map_cons, List.map_nil,
      List.count_append, AigNode.fanins, List.count_nil] at hdefined ⊢
    rw [show (Record.latch state next).uses = [(Edge.ofLiteral next).node] from rfl]
    omega
  | gate literal left right => exact count_uses_define h
  | output literal =>
    cases h
    simp only [uses, Array.toList_push, List.map_append, List.map_cons, List.map_nil,
      List.count_append]
    rw [show (Record.output literal).uses = [(Edge.ofLiteral literal).node] from rfl]
    omega
  | symbol name =>
    cases h
    rfl

/-- What a finished graph takes over from the draft as it is. -/
theorem finish_frame {aig : Aig} (h : d.finish = .ok aig) :
    aig.outputs = d.outputs ∧ aig.names = d.names ∧ aig.outputNames = d.outputNames := by
  unfold finish at h
  split at h
  · cases h
  · obtain ⟨⟨⟩, -, h⟩ := bind_eq_ok_iff.1 h
    dsimp only at h
    split at h
    · cases h
    · cases h
      exact ⟨rfl, rfl, rfl⟩

/-- The graph of a draft, with no parents counted yet. -/
def uncounted (d : Draft) : Aig :=
  ⟨d.slots.filterMap id, d.inputs, d.latches, d.outputs, d.names, d.outputNames,
    Stores.empty.grow (d.slots.filterMap id).size⟩

/-- Without a gap and without a cycle, only the counting of parents is left. -/
theorem finish_of_acyclic (hdefined : d.slots.findIdx? Option.isNone = none)
    (hacyclic : requireAcyclic (d.slots.filterMap id) = .ok ()) :
    d.finish =
      match d.uncounted.stores.counts.incrementAll (d.uncounted.consumers.map Edge.node) with
      | .error fault => .error (.broken fault)
      | .ok counts => .ok { d.uncounted with stores := ⟨counts, d.uncounted.stores.marks⟩ } := by
  simp only [finish, hdefined, hacyclic, ok_bind]
  rfl

/-- What a draft is once it has taken the records. -/
structure Holds (maximum : Nat) (records : List Record) (d : Draft) : Prop where
  slots_size : d.slots.size = maximum + 1
  isSome_nodeAt_iff : ∀ {v}, (d.nodeAt v).isSome ↔ Defines records v
  const_iff : ∀ n, d.nodeAt n = some .const ↔ n = 0
  gate_iff : ∀ n left right, d.nodeAt n = some (.and left right) ↔
    ∃ literal l r, .gate literal l r ∈ records ∧ literal / 2 = n ∧ .ofLiteral l = left ∧
      .ofLiteral r = right
  listed : Listed d.inputs d.latches d.nodeAt
  inputs_eq : d.inputs.toList = records.filterMap Record.input?
  latches_eq : d.latches.toList = records.filterMap Record.latch?
  outputs_eq : d.outputs.toList = records.filterMap Record.output?
  symbols_eq : d.symbols.toList = records.filterMap Record.symbol?
  count_uses : ∀ v, d.uses.count v = (records.flatMap Record.uses).count v

theorem holds_start (maximum : Nat) : Holds maximum [] (start maximum) := by
  have hconst : ∀ n x, (start maximum).nodeAt n = some x ↔ n = 0 ∧ x = .const := by
    intro n x
    simp only [start, nodeAt, Array.getElem?_setIfInBounds, Array.getElem?_replicate,
      Array.size_replicate]
    by_cases hn : n = 0
    · subst hn
      simp [eq_comm]
    · rw [if_neg (Ne.symm hn)]
      split <;> simp [hn]
  have huses : ∀ v, (start maximum).uses.count v = 0 := by
    intro v
    have hnone : (List.replicate maximum none).flatMap slotUses = [] := by
      rw [List.flatMap_eq_nil_iff]
      intro slot hslot
      rw [List.eq_of_mem_replicate hslot]
      rfl
    simp [slotUses, AigNode.fanins, start, uses, List.replicate_succ, hnone]
  refine ⟨by simp [start], fun {v} => ?_, fun n => by simp [hconst],
    fun n left right => by simp [hconst], listed_start maximum, rfl, rfl, rfl, rfl, huses⟩
  simp [Option.isSome_iff_exists, hconst, Defines]

namespace Holds

/-- A record that is taken is one more that the draft holds. -/
theorem snoc (h : Holds maximum records d) (htake : d.take record = .ok d') :
    Holds maximum (records ++ [record]) d' := by
  obtain ⟨hsize, hinputs, hlatches, houtputs, hsymbols⟩ := lists_take htake
  refine ⟨hsize.trans h.slots_size, fun {v} => ?_, fun n => ?_, fun n left right => ?_,
    listed_take h.listed htake, ?_, ?_, ?_, ?_, fun v => ?_⟩
  · rw [isSome_nodeAt_take htake, h.isSome_nodeAt_iff, defines_snoc, or_comm]
  · rw [nodeAt_take htake, h.const_iff]
    refine or_iff_right fun hnode => ?_
    cases record <;> simp [nodeOf?] at hnode
  · rw [nodeAt_take htake, h.gate_iff]
    constructor
    · rintro (⟨hvar, hnode⟩ | ⟨literal, l, r, hmem, hgate⟩)
      · cases record with
        | gate literal l r =>
          cases hvar
          cases hnode
          exact ⟨literal, l, r, by simp, rfl, rfl, rfl⟩
        | input | latch => cases hnode
        | output | symbol => cases hvar
      · exact ⟨literal, l, r, List.mem_append_left _ hmem, hgate⟩
    · rintro ⟨literal, l, r, hmem, rfl, rfl, rfl⟩
      rcases List.mem_append.1 hmem with hmem | hmem
      · exact Or.inr ⟨literal, l, r, hmem, rfl, rfl, rfl⟩
      · obtain rfl := List.mem_singleton.1 hmem
        exact Or.inl ⟨rfl, rfl⟩
  · rw [hinputs, h.inputs_eq, List.filterMap_append]
  · rw [hlatches, h.latches_eq, List.filterMap_append]
  · rw [houtputs, h.outputs_eq, List.filterMap_append]
  · rw [hsymbols, h.symbols_eq, List.filterMap_append]
  · rw [count_uses_take htake, h.count_uses, List.flatMap_append, List.count_append,
      List.flatMap_singleton]

/-- A variable can be defined that no record defines. -/
theorem exists_define (h : Holds maximum records d) (hvar : ¬ Defines records var)
    (hle : var ≤ maximum) (node : AigNode) : ∃ d', d.define var node = .ok d' := by
  refine Draft.exists_define ?_ ?_
  · rw [← Option.not_isSome_iff_eq_none, h.isSome_nodeAt_iff]
    exact hvar
  · rw [h.slots_size]
    exact Nat.lt_succ_of_le hle

/-- A record that defines a variable again is refused. -/
theorem take_of_defines (h : Holds maximum records d) (hdefined : record.defined? = some v)
    (hv : Defines records v) : d.take record = .error (.rejected (.redefined v)) := by
  have hrefused : ∀ node, d.define v node = .error (.rejected (.redefined v)) :=
    fun _ => define_of_isSome (h.isSome_nodeAt_iff.2 hv)
  cases record with
  | input | latch =>
    cases hdefined
    rw [take, hrefused, error_bind]
  | gate literal left right =>
    cases hdefined
    rw [take, hrefused]
  | output | symbol => cases hdefined

/-- Any other record is taken, if its literals are in range. -/
theorem exists_take (h : Holds maximum records d) (hrange : record.InRange maximum)
    (hnew : ∀ v, record.defined? = some v → ¬ Defines records v) :
    ∃ d', d.take record = .ok d' := by
  have hdefine : ∀ var, record.defined? = some var → var ≤ maximum → ∀ node,
      ∃ d', d.define var node = .ok d' := fun var hvar hle => h.exists_define (hnew var hvar) hle
  cases record with
  | input literal =>
    obtain ⟨d₁, hd₁⟩ := hdefine _ rfl (hrange literal (by simp [Record.literals]))
      (.input d.inputs.size)
    exact ⟨_, bind_eq_ok_iff.2 ⟨d₁, hd₁, rfl⟩⟩
  | latch state next =>
    obtain ⟨d₁, hd₁⟩ := hdefine _ rfl (hrange state (by simp [Record.literals]))
      (.latch d.latches.size)
    exact ⟨_, bind_eq_ok_iff.2 ⟨d₁, hd₁, rfl⟩⟩
  | gate literal left right =>
    exact hdefine _ rfl (hrange literal (by simp [Record.literals])) _
  | output literal | symbol name => exact ⟨_, rfl⟩

/-- Where a variable is not defined, the lowest such is reported. -/
theorem finish_of_undefined (h : Holds maximum records d) (hle : v ≤ maximum)
    (hv : ¬ Defines records v) (hbelow : ∀ u < v, Defines records u) :
    d.finish = .error (.rejected (.undefined v)) := by
  have hslot : ∀ u (hu : u < d.slots.size), d.slots[u].isNone = true ↔ ¬ Defines records u := by
    intro u hu
    rw [← h.isSome_nodeAt_iff, nodeAt, Array.getElem?_eq_getElem hu]
    cases d.slots[u] <;> simp
  have hlt : v < d.slots.size := by
    rw [h.slots_size]
    exact Nat.lt_succ_of_le hle
  have hfind : d.slots.findIdx? Option.isNone = some v := by
    rw [Array.findIdx?_eq_some_iff_getElem]
    refine ⟨hlt, (hslot v hlt).2 hv, fun u hu => ?_⟩
    rw [hslot u (hu.trans hlt), not_not]
    exact hbelow u hu
  simp only [finish, hfind]

theorem findIdx?_of_defined (h : Holds maximum records d)
    (hall : ∀ v ≤ maximum, Defines records v) : d.slots.findIdx? Option.isNone = none := by
  rw [Array.findIdx?_eq_none_iff]
  intro slot hslot
  obtain ⟨v, hv, rfl⟩ := Array.mem_iff_getElem.1 hslot
  have hsome := h.isSome_nodeAt_iff.2 (hall v (by rw [h.slots_size] at hv; omega))
  rw [nodeAt, Array.getElem?_eq_getElem hv] at hsome
  cases hslot : d.slots[v] with
  | none => simp [hslot] at hsome
  | some node => rfl

theorem map_some_nodes (h : Holds maximum records d) (hall : ∀ v ≤ maximum, Defines records v) :
    (d.slots.filterMap id).map some = d.slots := by
  apply Array.ext_getElem?
  intro n
  rw [Array.getElem?_map, getElem?_filterMap_id (h.findIdx?_of_defined hall)]

/-- When every variable is defined, the nodes are the definitions, and one more than the maximum. -/
theorem nodes_of_defined (h : Holds maximum records d) (hall : ∀ v ≤ maximum, Defines records v) :
    (d.slots.filterMap id).size = maximum + 1 ∧
      ∀ n, (d.slots.filterMap id)[n]? = d.nodeAt n := by
  have hslot := getElem?_filterMap_id (h.findIdx?_of_defined hall)
  refine ⟨?_, fun n => ?_⟩
  · have hsize := congrArg Array.size (h.map_some_nodes hall)
    rw [Array.size_map] at hsize
    exact hsize.trans h.slots_size
  · rw [nodeAt, hslot n]
    cases (d.slots.filterMap id)[n]? <;> rfl

/-- The gates of the nodes read as the records say. -/
theorem reads_iff (h : Holds maximum records d) (hall : ∀ v ≤ maximum, Defines records v)
    {u : Nat} : (Aig.gatesOf (d.slots.filterMap id)).Reads u v ↔ GateReads records u v := by
  rw [CycleSearch.reads_gatesOf, CycleSearch.faninNodes, (h.nodes_of_defined hall).2]
  constructor
  · intro hv
    cases hnode : d.nodeAt u with
    | none => simp [hnode] at hv
    | some node =>
      cases node with
      | const | input | latch => simp [hnode, AigNode.fanins] at hv
      | and left right =>
        obtain ⟨literal, l, r, hmem, hvar, rfl, rfl⟩ := (h.gate_iff u left right).1 hnode
        rw [hnode] at hv
        refine ⟨literal, l, r, hmem, hvar, ?_⟩
        rcases List.mem_pair.1 hv with rfl | rfl
        · exact Or.inl rfl
        · exact Or.inr rfl
  · rintro ⟨literal, l, r, hmem, hvar, hread⟩
    rw [(h.gate_iff u _ _).2 ⟨literal, l, r, hmem, hvar, rfl, rfl⟩]
    rcases hread with rfl | rfl
    · exact List.mem_pair.2 (Or.inl rfl)
    · exact List.mem_pair.2 (Or.inr rfl)

/-- Every fanin of a gate comes from a node, if all literals are in range. -/
theorem faninsExist (h : Holds maximum records d)
    (hrange : ∀ record ∈ records, record.InRange maximum)
    (hall : ∀ v ≤ maximum, Defines records v) : Aig.FaninsExist (d.slots.filterMap id) := by
  intro node hnode e hfanin
  rw [(h.nodes_of_defined hall).1, Nat.lt_succ_iff]
  obtain ⟨n, hn⟩ := Array.mem_iff_getElem?.1 hnode
  rw [(h.nodes_of_defined hall).2] at hn
  cases node with
  | const | input | latch => cases hfanin
  | and left right =>
    obtain ⟨literal, l, r, hmem, -, rfl, rfl⟩ := (h.gate_iff n left right).1 hn
    rcases List.mem_pair.1 hfanin with rfl | rfl
    · exact hrange _ hmem l (by simp [Record.literals])
    · exact hrange _ hmem r (by simp [Record.literals])

/-- Every edge of the finished graph comes from a node, if all literals are in range. -/
theorem node_le_of_mem_consumers (h : Holds maximum records d)
    (hrange : ∀ record ∈ records, record.InRange maximum)
    (hall : ∀ v ≤ maximum, Defines records v) {aig : Aig} {e : Edge} (he : e ∈ aig.consumers)
    (hnodes : aig.nodes = d.slots.filterMap id) (hlatches : aig.latches = d.latches)
    (houtputs : aig.outputs = d.outputs) : e.node ≤ maximum := by
  rcases Aig.mem_consumers.1 he with ⟨node, hnode, hfanin⟩ | ⟨latch, hlatch, rfl⟩ | houtput
  · rw [hnodes] at hnode
    have hlt := h.faninsExist hrange hall node hnode e hfanin
    rwa [(h.nodes_of_defined hall).1, Nat.lt_succ_iff] at hlt
  · rw [hlatches] at hlatch
    have hmem := Array.mem_toList_iff.2 hlatch
    rw [h.latches_eq, List.mem_filterMap] at hmem
    obtain ⟨record, hmem, hlatch⟩ := hmem
    cases record with
    | latch state next =>
      cases hlatch
      exact hrange _ hmem next (by simp [Record.literals])
    | input | output | gate | symbol => cases hlatch
  · rw [houtputs] at houtput
    have hmem := Array.mem_toList_iff.2 houtput
    rw [h.outputs_eq, List.mem_filterMap] at hmem
    obtain ⟨record, hmem, houtput⟩ := hmem
    cases record with
    | output literal =>
      cases houtput
      exact hrange _ hmem literal (by simp [Record.literals])
    | input | latch | gate | symbol => cases houtput

/-- Each variable has as many consumers in the finished graph as the records say. -/
theorem count_consumers (h : Holds maximum records d) (hall : ∀ v ≤ maximum, Defines records v)
    {aig : Aig} (hnodes : aig.nodes = d.slots.filterMap id) (hlatches : aig.latches = d.latches)
    (houtputs : aig.outputs = d.outputs) (v : Nat) :
    (aig.consumers.map Edge.node).count v = (records.flatMap Record.uses).count v := by
  have hslots : d.slots.toList = aig.nodes.toList.map some := by
    rw [hnodes, ← Array.toList_map, h.map_some_nodes hall]
  have huses : aig.consumers.map Edge.node = d.uses := by
    rw [Aig.consumers, uses, hslots, hlatches, houtputs]
    simp only [List.map_append, List.map_flatMap, List.flatMap_map, List.map_map]
    rfl
  rw [huses, h.count_uses]

/-- Where every variable is defined, the draft is finished unless the gates form a cycle, and then
a variable on a cycle is reported, or a variable is consumed more often than can be counted. -/
theorem finish_of_defined (h : Holds maximum records d)
    (hrange : ∀ record ∈ records, record.InRange maximum)
    (hall : ∀ v ≤ maximum, Defines records v) :
    (∃ v, Relation.TransGen (GateReads records) v v ∧
        d.finish = .error (.rejected (.cycle v))) ∨
      (∀ v, ¬ Relation.TransGen (GateReads records) v v) ∧
        ((∃ v, FanoutCounts.maxCount < (records.flatMap Record.uses).count v ∧
            d.finish = .error (.broken (.overflow v))) ∨
          (∀ v, (records.flatMap Record.uses).count v ≤ FanoutCounts.maxCount) ∧
            ∃ aig, d.finish = .ok aig) := by
  have hreads : (Aig.gatesOf (d.slots.filterMap id)).Reads = GateReads records := by
    funext u v
    exact propext (h.reads_iff hall)
  have hfanins := h.faninsExist hrange hall
  cases hsearch : requireAcyclic (d.slots.filterMap id) with
  | error failure =>
    obtain ⟨v, rfl, hcycle⟩ := cycle_of_requireAcyclic hfanins hsearch
    rw [hreads] at hcycle
    refine Or.inl ⟨v, hcycle, ?_⟩
    simp only [finish, h.findIdx?_of_defined hall, hsearch, error_bind]
  | ok =>
    have hacyclic := acyclic_of_requireAcyclic hfanins hsearch
    refine Or.inr ⟨fun v hv => hacyclic v (hreads ▸ hv), ?_⟩
    have hsize : d.uncounted.stores.counts.size = maximum + 1 :=
      (FanoutCounts.size_grow _ _).trans (by rw [(h.nodes_of_defined hall).1]; rfl)
    have hlt : ∀ n ∈ d.uncounted.consumers.map Edge.node, n < d.uncounted.stores.counts.size := by
      intro n hn
      obtain ⟨e, he, rfl⟩ := List.mem_map.1 hn
      have hle := h.node_le_of_mem_consumers hrange hall he rfl rfl rfl
      omega
    have hzero : ∀ v, d.uncounted.stores.counts.parents v = 0 :=
      fun v => FanoutCounts.parents_grow _ _ v
    have huses : ∀ v, (d.uncounted.consumers.map Edge.node).count v = _ :=
      h.count_consumers hall rfl rfl rfl
    rw [finish_of_acyclic (h.findIdx?_of_defined hall) hsearch]
    cases hcounts : d.uncounted.stores.counts.incrementAll
        (d.uncounted.consumers.map Edge.node) with
    | error fault =>
      obtain ⟨n, rfl, hn⟩ := FanoutCounts.incrementAll_eq_error hlt hcounts
      rw [hzero, Nat.zero_add, huses] at hn
      exact Or.inl ⟨n, hn, rfl⟩
    | ok counts =>
      refine Or.inr ⟨fun v => ?_, _, rfl⟩
      have hparents := (FanoutCounts.incrementAll_eq_ok hcounts).2 v
      rw [hzero, Nat.zero_add, huses] at hparents
      exact hparents.symm.trans_le (counts.parents_le v)

end Holds

end Draft

end FanoutCone.Aiger
