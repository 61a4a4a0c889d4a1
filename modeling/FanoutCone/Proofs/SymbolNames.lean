import FanoutCone.Proofs.DeclaredCounts
import FanoutCone.Proofs.LoadedNames

/-!
# Named by symbols

The lines after the parts that the header declares are symbol lines. The name of
an input or a latch is that of the last symbol for its position, and no other
node has a name, so a symbol for a position that is not there names no node.

The name of an output is looked up at its position alone. A symbol for an output
that is not there keeps its name until an output comes to stand at its position.
-/
namespace FanoutCone.Aiger

/-- The name that the last symbol of a kind gives a position. -/
def lastName (symbols : List Symbol) (kind : SymbolKind) (position : Nat) : Option String :=
  ((symbols.filter fun s => s.kind = kind ∧ s.position = position).map Symbol.name).getLast?

variable {symbols : List Symbol} {kind : SymbolKind} {position n : Nat} {s : Symbol} {h : Header}
variable {lines : List (List UInt8)} {line : List UInt8} {d : Draft} {bytes : List UInt8}
variable {aig aig' : Aig}

theorem lastName_eq_none_iff :
    lastName symbols kind position = none ↔
      ∀ s ∈ symbols, s.kind = kind → s.position ≠ position := by
  simp [lastName]

/-- Whether a line is the symbol line of a symbol. -/
def Symbol.WrittenOn (s : Symbol) (line : List UInt8) : Prop :=
  ∃ cs, decodeLine line = some cs ∧ s.StandsOn cs

/-- A record on a line after the parts is the symbol that is written there. -/
theorem writtenOn_of_readLine {k : Nat} {record : Record}
    (hread : h.readLine k line = .ok record) (hpart : h.part k = .symbols) :
    ∃ s : Symbol, record = .symbol s ∧ s.WrittenOn line := by
  obtain ⟨cs, hdecode, hread⟩ := readLine_eq_ok_iff.1 hread
  rw [hpart] at hread
  obtain ⟨s, hs, rfl⟩ := map_eq_ok_iff.1 hread
  exact ⟨s, rfl, cs, hdecode, readSymbol_eq_ok_iff.1 hs⟩

/-- A record on a line of the parts is no symbol. -/
theorem symbol?_of_readLine {k : Nat} {record : Record}
    (hread : h.readLine k line = .ok record) (hpart : h.part k ≠ .symbols) :
    record.symbol? = none := by
  obtain ⟨cs, -, hread⟩ := readLine_eq_ok_iff.1 hread
  have hrecord := Record.part_of_read hread
  cases record with
  | symbol s => exact absurd hrecord.symm hpart
  | input | latch | output | gate => rfl

/-- Where no line breaks, the symbols are what the lines after the parts say, in order. -/
theorem forall₂_writtenOn (hsound : ∀ k failure, ¬ Breaks h lines k failure) :
    List.Forall₂ (fun line s => s.WrittenOn line)
      (lines.drop (h.inputs + h.latches + h.outputs + h.gates))
      ((h.records lines).filterMap Record.symbol?) := by
  induction lines using List.reverseRecOn with
  | nil =>
    rw [List.drop_nil]
    exact .nil
  | append_singleton front line ih =>
    obtain ⟨hfront, record, hread, -⟩ := exists_record_of_snoc hsound
    rw [records_snoc hread, List.filterMap_append]
    by_cases hpart : h.part front.length = .symbols
    · obtain ⟨s, rfl, hs⟩ := writtenOn_of_readLine hread hpart
      rw [List.drop_append_of_le_length ((part_eq_iff _ .symbols).1 hpart)]
      exact List.rel_append (ih hfront) (.cons hs .nil)
    · have hnone := symbol?_of_readLine hread hpart
      have hlt := Nat.lt_of_not_le (mt (part_eq_iff _ .symbols).2 hpart)
      have hdrop : front.drop (h.inputs + h.latches + h.outputs + h.gates) = [] :=
        List.drop_eq_nil_of_le hlt.le
      have ih := ih hfront
      rw [hdrop] at ih
      have hdrop' : (front ++ [line]).drop (h.inputs + h.latches + h.outputs + h.gates) = [] := by
        refine List.drop_eq_nil_of_le ?_
        rw [List.length_append, List.length_singleton]
        exact hlt
      rw [hdrop', List.filterMap_cons_none hnone, List.filterMap_nil, List.append_nil]
      exact ih

/-- The node that a symbol names stands at the position that it says. -/
theorem Draft.symbolNode?_eq_some_iff (hlisted : Listed d.inputs d.latches d.nodeAt) :
    d.symbolNode? s = some n ↔
      s.kind = .input ∧ d.nodeAt n = some (.input s.position) ∨
        s.kind = .latch ∧ d.nodeAt n = some (.latch s.position) := by
  rw [← hlisted.inputs, ← hlisted.latches, Array.getElem?_map]
  obtain ⟨kind, position, name⟩ := s
  cases kind <;> simp [symbolNode?]

/-- The table of a draft names an output as the last symbol for its position does. -/
theorem Draft.getElem?_outputNames (d : Draft) (k : Nat) :
    d.outputNames[k]? = lastName d.symbols.toList .output k := by
  let key? : Symbol → Option Nat := fun s => if s.kind = .output then some s.position else none
  have htable : d.outputNames = nameTable key? Symbol.name d.symbols.toList := by
    rw [outputNames, ← Array.foldl_toList, nameTable]
    congr 1
    funext names s
    by_cases hs : s.kind = .output <;> simp [key?, hs]
  have hkey : (fun s => decide (key? s = some k)) =
      fun s => decide (s.kind = .output ∧ s.position = k) := by
    funext s
    by_cases hs : s.kind = .output <;> simp [key?, hs]
  rw [htable, lastName, ← hkey]
  exact getElem?_nameTable key? Symbol.name d.symbols.toList k

/-- A graph whose names are those that symbols give. -/
structure NamedBy (symbols : List Symbol) (aig : Aig) : Prop where
  inputs : ∀ {k n}, aig.inputs[k]? = some n → aig.name? n = lastName symbols .input k
  latches : ∀ {k latch}, aig.latches[k]? = some latch →
    aig.name? latch.node = lastName symbols .latch k
  others : ∀ {n}, n ∉ aig.inputs → n ∉ aig.latches.map Latch.node → aig.name? n = none
  outputs : ∀ k, aig.outputName? k = lastName symbols .output k

/-- A finished graph is named by the symbols of its draft. -/
theorem namedBy_of_finish (hlisted : Listed d.inputs d.latches d.nodeAt)
    (hfinish : d.finish = .ok aig) : NamedBy d.symbols.toList aig := by
  obtain ⟨-, hnames, houtputNames⟩ := Draft.finish_frame hfinish
  have hfinished := Draft.finish_eq_ok hfinish
  have hname : ∀ n, aig.name? n = ((d.symbols.toList.filter fun s => d.symbolNode? s = some n).map
      Symbol.name).getLast? := fun n => by
    rw [Aig.name?, hnames]
    exact d.getElem?_names n
  refine ⟨fun {k n} hk => ?_, fun {k latch} hk => ?_, fun {n} hinputs hlatches => ?_, fun k => ?_⟩
  · have hnode : d.nodeAt n = some (.input k) := by
      rw [hfinished.inputs_eq] at hk
      exact (hlisted.inputs k n).1 hk
    rw [hname, lastName]
    simp only [Draft.symbolNode?_eq_some_iff hlisted, hnode]
    simp [eq_comm]
  · have hnode : d.nodeAt latch.node = some (.latch k) := by
      rw [hfinished.latches_eq] at hk
      refine (hlisted.latches k latch.node).1 ?_
      rw [Array.getElem?_map, hk, Option.map_some]
    rw [hname, lastName]
    simp only [Draft.symbolNode?_eq_some_iff hlisted, hnode]
    simp [eq_comm]
  · rw [hfinished.inputs_eq] at hinputs
    rw [hfinished.latches_eq] at hlatches
    rw [hname, List.getLast?_eq_none_iff, List.map_eq_nil_iff, List.filter_eq_nil_iff]
    intro s _ hs
    rw [decide_eq_true_eq, Draft.symbolNode?_eq_some_iff hlisted, ← hlisted.inputs,
      ← hlisted.latches] at hs
    rcases hs with ⟨-, hs⟩ | ⟨-, hs⟩
    · exact hinputs (Array.mem_of_getElem? hs)
    · exact hlatches (Array.mem_of_getElem? hs)
  · rw [Aig.outputName?, houtputNames]
    exact d.getElem?_outputNames k

/-- An output that is added takes the name that stood at its position. -/
theorem outputName?_addOutput {e : Edge} (hadd : aig.addOutput e = .ok (position, aig')) :
    position = aig.outputs.size ∧ ∀ k, aig'.outputName? k = aig.outputName? k := by
  obtain ⟨aig₁, hconsume, hadd⟩ := bind_eq_ok_iff.1 hadd
  obtain ⟨before, counts, -, rfl⟩ := Aig.consume_eq_ok hconsume
  cases hadd
  exact ⟨rfl, fun k => rfl⟩

/-- Names of a loaded graph come from the symbol lines after its parts. An input or a latch has the
name that the last line for its position gives, and no other node has one. The name at a position
of the outputs is that of the last line for it, whether an output stands there or not: positions
without an output have no name exactly when no line names one, and an output that is added starts
with the name that a line gave its position. -/
theorem load_names (hload : load bytes = .ok aig) :
    ∃ h rest symbols, readHeader (Aiger.lines bytes) = .ok (h, rest) ∧
      List.Forall₂ (fun line s => s.WrittenOn line)
        ((recordLines rest).drop (h.inputs + h.latches + h.outputs + h.gates)) symbols ∧
      NamedBy symbols aig ∧
      ((∀ k ≥ aig.outputs.size, aig.outputName? k = none) ↔
        ∀ s ∈ symbols, s.kind = .output → s.position < aig.outputs.size) ∧
      ∀ {e position aig'}, aig.addOutput e = .ok (position, aig') →
        position = aig.outputs.size ∧
          aig'.outputName? position = lastName symbols .output position := by
  obtain ⟨h, rest, hheader, hsound, -, d, hd, hfinish⟩ := exists_finish_of_load hload
  have hnamed := namedBy_of_finish hd.listed hfinish
  rw [hd.symbols_eq] at hnamed
  refine ⟨h, rest, _, hheader, forall₂_writtenOn hsound, hnamed, ?_,
    fun {e position aig'} hadd => ?_⟩
  · simp only [hnamed.outputs, lastName_eq_none_iff]
    constructor
    · intro hnone s hs hkind
      exact Nat.lt_of_not_le fun hle => hnone s.position hle s hs hkind rfl
    · rintro hlt k hk s hs hkind rfl
      exact absurd (hlt s hs hkind) (Nat.not_lt.2 hk)
  · obtain ⟨hposition, hkeep⟩ := outputName?_addOutput hadd
    exact ⟨hposition, (hkeep position).trans (hnamed.outputs position)⟩

/-- A text that names its input twice and three positions that are not there. Its lines are
`aag 2 1 1 1 0`, `2`, `4 2`, `4`, `i0 a`, `i0 b`, `l0 s`, `i7 x`, `o0 y` and `o1 z`. -/
def strayNames : List UInt8 :=
  [97, 97, 103, 32, 50, 32, 49, 32, 49, 32, 49, 32, 48, 10, 50, 10, 52, 32, 50, 10, 52, 10, 105, 48,
    32, 97, 10, 105, 48, 32, 98, 10, 108, 48, 32, 115, 10, 105, 55, 32, 120, 10, 111, 48, 32, 121,
    10, 111, 49, 32, 122, 10]

def strayGraph : Aig where
  nodes := #[.const, .input 0, .latch 0]
  inputs := #[1]
  latches := #[⟨2, ⟨1, false⟩⟩]
  outputs := #[⟨2, false⟩]
  names := (({} : NameTable).insert 1 "b").insert 2 "s"
  outputNames := (({} : NameTable).insert 0 "y").insert 1 "z"
  stores := ⟨⟨#[0, 1, 1]⟩, ⟨1, #[0, 0, 0]⟩⟩

theorem load_strayNames : load strayNames = .ok strayGraph := by decide +kernel

theorem load_names_strayNames :
    load strayNames = .ok strayGraph ∧
      ∃ h rest symbols, readHeader (Aiger.lines strayNames) = .ok (h, rest) ∧
        List.Forall₂ (fun line s => s.WrittenOn line)
          ((recordLines rest).drop (h.inputs + h.latches + h.outputs + h.gates)) symbols ∧
        strayGraph.name? 1 = lastName symbols .input 0 ∧
        strayGraph.name? 2 = lastName symbols .latch 0 ∧ strayGraph.name? 0 = none ∧
        ∃ position aig', strayGraph.addOutput ⟨1, false⟩ = .ok (position, aig') ∧
          aig'.outputName? position = lastName symbols .output position := by
  obtain ⟨h, rest, symbols, hheader, hlines, hnamed, -, hadd⟩ := load_names load_strayNames
  have hzero : strayGraph.name? 0 = none :=
    hnamed.others (by simp [strayGraph]) (by simp [strayGraph])
  have hlatch : strayGraph.latches[0]? = some ⟨2, ⟨1, false⟩⟩ := rfl
  have hadded : strayGraph.addOutput ⟨1, false⟩ = .ok _ := rfl
  exact ⟨load_strayNames, h, rest, symbols, hheader, hlines, hnamed.inputs rfl,
    hnamed.latches hlatch, hzero, _, _, hadded, (hadd hadded).2⟩

/-- A name is kept for an output that is not there, and an output that is added takes it. -/
theorem stray_output_named :
    ∃ aig, load strayNames = .ok aig ∧ aig.outputs.size = 1 ∧ aig.outputName? 1 = some "z" ∧
      ∃ aig', aig.addOutput ⟨1, false⟩ = .ok (1, aig') ∧ aig'.outputName? 1 = some "z" := by
  have hname : strayGraph.outputName? 1 = some "z" := by decide +kernel
  exact ⟨strayGraph, load_strayNames, rfl, hname, _, rfl, hname⟩

end FanoutCone.Aiger
