import FanoutCone.Proofs.Writing

/-!
# Names that were read

A name is the end of a symbol line, and no line holds a newline. Decoding makes
no newline of other bytes, so the names of a loaded graph hold none.
-/
namespace FanoutCone.Aiger

variable {bytes line : List UInt8} {cs : List Char}

theorem newline_notMem_of_mem_lines (h : line ∈ lines bytes) : 10 ∉ line := by
  have hpiece : ∀ piece ∈ splitAt 10 bytes, 10 ∉ piece := fun piece hpiece =>
    separator_notMem_of_mem_splitAt hpiece
  rcases List.mem_append.1 h with h | h
  · obtain ⟨piece, hmem, rfl⟩ := List.mem_map.1 h
    have hpiece := hpiece piece (List.mem_of_mem_dropLast hmem)
    unfold dropReturn
    split
    · exact fun hmem => hpiece (List.mem_of_mem_dropLast hmem)
    · exact hpiece
  · obtain ⟨hlast, -⟩ := Option.filter_eq_some_iff.1 (Option.mem_toList.1 h)
    exact hpiece line (List.mem_of_getLast? hlast)

/-- Decoding is undone by encoding. -/
theorem encode_of_decodeLine (h : decodeLine line = some cs) : encode cs = line := by
  unfold decodeLine at h
  obtain ⟨s, hs, rfl⟩ := Option.map_eq_some_iff.1 h
  unfold String.fromUTF8? at hs
  split at hs
  · rename_i hvalid
    obtain rfl := Option.some.inj hs
    have hbytes : (String.fromUTF8 ⟨line.toArray⟩ hvalid).toList.utf8Encode = ⟨line.toArray⟩ :=
      String.utf8Encode_toList
    have hdata := congrArg (fun b => b.data.toList) hbytes
    rwa [List.utf8Encode, List.data_toByteArray] at hdata
  · cases hs

theorem newline_notMem_of_decodeLine (h : decodeLine line = some cs) (hline : 10 ∉ line) :
    '\n' ∉ cs := by
  intro hmem
  rw [← encode_of_decodeLine h] at hline
  exact hline (List.mem_flatMap.2 ⟨'\n', hmem, by decide⟩)

/-- The name of a symbol is part of its line. -/
theorem mem_of_mem_name {s : Symbol} {c : Char} (h : readSymbol cs = .ok s)
    (hc : c ∈ s.name.toList) : c ∈ cs := by
  obtain ⟨digits, rfl, -⟩ := readSymbol_eq_ok_iff.1 h
  simp [hc]

/-- A symbol among the records was read from a symbol line. -/
theorem readSymbol_of_read {maximum : Nat} {part : Part} {s : Symbol}
    (h : Record.read maximum part cs = .ok (.symbol s)) : readSymbol cs = .ok s := by
  rcases Record.read_eq_ok h with ⟨s', hs', heq⟩ | hread
  · cases heq
    exact hs'
  · cases (Record.of_readLiterals hread).2.1

theorem newline_notMem_of_mem_records {h : Header} {lines : List (List UInt8)} {s : Symbol}
    (hlines : ∀ line ∈ lines, 10 ∉ line) (hs : .symbol s ∈ h.records lines) :
    '\n' ∉ s.name.toList := by
  obtain ⟨k, line, hline, hread⟩ := mem_records hs
  obtain ⟨cs, hdecode, hread⟩ := readLine_eq_ok_iff.1 hread
  have hcs := newline_notMem_of_decodeLine hdecode (hlines line hline)
  exact fun hmem => hcs (mem_of_mem_name (readSymbol_of_read hread) hmem)

/-- The table that takes names in order, each for the key that it has, if it has one. -/
def nameTable {α : Type} (key? : α → Option Nat) (name : α → String) (l : List α) : NameTable :=
  l.foldl (fun names a =>
    match key? a with
    | some k => names.insert k (name a)
    | none => names) ∅

/-- For each key the last name counts. -/
theorem getElem?_nameTable {α : Type} (key? : α → Option Nat) (name : α → String) (l : List α)
    (n : Nat) :
    (nameTable key? name l)[n]? = ((l.filter fun a => key? a = some n).map name).getLast? := by
  unfold nameTable
  induction l using List.reverseRecOn with
  | nil => simp
  | append_singleton front a ih =>
    rw [List.foldl_append, List.filter_append, List.map_append, List.getLast?_append]
    simp only [List.foldl_cons, List.foldl_nil]
    split
    · rename_i k hk
      rw [Std.ExtTreeMap.getElem?_insert]
      by_cases hkn : k = n
      · simp [hk, hkn]
      · simp [hk, hkn, ih]
    · rename_i hk
      simp [hk, ih]

/-- The table of a draft names a node as the last symbol for it does. -/
theorem Draft.getElem?_names (d : Draft) (n : Nat) :
    d.names[n]? =
      ((d.symbols.toList.filter fun s => d.symbolNode? s = some n).map Symbol.name).getLast? := by
  rw [names, ← Array.foldl_toList]
  exact getElem?_nameTable d.symbolNode? Symbol.name d.symbols.toList n

/-- Every name in the table of a draft comes from a symbol. -/
theorem Draft.exists_symbol_of_names {d : Draft} {n : Nat} {name : String}
    (h : d.names[n]? = some name) : ∃ s ∈ d.symbols, s.name = name := by
  rw [getElem?_names] at h
  obtain ⟨s, hs, hname⟩ := List.mem_map.1 (List.mem_of_getLast? h)
  exact ⟨s, Array.mem_toList_iff.1 (List.mem_filter.1 hs).1, hname⟩

theorem subset_of_readHeader {h : Header} {texts rest : List (List UInt8)}
    (hheader : readHeader texts = .ok (h, rest)) : rest ⊆ texts := by
  cases texts with
  | nil => cases hheader
  | cons first texts =>
    unfold readHeader at hheader
    dsimp only at hheader
    split at hheader
    · cases hheader
    · obtain ⟨h', -, heq⟩ := map_eq_ok_iff.1 hheader
      cases heq
      exact List.subset_cons_self _ _

/-- No name of a loaded graph holds a newline. -/
theorem newline_notMem_of_load {aig : Aig} {n : Nat} {name : String} (h : load bytes = .ok aig)
    (hname : aig.name? n = some name) : '\n' ∉ name.toList := by
  obtain ⟨header, rest, hheader, -, -, d, hd, hfinish⟩ := exists_finish_of_load h
  obtain ⟨-, hnames, -⟩ := Draft.finish_frame hfinish
  rw [Aig.name?, hnames] at hname
  obtain ⟨s, hs, rfl⟩ := Draft.exists_symbol_of_names hname
  have hs := Array.mem_toList_iff.2 hs
  rw [hd.symbols_eq, List.mem_filterMap] at hs
  obtain ⟨record, hrecord, hsymbol⟩ := hs
  cases record with
  | symbol s' =>
    cases hsymbol
    refine newline_notMem_of_mem_records (fun line hline => ?_) hrecord
    exact newline_notMem_of_mem_lines
      (subset_of_readHeader hheader (List.takeWhile_subset _ hline))
  | input | latch | output | gate => cases hsymbol

end FanoutCone.Aiger
