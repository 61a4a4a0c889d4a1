import FanoutCone.Proofs.LoadOutcome
import FanoutCone.Proofs.TextLines

/-!
# Written records

A header and records are written as lines that the reader reads as the same
header and the same records, each where its part has its place. So a text that
was written from records is loaded as a draft that holds them, provided that no
variable is defined twice.
-/
namespace FanoutCone.Aiger

def SymbolKind.letter : SymbolKind → Char
  | .input => 'i'
  | .latch => 'l'
  | .output => 'o'

def Header.written (h : Header) : List Char :=
  'a' :: 'a' :: 'g' :: ' ' ::
    joinNumerals [h.maximum, h.inputs, h.latches, h.outputs, h.gates]

def Symbol.written (s : Symbol) : List Char :=
  s.kind.letter :: (numeral s.position ++ ' ' :: s.name.toList)

/-- Whether a line names what the symbol says: its letter, a numeral of the position, a space and
the name. -/
def Symbol.StandsOn (s : Symbol) (line : List Char) : Prop :=
  ∃ digits, line = s.kind.letter :: (digits ++ ' ' :: s.name.toList) ∧ ' ' ∉ digits ∧
    readNumeral digits = some s.position ∧ s.name.toList ≠ []

namespace Record

def written : Record → List Char
  | .symbol s => s.written
  | record => joinNumerals record.literals

end Record

/-- The text of a header and records. -/
def writeText (h : Header) (records : List Record) : List UInt8 :=
  endLines ((h.written :: records.map Record.written).map encode)

/-- A symbol that fits on a line. -/
structure Symbol.Writable (s : Symbol) : Prop where
  position_lt : s.position < valueLimit
  name_ne : s.name.toList ≠ []
  endable : Endable s.name.toList

/-- A record that a reader reads from its line. -/
structure Record.Writable (maximum : Nat) (record : Record) : Prop where
  inRange : record.InRange maximum
  literal_lt : ∀ literal ∈ record.literals, literal < valueLimit
  /-- The literal that a record defines is not inverted. -/
  defined : ∀ v, record.defined? = some v → record.literals.head? = some (2 * v)
  symbol : ∀ s, record.symbol? = some s → s.Writable

variable {h : Header} {maximum k : Nat} {record : Record} {records : List Record} {s : Symbol}

theorem checkLiterals_eq_ok {defined : Option Nat} {literals : List Nat}
    (hdefined : ∀ literal ∈ defined, literal % 2 = 0)
    (hrange : ∀ literal ∈ literals, literal / 2 ≤ maximum) :
    checkLiterals maximum defined literals = .ok () := by
  have hinverted : defined.any (· % 2 = 1) = false := by
    cases defined with
    | none => rfl
    | some literal => simp [hdefined literal rfl]
  have hall : literals.any (maximum < · / 2) = false := by
    rw [List.any_eq_false]
    intro literal hliteral
    simpa using hrange literal hliteral
  simp only [checkLiterals, hinverted, hall, Bool.false_eq_true, if_false]

/-- A symbol is read from the lines that it stands on. -/
theorem readSymbol_eq_ok_iff {line : List Char} :
    readSymbol line = .ok s ↔ s.StandsOn line := by
  constructor
  · intro h
    unfold readSymbol at h
    split at h
    · cases h
    · rename_i first rest
      split at h
      · cases h
      · dsimp only at h
        split at h
        · rename_i kind position space name hkind hposition hname
          split at h
          · cases h
          · rename_i hne
            cases h
            obtain rfl : space = ' ' := by
              have hhead := List.head?_dropWhile_not (· ≠ ' ') rest
              rw [hname] at hhead
              simpa using hhead
            refine ⟨rest.takeWhile (· ≠ ' '), ?_, ?_, hposition, ?_⟩
            · have hfirst : first = kind.letter := by
                split at hkind <;> cases hkind <;> rfl
              rw [String.toList_ofList, hfirst, ← hname, List.takeWhile_append_dropWhile]
            · intro hmem
              simpa using List.mem_takeWhile_imp hmem
            · rwa [String.toList_ofList]
        · cases h
  · rintro ⟨digits, rfl, hspace, hposition, hne⟩
    have hdigits : ∀ c ∈ digits, decide (c ≠ ' ') = true := fun c hc => by
      have hc : c ≠ ' ' := fun heq => hspace (heq ▸ hc)
      simpa using hc
    have htake : (digits ++ ' ' :: s.name.toList).takeWhile (· ≠ ' ') = digits := by
      rw [List.takeWhile_append_of_pos hdigits]
      simp
    have hdrop : (digits ++ ' ' :: s.name.toList).dropWhile (· ≠ ' ') = ' ' :: s.name.toList := by
      rw [List.dropWhile_append_of_pos hdigits]
      simp
    have hsize : s.kind.letter.utf8Size = 1 := by cases s.kind <;> rfl
    simp only [readSymbol, hsize, htake, hdrop, hposition]
    obtain ⟨kind, position, name⟩ := s
    dsimp only at hne
    cases kind <;> simp [SymbolKind.letter, hne]

theorem Symbol.Writable.readSymbol_written (hs : s.Writable) : readSymbol s.written = .ok s :=
  readSymbol_eq_ok_iff.2 ⟨numeral s.position, rfl, notMem_numeral rfl s.position,
    readNumeral_numeral hs.position_lt, hs.name_ne⟩

/-- A reader reads from the line of a record that record. -/
theorem Record.Writable.read_written (hr : record.Writable maximum) :
    Record.read maximum record.part record.written = .ok record := by
  have hnumerals : record.literals ≠ [] →
      readNumerals (splitAt ' ' (joinNumerals record.literals)) = some record.literals :=
    fun hne => readNumerals_joinNumerals hne hr.literal_lt
  have heven : ∀ literal, record.defined?.isSome → record.literals.head? = some literal →
      ∀ l ∈ some literal, l % 2 = 0 := by
    intro literal hsome hhead l hl
    cases hl
    obtain ⟨v, hv⟩ := Option.isSome_iff_exists.1 hsome
    have heq := Option.some.inj (hhead.symm.trans (hr.defined v hv))
    omega
  cases record with
  | input | latch | gate =>
    have hcheck := checkLiterals_eq_ok (heven _ rfl rfl) hr.inRange
    simp only [Record.read, part, written, readLiterals, hnumerals (by simp [literals])]
    simp only [literals] at hcheck ⊢
    simp [hcheck]
  | output =>
    have hcheck : checkLiterals maximum none _ = .ok () := checkLiterals_eq_ok
      (fun literal hliteral => absurd hliteral (Option.not_mem_none literal)) hr.inRange
    simp only [Record.read, part, written, readLiterals, hnumerals (by simp [literals])]
    simp only [literals] at hcheck ⊢
    simp [hcheck]
  | symbol s =>
    simp only [Record.read, part, written, (hr.symbol s rfl).readSymbol_written, map_ok]

theorem endable_header (h : Header) : Endable h.written := by
  obtain ⟨c, cs, hjoin, -⟩ :=
    exists_joinNumerals_eq_cons h.maximum [h.inputs, h.latches, h.outputs, h.gates]
  have hfront : '\n' ∉ ['a', 'a', 'g', ' '] := by decide
  exact (endable_joinNumerals _).append (by rw [hjoin]; exact List.cons_ne_nil c cs) hfront

theorem Symbol.Writable.endable_written (hs : s.Writable) : Endable s.written := by
  have hfront : '\n' ∉ s.kind.letter :: (numeral s.position ++ [' ']) := by
    intro hmem
    rcases List.mem_cons.1 hmem with hletter | hmem
    · cases hkind : s.kind <;> rw [hkind] at hletter <;> exact absurd hletter (by decide)
    · rcases List.mem_append.1 hmem with hdigit | hspace
      · exact notMem_numeral rfl s.position hdigit
      · exact absurd hspace (by decide)
  have hline : s.written = s.kind.letter :: (numeral s.position ++ [' ']) ++ s.name.toList := by
    simp [Symbol.written]
  rw [hline]
  exact hs.endable.append hs.name_ne hfront

namespace Record

theorem Writable.endable_written (hr : record.Writable maximum) : Endable record.written := by
  cases record with
  | symbol s => exact (hr.symbol s rfl).endable_written
  | input | latch | output | gate => exact endable_joinNumerals _

/-- The line of a record is no comment. -/
theorem head?_written_ne (record : Record) : record.written.head? ≠ some 'c' := by
  have hjoin : ∀ k ks, (joinNumerals (k :: ks)).head? ≠ some 'c' := by
    intro k ks
    obtain ⟨c, cs, hcs, hc⟩ := exists_joinNumerals_eq_cons k ks
    rw [hcs]
    rintro heq
    cases heq
    exact absurd hc (by decide)
  cases record with
  | symbol s =>
    obtain ⟨kind, position, name⟩ := s
    cases kind <;> simp [written, Symbol.written, SymbolKind.letter]
  | input | latch | output | gate => exact hjoin _ _

end Record

theorem isComment_encode {cs : List Char} (h : cs.head? ≠ some 'c') :
    isComment (encode cs) = false := by
  unfold isComment
  rw [decodeLine_encode]
  split
  · rename_i heq
    cases heq
    exact absurd rfl h
  · rfl

/-- A header is read from its line. -/
theorem Header.read_written (hm : h.maximum < valueLimit) (hi : h.inputs < valueLimit)
    (hl : h.latches < valueLimit) (ho : h.outputs < valueLimit) (ha : h.gates < valueLimit) :
    Header.read h.written = .ok h := by
  have hnumerals :
      readNumerals (splitAt ' '
        (joinNumerals [h.maximum, h.inputs, h.latches, h.outputs, h.gates])) =
        some [h.maximum, h.inputs, h.latches, h.outputs, h.gates] :=
    readNumerals_joinNumerals (List.cons_ne_nil _ _) (by simp [hm, hi, hl, ho, ha])
  have hsplit : splitAt ' ' h.written = ['a', 'a', 'g'] ::
      splitAt ' ' (joinNumerals [h.maximum, h.inputs, h.latches, h.outputs, h.gates]) :=
    splitAt_append (show ' ' ∉ ['a', 'a', 'g'] by decide) _
  rw [Header.read, hsplit]
  simp only [hnumerals]

/-- Records in the order of the parts go to the parts that their places say. -/
theorem Header.part_append {inputs latches outputs gates symbols : List Record} {k : Nat}
    {record : Record} (maximum : Nat) (hinputs : ∀ r ∈ inputs, r.part = .inputs)
    (hlatches : ∀ r ∈ latches, r.part = .latches) (houtputs : ∀ r ∈ outputs, r.part = .outputs)
    (hgates : ∀ r ∈ gates, r.part = .gates) (hsymbols : ∀ r ∈ symbols, r.part = .symbols)
    (hk : (inputs ++ latches ++ outputs ++ gates ++ symbols)[k]? = some record) :
    Header.part ⟨maximum, inputs.length, latches.length, outputs.length, gates.length⟩ k =
      record.part := by
  simp only [List.getElem?_append, List.length_append] at hk
  unfold Header.part
  dsimp only
  split_ifs at hk ⊢ <;> first | omega | skip
  · exact (hinputs _ (List.mem_of_getElem? hk)).symm
  · exact (hlatches _ (List.mem_of_getElem? hk)).symm
  · exact (houtputs _ (List.mem_of_getElem? hk)).symm
  · exact (hgates _ (List.mem_of_getElem? hk)).symm
  · exact (hsymbols _ (List.mem_of_getElem? hk)).symm

section Text

variable (hparts : ∀ (k : Nat) (record : Record), records[k]? = some record →
  h.part k = record.part)
variable (hwritable : ∀ record ∈ records, record.Writable h.maximum)

include hparts hwritable

theorem readLine_written (hk : records[k]? = some record) :
    h.readLine k (encode record.written) = .ok record := by
  rw [Header.readLine, decodeLine_encode]
  dsimp only
  rw [hparts k record hk, (hwritable record (List.mem_of_getElem? hk)).read_written]

/-- Written records are read as the same records. -/
theorem records_written :
    h.records (records.map fun record => encode record.written) = records := by
  induction records using List.reverseRecOn with
  | nil => rfl
  | append_singleton front record ih =>
    have hget : (front ++ [record])[front.length]? = some record := by simp
    have hread := readLine_written hparts hwritable hget
    have hfront := ih
      (fun k r hk => hparts k r (by
        rw [List.getElem?_append_left (List.getElem?_eq_some_iff.1 hk).1]
        exact hk))
      (fun r hr => hwritable r (List.mem_append_left _ hr))
    rw [← List.length_map (fun record => encode record.written)] at hread
    rw [List.map_append, List.map_singleton, records_snoc hread, hfront]

/-- Where no variable is defined twice, nor variable 0, no written line breaks. -/
theorem not_breaks_written (hnodup : (records.filterMap Record.defined?).Nodup)
    (hzero : 0 ∉ records.filterMap Record.defined?) (k : Nat) (failure : LoadFailure) :
    ¬ Breaks h (records.map fun record => encode record.written) k failure := by
  have hline : ∀ {k line}, (records.map fun record => encode record.written)[k]? = some line →
      ∃ record, records[k]? = some record ∧ h.readLine k line = .ok record := by
    intro k line hk
    rw [List.getElem?_map] at hk
    obtain ⟨record, hrecord, rfl⟩ := Option.map_eq_some_iff.1 hk
    exact ⟨record, hrecord, readLine_written hparts hwritable hrecord⟩
  intro hbreaks
  cases hbreaks with
  | unread hk hfailure =>
    obtain ⟨record, -, hread⟩ := hline hk
    cases hread.symm.trans hfailure
  | redefined hk hread' hdefined hv =>
    obtain ⟨record, hrecord, hread⟩ := hline hk
    obtain rfl := Except.ok.inj (hread.symm.trans hread')
    have htake : h.records ((records.take k).map fun record => encode record.written) =
        records.take k := by
      refine records_written (fun j r hj => hparts j r ?_)
        fun r hr => hwritable r (List.mem_of_mem_take hr)
      rw [List.getElem?_take] at hj
      split at hj
      · exact hj
      · cases hj
    rw [← List.map_take, htake] at hv
    have hsplit : records = records.take k ++ record :: records.drop (k + 1) := by
      rw [List.getElem?_eq_some_iff] at hrecord
      obtain ⟨hlt, rfl⟩ := hrecord
      rw [← List.drop_eq_getElem_cons hlt, List.take_append_drop]
    rcases hv with rfl | ⟨earlier, hearlier, hdefined'⟩
    · exact hzero (List.mem_filterMap.2 ⟨record, List.mem_of_getElem? hrecord, hdefined⟩)
    · rw [hsplit, List.filterMap_append, List.filterMap_cons_some hdefined] at hnodup
      have hmem := List.mem_filterMap.2 ⟨earlier, hearlier, hdefined'⟩
      exact (List.nodup_append.1 hnodup).2.2 _ hmem _ List.mem_cons_self rfl

/-- Written records are loaded as a draft that holds them. -/
theorem load_writeText (hheader : Header.read h.written = .ok h)
    (hmaximum : h.maximum ≤ Node.maxIndex) (hnodup : (records.filterMap Record.defined?).Nodup)
    (hzero : 0 ∉ records.filterMap Record.defined?) :
    ∃ d : Draft, d.Holds h.maximum records ∧ load (writeText h records) = d.finish := by
  have hlines : lines (writeText h records) =
      encode h.written :: records.map fun record => encode record.written := by
    have hendable : ∀ cs ∈ h.written :: records.map Record.written, Endable cs := by
      intro cs hcs
      rcases List.mem_cons.1 hcs with rfl | hcs
      · exact endable_header h
      · obtain ⟨record, hrecord, rfl⟩ := List.mem_map.1 hcs
        exact (hwritable record hrecord).endable_written
    rw [writeText, lines_endLines hendable, List.map_cons, List.map_map]
    rfl
  have hread : readHeader (lines (writeText h records)) =
      .ok (h, records.map fun record => encode record.written) := by
    rw [hlines, readHeader, decodeLine_encode]
    dsimp only
    rw [hheader, map_ok]
  have hall : recordLines (records.map fun record => encode record.written) =
      records.map fun record => encode record.written := by
    refine List.takeWhile_eq_self_iff.2 fun line hline => ?_
    obtain ⟨record, -, rfl⟩ := List.mem_map.1 hline
    simp [isComment_encode record.head?_written_ne]
  have hsound := not_breaks_written hparts hwritable hnodup hzero
  rcases load_cases hread hmaximum with ⟨k, failure, hbreaks, -⟩ | ⟨-, d, hd, hload⟩
  · rw [hall] at hbreaks
    exact absurd hbreaks (hsound k failure)
  · rw [hall, records_written hparts hwritable] at hd
    exact ⟨d, hd, hload⟩

end Text

end FanoutCone.Aiger
