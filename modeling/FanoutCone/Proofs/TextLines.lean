import FanoutCone.Aiger.Record
import Mathlib.Data.List.Basic
import Mathlib.Data.List.Induction

/-!
# Lines and numerals read back

A list is split where it was joined, if no piece holds a separator. So numerals
between single spaces are read back from their line, and lines that end in a
newline from their text. Nothing but a newline character is encoded with a
newline byte, nor anything but a carriage return with its byte, since every byte
of a longer encoding is above those of ASCII.
-/
namespace FanoutCone.Aiger

/-- What is joined is made of the pieces and separators. -/
theorem mem_intercalate {α : Type} {a separator : α} {pieces : List (List α)}
    (h : a ∈ List.intercalate [separator] pieces) :
    a = separator ∨ ∃ piece ∈ pieces, a ∈ piece := by
  induction pieces with
  | nil => cases h
  | cons piece pieces ih =>
    cases pieces with
    | nil => exact Or.inr ⟨piece, List.mem_cons_self, by simpa [List.intercalate] using h⟩
    | cons next pieces =>
      rw [List.intercalate_cons_cons, List.append_assoc, List.mem_append] at h
      rcases h with h | h
      · exact Or.inr ⟨piece, List.mem_cons_self, h⟩
      · rcases List.mem_cons.1 h with rfl | h
        · exact Or.inl rfl
        · obtain heq | ⟨piece', hpiece', ha⟩ := ih h
          · exact Or.inl heq
          · exact Or.inr ⟨piece', List.mem_cons_of_mem piece hpiece', ha⟩

variable {α : Type} [DecidableEq α] {separator : α} {piece : List α}

theorem splitAt_of_notMem (h : separator ∉ piece) : splitAt separator piece = [piece] := by
  induction piece with
  | nil => rfl
  | cons a piece ih =>
    obtain ⟨hne, h⟩ := not_or.1 (mt List.mem_cons.2 h)
    rw [splitAt, if_neg (Ne.symm hne), ih h]

theorem splitAt_append (h : separator ∉ piece) (rest : List α) :
    splitAt separator (piece ++ separator :: rest) = piece :: splitAt separator rest := by
  induction piece with
  | nil => rw [List.nil_append, splitAt, if_pos rfl]
  | cons a piece ih =>
    obtain ⟨hne, h⟩ := not_or.1 (mt List.mem_cons.2 h)
    rw [List.cons_append, splitAt, if_neg (Ne.symm hne), ih h]

/-- Pieces without separators are found again between separators. -/
theorem splitAt_intercalate {pieces : List (List α)} (hne : pieces ≠ [])
    (h : ∀ piece ∈ pieces, separator ∉ piece) :
    splitAt separator (List.intercalate [separator] pieces) = pieces := by
  induction pieces with
  | nil => exact absurd rfl hne
  | cons piece pieces ih =>
    obtain ⟨hpiece, hpieces⟩ := List.forall_mem_cons.1 h
    cases pieces with
    | nil => simpa [List.intercalate] using splitAt_of_notMem hpiece
    | cons next pieces =>
      rw [List.intercalate_cons_cons, List.append_assoc, List.singleton_append,
        splitAt_append hpiece, ih (List.cons_ne_nil _ _) hpieces]

/-- Pieces without separators are found again when each ends in one, with nothing after the
last. -/
theorem splitAt_flatMap {pieces : List (List α)} (h : ∀ piece ∈ pieces, separator ∉ piece) :
    splitAt separator (pieces.flatMap (· ++ [separator])) = pieces ++ [[]] := by
  induction pieces with
  | nil => rfl
  | cons piece pieces ih =>
    obtain ⟨hpiece, hpieces⟩ := List.forall_mem_cons.1 h
    rw [List.flatMap_cons, List.append_assoc, List.singleton_append, splitAt_append hpiece,
      ih hpieces]
    rfl

def numeral (k : Nat) : List Char := Nat.toDigits 10 k

theorem isDigit_of_mem_numeral {k : Nat} {c : Char} (h : c ∈ numeral k) : c.isDigit = true :=
  Nat.isDigit_of_mem_toDigits (by decide) (by decide) h

theorem notMem_numeral {c : Char} (hc : c.isDigit = false) (k : Nat) : c ∉ numeral k := by
  intro hmem
  cases hc.symm.trans (isDigit_of_mem_numeral hmem)

theorem numeral_ne_nil (k : Nat) : numeral k ≠ [] := Nat.toDigits_ne_nil

/-- A numeral starts with a digit. -/
theorem exists_numeral_eq_cons (k : Nat) :
    ∃ c cs, numeral k = c :: cs ∧ c.isDigit = true := by
  obtain ⟨c, cs, h⟩ := List.exists_cons_of_ne_nil (numeral_ne_nil k)
  exact ⟨c, cs, h, isDigit_of_mem_numeral (by rw [h]; exact List.mem_cons_self)⟩

theorem numeral_injective : Function.Injective numeral := fun k k' h => by
  have hvalue := congrArg (Nat.ofDigitChars 10 · 0) h
  simpa [numeral] using hvalue

/-- A numeral is read as its number, if that fits in 64 bits. -/
theorem readNumeral_numeral {k : Nat} (h : k < valueLimit) : readNumeral (numeral k) = some k := by
  have hvalue : digitsValue (numeral k) = k := Nat.ofDigitChars_ten_toDigits
  have hdigits : (numeral k).all Char.isDigit = true :=
    List.all_eq_true.2 fun c hc => isDigit_of_mem_numeral hc
  have hread : readNumeral (numeral k) = if numeral k ≠ [] ∧ (numeral k).all Char.isDigit = true ∧
      digitsValue (numeral k) < valueLimit then some (digitsValue (numeral k)) else none := by
    obtain ⟨c, cs, hcs, hc⟩ := exists_numeral_eq_cons k
    have hplus : c ≠ '+' := by
      rintro rfl
      exact absurd hc (by decide)
    rw [hcs]
    simp only [readNumeral, List.cons.injEq, hplus, false_and, imp_false, not_false_eq_true,
      implies_true]
  rw [hread, hvalue, if_pos ⟨numeral_ne_nil k, hdigits, h⟩]

/-- The numerals of numbers, between single spaces. -/
def joinNumerals (ks : List Nat) : List Char := List.intercalate [' '] (ks.map numeral)

theorem mapM_readNumeral {ks : List Nat} (h : ∀ k ∈ ks, k < valueLimit) :
    readNumerals (ks.map numeral) = some ks := by
  induction ks with
  | nil => rfl
  | cons k ks ih =>
    obtain ⟨hk, hks⟩ := List.forall_mem_cons.1 h
    have ih := ih hks
    unfold readNumerals at ih ⊢
    rw [List.map_cons, List.mapM_cons, readNumeral_numeral hk, ih]
    rfl

/-- Numerals between single spaces are read as their numbers. -/
theorem readNumerals_joinNumerals {ks : List Nat} (hne : ks ≠ []) (h : ∀ k ∈ ks, k < valueLimit) :
    readNumerals (splitAt ' ' (joinNumerals ks)) = some ks := by
  have hsplit : splitAt ' ' (joinNumerals ks) = ks.map numeral := by
    refine splitAt_intercalate (fun hnil => hne (List.map_eq_nil_iff.1 hnil)) fun piece hpiece => ?_
    obtain ⟨k, -, rfl⟩ := List.mem_map.1 hpiece
    exact notMem_numeral rfl k
  rw [hsplit, mapM_readNumeral h]

/-- A joined line starts with a digit. -/
theorem exists_joinNumerals_eq_cons (k : Nat) (ks : List Nat) :
    ∃ c cs, joinNumerals (k :: ks) = c :: cs ∧ c.isDigit = true := by
  obtain ⟨c, cs, h, hc⟩ := exists_numeral_eq_cons k
  cases ks with
  | nil => exact ⟨c, cs, by simpa [joinNumerals, List.intercalate] using h, hc⟩
  | cons next ks =>
    refine ⟨c, cs ++ ' ' :: joinNumerals (next :: ks), ?_, hc⟩
    rw [joinNumerals, List.map_cons, List.map_cons, List.intercalate_cons_cons, h]
    simp [joinNumerals]

/-- A joined line is made of digits and spaces. -/
theorem isDigit_or_eq_of_mem_joinNumerals {ks : List Nat} {c : Char} (h : c ∈ joinNumerals ks) :
    c.isDigit = true ∨ c = ' ' := by
  rcases mem_intercalate h with rfl | ⟨piece, hpiece, hc⟩
  · exact Or.inr rfl
  · obtain ⟨k, -, rfl⟩ := List.mem_map.1 hpiece
    exact Or.inl (isDigit_of_mem_numeral hc)

def encode (cs : List Char) : List UInt8 := cs.flatMap String.utf8EncodeChar

theorem decodeLine_encode (cs : List Char) : decodeLine (encode cs) = some cs := by
  have hbytes : (⟨(encode cs).toArray⟩ : ByteArray) = cs.utf8Encode := by
    apply ByteArray.ext
    exact (List.data_toByteArray (l := encode cs)).symm
  have hvalid : cs.utf8Encode.IsValidUTF8 := ByteArray.isValidUTF8_utf8Encode
  rw [decodeLine, hbytes, String.fromUTF8?, dif_pos hvalid, Option.map_some]
  exact congrArg some (String.toList_ofList (l := cs))

/-- A byte of ASCII encodes its own character only. -/
theorem utf8EncodeChar_of_mem {c : Char} {b : UInt8} (h : b ∈ String.utf8EncodeChar c)
    (hb : b.toNat < 128) : c.toNat = b.toNat := by
  have hvalue : c.val.toNat = c.toNat := rfl
  unfold String.utf8EncodeChar at h
  dsimp only at h
  rw [hvalue] at h
  split at h
  · obtain rfl := List.mem_singleton.1 h
    rw [UInt8.toNat_ofNat']
    omega
  · -- A longer encoding has no such byte.
    exfalso
    split at h
    · simp only [List.mem_cons, List.not_mem_nil, or_false] at h
      rcases h with rfl | rfl <;> rw [UInt8.toNat_ofNat'] at hb <;> omega
    · split at h
      · simp only [List.mem_cons, List.not_mem_nil, or_false] at h
        rcases h with rfl | rfl | rfl <;> rw [UInt8.toNat_ofNat'] at hb <;> omega
      · simp only [List.mem_cons, List.not_mem_nil, or_false] at h
        rcases h with rfl | rfl | rfl | rfl <;> rw [UInt8.toNat_ofNat'] at hb <;> omega

/-- A line that a newline can end: it holds none, and no carriage return comes right before. -/
structure Endable (cs : List Char) : Prop where
  newline : '\n' ∉ cs
  not_return : cs.getLast? ≠ some '\r'

theorem endable_of_forall {cs : List Char} (h : ∀ c ∈ cs, c ≠ '\n' ∧ c ≠ '\r') : Endable cs where
  newline hmem := (h _ hmem).1 rfl
  not_return hlast := (h _ (List.mem_of_getLast? hlast)).2 rfl

theorem endable_joinNumerals (ks : List Nat) : Endable (joinNumerals ks) :=
  endable_of_forall fun c hc => by
    rcases isDigit_or_eq_of_mem_joinNumerals hc with hdigit | rfl
    · constructor <;> rintro rfl <;> exact absurd hdigit (by decide)
    · decide

namespace Endable

variable {cs : List Char}

/-- What comes before the end only has to be free of newlines. -/
theorem append {front : List Char} (h : Endable cs) (hne : cs ≠ []) (hfront : '\n' ∉ front) :
    Endable (front ++ cs) where
  newline hmem := (List.mem_append.1 hmem).elim hfront h.newline
  not_return := by
    rw [List.getLast?_append_of_ne_nil _ hne]
    exact h.not_return

theorem newline_notMem_encode (h : Endable cs) : 10 ∉ encode cs := by
  intro hmem
  obtain ⟨c, hc, hbyte⟩ := List.mem_flatMap.1 hmem
  have hvalue := utf8EncodeChar_of_mem hbyte (by decide)
  obtain rfl : c = '\n' := Char.ext (UInt32.toNat_inj.1 hvalue)
  exact h.newline hc

theorem getLast?_encode_ne (h : Endable cs) : (encode cs).getLast? ≠ some 13 := by
  intro hlast
  cases cs using List.reverseRecOn with
  | nil => cases hlast
  | append_singleton cs c =>
    rw [encode, List.flatMap_append, List.flatMap_singleton,
      List.getLast?_append_of_ne_nil _ String.utf8EncodeChar_ne_nil] at hlast
    have hvalue := utf8EncodeChar_of_mem (List.mem_of_getLast? hlast) (by decide)
    obtain rfl : c = '\r' := Char.ext (UInt32.toNat_inj.1 hvalue)
    exact h.not_return List.getLast?_concat

end Endable

/-- The text in which each line ends in a newline. -/
def endLines (lines : List (List UInt8)) : List UInt8 := lines.flatMap (· ++ [10])

/-- Lines that newlines end are found again. -/
theorem lines_endLines {texts : List (List Char)} (h : ∀ cs ∈ texts, Endable cs) :
    lines (endLines (texts.map encode)) = texts.map encode := by
  have hsplit : splitAt 10 (endLines (texts.map encode)) = texts.map encode ++ [[]] := by
    refine splitAt_flatMap fun line hline => ?_
    obtain ⟨cs, hcs, rfl⟩ := List.mem_map.1 hline
    exact (h cs hcs).newline_notMem_encode
  have hdrop : (texts.map encode).map dropReturn = texts.map encode := by
    refine (List.map_congr_left fun line hline => ?_).trans (List.map_id (texts.map encode))
    obtain ⟨cs, hcs, rfl⟩ := List.mem_map.1 hline
    exact if_neg (h cs hcs).getLast?_encode_ne
  simp only [lines, hsplit, List.dropLast_concat, List.getLast?_concat, hdrop]
  simp

end FanoutCone.Aiger

namespace FanoutCone

/-- The lines of a text in which each line ends in a newline. -/
def textLines (text : String) : List (List Char) := (Aiger.splitAt '\n' text.toList).dropLast

theorem textLines_join {lines : List String} (h : ∀ line ∈ lines, '\n' ∉ line.toList) :
    textLines (String.join (lines.map (· ++ "\n"))) = lines.map String.toList := by
  have hlines : (String.join (lines.map (· ++ "\n"))).toList =
      (lines.map String.toList).flatMap (· ++ ['\n']) := by
    rw [String.toList_join, List.flatMap_map, List.flatMap_map]
    exact List.flatMap_congr fun line _ => String.toList_append
  rw [textLines, hlines, Aiger.splitAt_flatMap, List.dropLast_concat]
  intro piece hpiece
  obtain ⟨line, hline, rfl⟩ := List.mem_map.1 hpiece
  exact h line hline

end FanoutCone
