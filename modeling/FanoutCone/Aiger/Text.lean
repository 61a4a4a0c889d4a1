/-!
# Lines and numerals of AIGER text

A text is a list of bytes. Lines end at a newline byte, and one carriage return
right before it belongs to the line's end too; the last line may lack its
newline. Bytes become characters only when a line is read. A numeral is an
optional plus sign and at least one ASCII digit, and its value fits in 64 bits.
-/
namespace FanoutCone.Aiger

/-- The pieces of a list between the elements equal to `separator`. -/
def splitAt {α : Type} [DecidableEq α] (separator : α) : List α → List (List α)
  | [] => [[]]
  | a :: as =>
    if a = separator then [] :: splitAt separator as
    else
      match splitAt separator as with
      | [] => [[a]]
      | piece :: pieces => (a :: piece) :: pieces

/-- A line without the carriage return at its end. -/
def dropReturn (line : List UInt8) : List UInt8 :=
  if line.getLast? = some 13 then line.dropLast else line

/-- The lines of a text, without their ends. -/
def lines (bytes : List UInt8) : List (List UInt8) :=
  let pieces := splitAt 10 bytes
  let unfinished := pieces.getLast?.filter (· ≠ [])
  pieces.dropLast.map dropReturn ++ unfinished.toList

/-- The characters of a line, if it is well-formed UTF-8. -/
def decodeLine (line : List UInt8) : Option (List Char) :=
  (String.fromUTF8? ⟨line.toArray⟩).map String.toList

def digitsValue (digits : List Char) : Nat :=
  digits.foldl (fun value d => 10 * value + (d.toNat - '0'.toNat)) 0

/-- The least value that does not fit in 64 bits. -/
def valueLimit : Nat := 18446744073709551616

def readNumeral (cs : List Char) : Option Nat :=
  let digits := match cs with
    | '+' :: rest => rest
    | cs => cs
  let value := digitsValue digits
  if digits ≠ [] ∧ digits.all Char.isDigit ∧ value < valueLimit then some value else none

theorem splitAt_ne_nil {α : Type} [DecidableEq α] (separator : α) (as : List α) :
    splitAt separator as ≠ [] := by
  cases as with
  | nil => simp [splitAt]
  | cons a as =>
    simp only [splitAt]
    split
    · simp
    · split <;> simp

/-- The pieces with separators between them are the list. -/
theorem intercalate_splitAt {α : Type} [DecidableEq α] (separator : α) (as : List α) :
    List.intercalate [separator] (splitAt separator as) = as := by
  induction as with
  | nil => simp [splitAt, List.intercalate]
  | cons a as ih =>
    simp only [splitAt]
    cases hp : splitAt separator as with
    | nil => exact absurd hp (splitAt_ne_nil separator as)
    | cons piece pieces =>
      rw [hp] at ih
      by_cases ha : a = separator
      · subst ha
        simp only [if_true]
        rw [← ih]
        simp [List.intercalate, List.intersperse]
      · simp only [if_neg ha]
        rw [← ih]
        cases pieces <;> simp [List.intercalate, List.intersperse]

/-- No piece contains the separator. -/
theorem separator_notMem_of_mem_splitAt {α : Type} [DecidableEq α] {separator : α} {as : List α}
    {piece : List α} (h : piece ∈ splitAt separator as) : separator ∉ piece := by
  induction as generalizing piece with
  | nil =>
    have : piece = [] := by simpa [splitAt] using h
    simp [this]
  | cons a as ih =>
    simp only [splitAt] at h
    split at h
    · rcases List.mem_cons.1 h with rfl | h
      · simp
      · exact ih h
    · rename_i ha
      split at h
      · rename_i hp
        exact absurd hp (splitAt_ne_nil separator as)
      · rename_i first pieces hp
        rcases List.mem_cons.1 h with rfl | h
        · have hfirst : separator ∉ first := ih (by simp [hp])
          simp [hfirst, Ne.symm ha]
        · exact ih (by simp [hp, h])

end FanoutCone.Aiger
