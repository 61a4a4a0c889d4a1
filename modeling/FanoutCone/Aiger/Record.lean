import FanoutCone.Edge
import FanoutCone.NetworkError
import FanoutCone.Aiger.Text

/-!
# Records of AIGER text

The first line is the header. Each line after it is one record, and its position
alone says of which kind: first the inputs, then the latches, outputs and gates,
as many as the header declares, then symbols. A comment line, which starts with
`c`, ends the text wherever it comes, and lines that never come are not missed.
-/
namespace FanoutCone.Aiger

/-- Why a line is no record. -/
inductive ReadError where
  | invalidHeader
  | invalidLiteral
  | literalOutOfRange
  | invalidLiteralCount
  | invalidInverted
  | invalidSymbol
  | ioError
deriving DecidableEq

namespace ReadError

def name : ReadError → String
  | .invalidHeader => "InvalidHeader"
  | .invalidLiteral => "InvalidLiteral"
  | .literalOutOfRange => "LiteralOutOfRange"
  | .invalidLiteralCount => "InvalidLiteralCount"
  | .invalidInverted => "InvalidInverted"
  | .invalidSymbol => "InvalidSymbol"
  | .ioError => "IoError"

/-- The failure of loading a text in which the error occurs. -/
def failure (e : ReadError) : LoadFailure := .rejected (.malformed e.name)

end ReadError

/-- The numbers that the first line declares. -/
structure Header where
  /-- The largest variable. -/
  maximum : Nat
  inputs : Nat
  latches : Nat
  outputs : Nat
  gates : Nat
deriving DecidableEq

/-- The numerals between single spaces, if all pieces are numerals. -/
def readNumerals (pieces : List (List Char)) : Option (List Nat) := pieces.mapM readNumeral

/-- The header on a first line: the word `aag` and five numerals. -/
def Header.read (line : List Char) : Except ReadError Header :=
  match splitAt ' ' line with
  | ['a', 'a', 'g'] :: pieces =>
    match readNumerals pieces with
    | some [maximum, inputs, latches, outputs, gates] =>
      .ok ⟨maximum, inputs, latches, outputs, gates⟩
    | _ => .error .invalidHeader
  | _ => .error .invalidHeader

/-- What the lines after the header hold. -/
inductive Part where
  | inputs
  | latches
  | outputs
  | gates
  | symbols
deriving DecidableEq

/-- The part to which line `k` after the header belongs, counted from 0. -/
def Header.part (h : Header) (k : Nat) : Part :=
  if k < h.inputs then .inputs
  else if k < h.inputs + h.latches then .latches
  else if k < h.inputs + h.latches + h.outputs then .outputs
  else if k < h.inputs + h.latches + h.outputs + h.gates then .gates
  else .symbols

inductive SymbolKind where
  | input
  | latch
  | output
deriving DecidableEq

/-- A name for the input, latch or output at a position. -/
structure Symbol where
  kind : SymbolKind
  position : Nat
  name : String
deriving DecidableEq

/-- One line after the header. Literals are twice a variable, plus one if inverted. -/
inductive Record where
  | input (literal : Nat)
  | latch (state next : Nat)
  | output (literal : Nat)
  | gate (literal left right : Nat)
  | symbol (symbol : Symbol)
deriving DecidableEq

/-- Checks the literals of a record: the one it defines, if any, is not inverted, and none names a
variable above the maximum. -/
def checkLiterals (maximum : Nat) (defined : Option Nat) (literals : List Nat) :
    Except ReadError Unit :=
  if defined.any (· % 2 = 1) then .error .invalidInverted
  else if literals.any (maximum < · / 2) then .error .literalOutOfRange
  else .ok ()

/-- The symbol on a line: its kind, a position, a space and the name. -/
def readSymbol (line : List Char) : Except LoadFailure Symbol :=
  match line with
  | [] => .error (.broken .unreadableSymbol)
  | first :: rest =>
    if first.utf8Size ≠ 1 then .error (.broken .unreadableSymbol)
    else
      let kind? : Option SymbolKind := match first with
        | 'i' => some .input
        | 'l' => some .latch
        | 'o' => some .output
        | _ => none
      match kind?, readNumeral (rest.takeWhile (· ≠ ' ')), rest.dropWhile (· ≠ ' ') with
      | some kind, some position, _ :: name =>
        if name = [] then .error ReadError.invalidSymbol.failure
        else .ok ⟨kind, position, String.ofList name⟩
      | _, _, _ => .error ReadError.invalidSymbol.failure

/-- The record on a line that holds literals. All pieces have to be numerals, then as many as the
part asks for. -/
def readLiterals (maximum : Nat) (part : Part) (line : List Char) : Except ReadError Record :=
  match readNumerals (splitAt ' ' line) with
  | none => .error .invalidLiteral
  | some literals =>
    match part, literals with
    | .inputs, [literal] =>
      (checkLiterals maximum (some literal) literals).map fun _ => .input literal
    | .latches, [state, next] =>
      (checkLiterals maximum (some state) literals).map fun _ => .latch state next
    | .outputs, [literal] =>
      (checkLiterals maximum none literals).map fun _ => .output literal
    | .gates, [literal, left, right] =>
      (checkLiterals maximum (some literal) literals).map fun _ => .gate literal left right
    | _, _ => .error .invalidLiteralCount

def Record.read (maximum : Nat) (part : Part) (line : List Char) : Except LoadFailure Record :=
  match part with
  | .symbols => (readSymbol line).map .symbol
  | part => (readLiterals maximum part line).mapError ReadError.failure

end FanoutCone.Aiger
