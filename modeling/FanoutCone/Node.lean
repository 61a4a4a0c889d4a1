/-!
# Node handles

A network keeps its nodes in an arena, and a node is named by its index there.
Handles are plain numbers: a handle may name a node that does not exist, and
each operation says what then happens.
-/
namespace FanoutCone

namespace Node

/-- The largest index a fanin edge can name: one of 32 bits holds the complement,
which leaves 31. -/
def maxIndex : Nat := 2147483647

/-- The most nodes that a store can be asked to hold. An entry takes four bytes, and no store
takes more than half of a 64-bit address space. -/
def maxStored : Nat := 2305843009213693951

/-- The written form of a handle: `n` and the index. -/
def text (n : Nat) : String := "n" ++ toString n

end Node

/-- What a node is, as far as counting parents is concerned. -/
inductive NodeKind where
  /-- A combinational input, never walked through. -/
  | leaf
  /-- A logic node, which holds references to its fanins. -/
  | internal
deriving DecidableEq

end FanoutCone
