import FanoutCone.Node

/-!
# Faults

A fault is the breach of a rule that callers promise to keep: a handle outside
the arena, a count driven past either of its ends, an edge deleted from under
its gate. No operation continues after a fault. `Fault.message` words the few
that users are told about.
-/
namespace FanoutCone

/-- Why an operation broke off. -/
inductive Fault where
  /-- An index that no fanin edge can name. -/
  | indexTooLarge (index : Nat)
  /-- A parent was taken away from a node that has none. -/
  | underflow (node : Nat)
  /-- A parent was added to a node that has as many as can be counted. -/
  | overflow (node : Nat)
  /-- The node holds no fanins at that position. -/
  | noFanin (node : Nat) (position : Nat)
  /-- The edge of a fanin was deleted while its gate remained. -/
  | severedFanin
  /-- An edge was drawn from a vacant slot. -/
  | vacantEndpoint (node : Nat)
  /-- The node is in no slot of the store or network asked. -/
  | absentNode (node : Nat)
  /-- A fanin list was read past its end. -/
  | absentFanin (node : Nat) (position : Nat)
  /-- There is no latch at that position. -/
  | absentLatch (position : Nat)
  /-- A dereference and the reference after it passed different numbers of nodes. -/
  | unbalanced (node : Nat)
  /-- A walk was allowed fewer steps than it needed. -/
  | exhausted
  /-- A symbol line is empty or starts outside ASCII. -/
  | unreadableSymbol
  /-- The declared maximum variable does not fit in an arena. -/
  | arenaTooLarge (maximum : Nat)
  /-- A store was asked to hold more nodes than can be addressed. -/
  | storeTooLarge (len : Nat)
  /-- A constant stands elsewhere than at index zero. -/
  | strayConstant (node : Nat)
  /-- There are not as many counts as nodes. -/
  | unevenCounts (nodes counts : Nat)
deriving DecidableEq

namespace Fault

/-- The text reported for a fault; most have none. -/
def message : Fault → Option String
  | .indexTooLarge index =>
    some ("node index " ++ toString index ++ " exceeds the 31-bit arena")
  | .underflow node =>
    some ("fanout count of " ++ Node.text node ++ " underflowed: dereferenced with no live parents")
  | .noFanin node position => some (Node.text node ++ " has no fanin " ++ toString position)
  | .severedFanin => some "fanin edge of a live node exists"
  | .vacantEndpoint node =>
    some ("StableGraph::add_edge: node index " ++ toString node ++ " is not a node in the graph")
  | .overflow _ | .absentNode _ | .absentFanin _ _ | .absentLatch _ | .unbalanced _
  | .exhausted | .unreadableSymbol | .arenaTooLarge _ | .storeTooLarge _ | .strayConstant _
  | .unevenCounts _ _ => none

end Fault

/-- The handle of index `i`, which has to be one that an edge can name. -/
def Node.ofIndex (i : Nat) : Except Fault Nat :=
  if i ≤ Node.maxIndex then .ok i else .error (.indexTooLarge i)

end FanoutCone
