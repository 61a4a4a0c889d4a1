import FanoutCone.Fault

/-!
# Fanin edges

An edge names the node it comes from and says whether it is inverted. Its
literal is twice the node plus the inversion, the packing of AIGER, and edges
are ordered by their literals.
-/
namespace FanoutCone

/-- A reference to a node, possibly complemented. -/
structure Edge where
  node : Nat
  complement : Bool
deriving DecidableEq

namespace Edge

def ofNode (n : Nat) : Edge := ⟨n, false⟩

/-- Twice the node, plus one when complemented. -/
def literal (e : Edge) : Nat := 2 * e.node + e.complement.toNat

def ofLiteral (literal : Nat) : Edge := ⟨literal / 2, literal % 2 == 1⟩

/-- The edge of a literal whose node has to be one that an edge can name. -/
def ofLiteral? (literal : Nat) : Except Fault Edge := do
  let n ← Node.ofIndex (literal / 2)
  return ⟨n, literal % 2 == 1⟩

def regular (e : Edge) : Edge := ⟨e.node, false⟩

/-- The same edge with the opposite inversion. -/
def invert (e : Edge) : Edge := ⟨e.node, !e.complement⟩

/-- The written form: the node, after `!` when complemented. -/
def text (e : Edge) : String :=
  if e.complement then "!" ++ Node.text e.node else Node.text e.node

instance : Ord Edge := ⟨fun a b => compare a.literal b.literal⟩

@[simp] theorem ofLiteral_literal (e : Edge) : ofLiteral e.literal = e := by
  obtain ⟨n, c⟩ := e
  cases c
  · simp [ofLiteral, literal]
  · have h₁ : (2 * n + 1) / 2 = n := by omega
    have h₂ : (2 * n + 1) % 2 = 1 := by omega
    simp [ofLiteral, literal, h₁, h₂]

@[simp] theorem literal_ofLiteral (k : Nat) : (ofLiteral k).literal = k := by
  rcases Nat.mod_two_eq_zero_or_one k with h | h <;> simp [ofLiteral, literal, h] <;> omega

@[simp] theorem invert_invert (e : Edge) : e.invert.invert = e := by
  simp [invert]

@[simp] theorem node_invert (e : Edge) : e.invert.node = e.node := rfl

end Edge

end FanoutCone
