import Mathlib.Algebra.Order.BigOperators.Group.Finset
import Mathlib.Order.WellFounded
import FanoutCone.Acyclic
import FanoutCone.Proofs.GateTable

/-!
# The search for cycles, one turn after another

The search is a loop. A turn begins at a fresh node when no node is open, looks
at the next fanin of the node on top, or closes that node when all its fanins
have been looked at. The loop stops when there is no node left to begin at, or
when the next fanin is open.

Every turn takes a piece of work away, and no turn adds any: what a node costs is
owed while it is fresh. So the loop ends. Throughout, the open nodes are exactly
those on the stack, and each reads, through those above it, the node on top; what
lies below a node that is done is well-founded. Hence an open fanin closes a
cycle, and a search with nothing left to do has found none.
-/
namespace FanoutCone

/-- The gates among the nodes of an and-inverter graph. -/
def Aig.gatesOf (nodes : Array AigNode) : GateTable := fun n =>
  match nodes[n]? with
  | some (.and left right) => some (left, right)
  | some .const | some (.input _) | some (.latch _) | none => none

theorem Aig.gatesOf_eq_some_iff {nodes : Array AigNode} {n : Nat} {left right : Edge} :
    gatesOf nodes n = some (left, right) ↔ nodes[n]? = some (.and left right) := by
  unfold gatesOf
  cases nodes[n]? with
  | none => simp
  | some node => cases node <;> simp

namespace CycleSearch

variable {nodes : Array AigNode} {starts : List Nat} {frames : List Frame}
variable {colors colors' : Array Color} {color color' : Color} {fanins : List Nat}
variable {n u v w k l : Nat}

theorem sources_gatesOf (nodes : Array AigNode) (n : Nat) :
    (Aig.gatesOf nodes).sources n = faninNodes nodes n := by
  unfold GateTable.sources Aig.gatesOf faninNodes
  cases nodes[n]? with
  | none => rfl
  | some node => cases node <;> rfl

theorem reads_gatesOf : (Aig.gatesOf nodes).Reads u v ↔ v ∈ faninNodes nodes u := by
  unfold GateTable.Reads
  rw [sources_gatesOf]

theorem length_faninNodes_le (nodes : Array AigNode) (n : Nat) :
    (faninNodes nodes n).length ≤ 2 := by
  unfold faninNodes
  cases nodes[n]? with
  | none => exact Nat.zero_le _
  | some node => cases node <;> simp [AigNode.fanins]

/-- Where a search stands: the nodes that it has yet to begin at, the open nodes with the fanins
still to look at, and the colours. -/
structure State where
  starts : List Nat
  frames : List Frame
  colors : Array Color

def State.start (nodes : Array AigNode) : State :=
  ⟨List.range nodes.size, [], Array.replicate nodes.size .fresh⟩

inductive Turn (nodes : Array AigNode) : State → State → Prop
  /-- A node that was reached before is no place to begin. -/
  | pass {start : Nat} {starts : List Nat} {colors : Array Color}
      (hstart : colors[start]? ≠ some .fresh) :
      Turn nodes ⟨start :: starts, [], colors⟩ ⟨starts, [], colors⟩
  /-- The search begins at a fresh node. -/
  | start {start : Nat} {starts : List Nat} {colors : Array Color}
      (hfresh : colors[start]? = some .fresh) :
      Turn nodes ⟨start :: starts, [], colors⟩
        ⟨starts, [⟨start, faninNodes nodes start⟩], colors.setIfInBounds start .opened⟩
  /-- A fanin that is done is left alone. -/
  | skip {n v : Nat} {fanins starts : List Nat} {frames : List Frame} {colors : Array Color}
      (hdone : colors[v]? = some .done) :
      Turn nodes ⟨starts, ⟨n, v :: fanins⟩ :: frames, colors⟩
        ⟨starts, ⟨n, fanins⟩ :: frames, colors⟩
  /-- A fresh fanin is opened. -/
  | enter {n v : Nat} {fanins starts : List Nat} {frames : List Frame} {colors : Array Color}
      (hfresh : colors[v]? = some .fresh) :
      Turn nodes ⟨starts, ⟨n, v :: fanins⟩ :: frames, colors⟩
        ⟨starts, ⟨v, faninNodes nodes v⟩ :: ⟨n, fanins⟩ :: frames, colors.setIfInBounds v .opened⟩
  /-- A node without further fanins is done. -/
  | leave {n : Nat} {starts : List Nat} {frames : List Frame} {colors : Array Color} :
      Turn nodes ⟨starts, ⟨n, []⟩ :: frames, colors⟩
        ⟨starts, frames, colors.setIfInBounds n .done⟩

/-- `Turns nodes k s s'` says that `k` turns lead from `s` to `s'`. -/
inductive Turns (nodes : Array AigNode) : Nat → State → State → Prop
  | refl (s : State) : Turns nodes 0 s s
  | head {k : Nat} {s s' s'' : State} (hturn : Turn nodes s s') (h : Turns nodes k s' s'') :
      Turns nodes (k + 1) s s''

/-- What is answered where the search takes no further turn: nothing is left to do, or the next
fanin is open. -/
inductive State.Answers : State → Except LoadFailure Unit → Prop
  | acyclic (colors : Array Color) : Answers ⟨[], [], colors⟩ (.ok ())
  | cycle {n v : Nat} {fanins starts : List Nat} {frames : List Frame} {colors : Array Color}
      (hopened : colors[v]? = some .opened) :
      Answers ⟨starts, ⟨n, v :: fanins⟩ :: frames, colors⟩ (.error (.rejected (.cycle v)))

variable {s s' s'' : State}

theorem Turns.trans (h : Turns nodes k s s') (h' : Turns nodes l s' s'') :
    Turns nodes (l + k) s s'' := by
  induction h with
  | refl => exact h'
  | head hturn _ ih => exact .head hturn (ih h')

/-- There is one way on at most. -/
theorem Turn.unique (h : Turn nodes s s') (h' : Turn nodes s s'') : s' = s'' := by
  cases h with
  | pass hstart =>
    cases h' with
    | pass => rfl
    | start hfresh => exact absurd hfresh hstart
  | start hfresh =>
    cases h' with
    | pass hstart => exact absurd hfresh hstart
    | start => rfl
  | skip hdone =>
    cases h' with
    | skip => rfl
    | enter hfresh => cases hdone.symm.trans hfresh
  | enter hfresh =>
    cases h' with
    | skip hdone => cases hdone.symm.trans hfresh
    | enter => rfl
  | leave =>
    cases h' with
    | leave => rfl

theorem State.Answers.not_turn {r : Except LoadFailure Unit} (h : s.Answers r) :
    ¬ Turn nodes s s' := by
  intro hturn
  cases h with
  | acyclic => cases hturn
  | cycle hopened =>
    cases hturn with
    | skip hdone => cases hdone.symm.trans hopened
    | enter hfresh => cases hfresh.symm.trans hopened

/-- A run lies on the way to the answer. -/
theorem Turns.exists_rest {t : State} {r : Except LoadFailure Unit} (h : Turns nodes k s s')
    (h' : Turns nodes l s t) (ht : t.Answers r) : ∃ m, Turns nodes m s' t := by
  induction h generalizing l with
  | refl => exact ⟨l, h'⟩
  | head hturn _ ih =>
    cases h' with
    | refl => exact absurd hturn ht.not_turn
    | head hturn' h' =>
      obtain rfl := hturn.unique hturn'
      exact ih h'

section Work

/-- What is owed for the fresh nodes at a price for each node. -/
def owed (price : Nat → Nat) (colors : Array Color) : Nat :=
  ∑ v ∈ Finset.range colors.size, if colors[v]? = some .fresh then price v else 0

/-- Opening a fresh node pays for it. -/
theorem owed_open (price : Nat → Nat) (h : colors[v]? = some .fresh) :
    owed price (colors.setIfInBounds v .opened) + price v = owed price colors := by
  have hv : v ∈ Finset.range colors.size :=
    Finset.mem_range.2 (Array.getElem?_eq_some_iff.1 h).1
  have hsame : ∀ u ∈ (Finset.range colors.size).erase v,
      (if (colors.setIfInBounds v .opened)[u]? = some .fresh then price u else 0) =
        if colors[u]? = some .fresh then price u else 0 := by
    intro u hu
    rw [Array.getElem?_setIfInBounds_ne (Finset.ne_of_mem_erase hu).symm]
  unfold owed
  rw [Array.size_setIfInBounds, ← Finset.sum_erase_add _ _ hv, ← Finset.sum_erase_add _ _ hv,
    Finset.sum_congr rfl hsame, Array.getElem?_setIfInBounds_self, h, if_pos rfl]
  split <;> simp

/-- Closing a node owes nothing new. -/
theorem owed_close_le (price : Nat → Nat) (colors : Array Color) (n : Nat) :
    owed price (colors.setIfInBounds n .done) ≤ owed price colors := by
  unfold owed
  rw [Array.size_setIfInBounds]
  apply Finset.sum_le_sum
  intro v _
  by_cases hvn : n = v
  · subst hvn
    rw [Array.getElem?_setIfInBounds_self]
    split <;> simp
  · rw [Array.getElem?_setIfInBounds_ne hvn]

theorem owed_le {price : Nat → Nat} {b : Nat} (hprice : ∀ v, price v ≤ b) (colors : Array Color) :
    owed price colors ≤ colors.size * b := by
  have hle : ∀ v ∈ Finset.range colors.size,
      (if colors[v]? = some .fresh then price v else 0) ≤ b := by
    intro v _
    split
    · exact hprice v
    · exact Nat.zero_le b
  have hsum := Finset.sum_le_card_nsmul _ _ b hle
  rwa [Finset.card_range, Nat.nsmul_eq_mul] at hsum

/-- The turns that an open node costs: a look at each fanin and the closing. -/
def cost (nodes : Array AigNode) (v : Nat) : Nat := (faninNodes nodes v).length + 1

/-- The turns still to be taken: one for each node to begin at, and what the open and the fresh
nodes cost. -/
def State.work (nodes : Array AigNode) (s : State) : Nat :=
  s.starts.length + (s.frames.flatMap Frame.fanins).length + s.frames.length +
    owed (cost nodes) s.colors

/-- A node that is opened was owed for, so that its cost is no new work. -/
theorem Turn.work_lt (h : Turn nodes s s') : s'.work nodes < s.work nodes := by
  cases h with
  | pass hstart =>
    simp only [State.work, List.length_cons]
    omega
  | start hfresh =>
    have howed := owed_open (cost nodes) hfresh
    simp only [State.work, cost, List.flatMap_cons, List.length_append, List.length_cons,
      List.length_nil] at howed ⊢
    omega
  | skip hdone =>
    simp only [State.work, List.flatMap_cons, List.length_append, List.length_cons]
    omega
  | enter hfresh =>
    have howed := owed_open (cost nodes) hfresh
    simp only [State.work, cost, List.flatMap_cons, List.length_append,
      List.length_cons] at howed ⊢
    omega
  | @leave n starts frames colors =>
    have howed := owed_close_le (cost nodes) colors n
    simp only [State.work, List.flatMap_cons, List.nil_append, List.length_cons]
    omega

theorem Turns.add_work_le (h : Turns nodes k s s') : k + s'.work nodes ≤ s.work nodes := by
  induction h with
  | refl => omega
  | head hturn _ ih =>
    have hlt := hturn.work_lt
    omega

/-- A search begins at each node once, looks at two fanins of each at most, and closes each
once. -/
theorem work_start_le (nodes : Array AigNode) :
    (State.start nodes).work nodes ≤ 4 * nodes.size := by
  have hcost : ∀ v, cost nodes v ≤ 3 := fun v => Nat.succ_le_succ (length_faninNodes_le nodes v)
  have howed := owed_le hcost (Array.replicate nodes.size .fresh)
  simp only [State.work, State.start, List.length_range, List.flatMap_nil, List.length_nil,
    Array.size_replicate] at howed ⊢
  omega

end Work

section Colors

theorem getElem?_set_cases (h : (colors.setIfInBounds n color)[v]? = some color') :
    (v = n ∧ color' = color) ∨ (v ≠ n ∧ colors[v]? = some color') := by
  by_cases hvn : n = v
  · subst hvn
    rw [Array.getElem?_setIfInBounds_self] at h
    split at h
    · exact Or.inl ⟨rfl, (Option.some.inj h).symm⟩
    · cases h
  · rw [Array.getElem?_setIfInBounds_ne hvn] at h
    exact Or.inr ⟨Ne.symm hvn, h⟩

/-- A node keeps its colour when a node of another colour is given a new one. -/
theorem getElem?_set_of_ne (hv : colors[v]? = some color) (hn : colors[n]? ≠ some color) :
    (colors.setIfInBounds n color')[v]? = some color := by
  have hne : n ≠ v := fun h => hn (h ▸ hv)
  rwa [Array.getElem?_setIfInBounds_ne hne]

theorem getElem?_set_self (hn : colors[n]? = some color') :
    (colors.setIfInBounds n color)[n]? = some color := by
  rw [Array.getElem?_setIfInBounds_self, if_pos (Array.getElem?_eq_some_iff.1 hn).1]

end Colors

/-- Whether everything below a node is well-founded. -/
def Grounded (nodes : Array AigNode) (n : Nat) : Prop :=
  Acc (fun a b => a ∈ faninNodes nodes b) n

/-- What is known of the fanins of the open nodes. Those still to look at and the node in hand are
fanins of the node on top, and every other fanin of it is done. Further down, the node of the frame
above takes the place of the one in hand. -/
def Stacked (nodes : Array AigNode) (colors : Array Color) : Option Nat → List Frame → Prop
  | _, [] => True
  | hand, frame :: frames =>
    (∀ w, w ∈ frame.fanins ∨ hand = some w → w ∈ faninNodes nodes frame.node) ∧
      (∀ w ∈ faninNodes nodes frame.node,
        w ∈ frame.fanins ∨ hand = some w ∨ colors[w]? = some .done) ∧
      Stacked nodes colors (some frame.node) frames

/-- What holds at every turn of a search. In the middle of a turn the search has a node in hand, a
place to begin at or the next fanin of the node on top. -/
structure Sound (nodes : Array AigNode) (hand : Option Nat) (s : State) : Prop where
  size_eq : s.colors.size = nodes.size
  reached : ∀ v < nodes.size, v ∈ s.starts ∨ hand = some v ∨ s.colors[v]? ≠ some .fresh
  /-- The open nodes are those on the stack. -/
  opened_iff : ∀ v, s.colors[v]? = some .opened ↔ v ∈ s.frames.map Frame.node
  nodup : (s.frames.map Frame.node).Nodup
  stacked : Stacked nodes s.colors hand s.frames
  grounded : ∀ v, s.colors[v]? = some .done → Grounded nodes v

variable {hand hand' : Option Nat}

theorem Stacked.mono (hcolors : ∀ w : Nat, colors[w]? = some .done → colors'[w]? = some .done)
    (hsub : ∀ w, hand' = some w → hand = some w)
    (hhand : ∀ w, hand = some w → hand' = some w ∨ colors'[w]? = some .done)
    (h : Stacked nodes colors hand frames) : Stacked nodes colors' hand' frames := by
  induction frames generalizing hand hand' with
  | nil => trivial
  | cons frame frames ih =>
    obtain ⟨hfanins, hrest, hframes⟩ := h
    refine ⟨fun w hw => hfanins w (hw.imp_right (hsub w)), fun w hw => ?_,
      ih (fun w hw => hw) (fun w hw => Or.inl hw) hframes⟩
    rcases hrest w hw with hmem | heq | hdone
    · exact Or.inl hmem
    · exact Or.inr (hhand w heq)
    · exact Or.inr (Or.inr (hcolors w hdone))

/-- Every open node reads the node in hand, through those above it. -/
theorem Stacked.reads (h : Stacked nodes colors (some v) frames) :
    ∀ frame ∈ frames, Relation.TransGen (Aig.gatesOf nodes).Reads frame.node v := by
  induction frames generalizing v with
  | nil => exact fun frame hframe => absurd hframe List.not_mem_nil
  | cons frame frames ih =>
    have hread : (Aig.gatesOf nodes).Reads frame.node v :=
      reads_gatesOf.2 (h.1 v (Or.inr rfl))
    intro below hbelow
    rcases List.mem_cons.1 hbelow with rfl | hbelow
    · exact Relation.TransGen.single hread
    · exact (ih h.2.2 below hbelow).tail hread

namespace Sound

theorem start (nodes : Array AigNode) : Sound nodes none (.start nodes) := by
  have hfresh : ∀ {v : Nat} {color : Color},
      (Array.replicate nodes.size Color.fresh)[v]? = some color → color = .fresh := by
    intro v color hv
    rw [Array.getElem?_replicate] at hv
    split at hv
    · exact (Option.some.inj hv).symm
    · cases hv
  constructor
  case size_eq => exact Array.size_replicate
  case reached => exact fun v hv => Or.inl (List.mem_range.2 hv)
  case opened_iff =>
    refine fun v => ⟨fun hv => ?_, fun hv => absurd hv List.not_mem_nil⟩
    cases hfresh hv
  case nodup => exact List.nodup_nil
  case stacked => trivial
  case grounded =>
    intro v hv
    cases hfresh hv

/-- Taking the next node to begin at in hand. -/
theorem takeStart (h : Sound nodes none ⟨v :: starts, [], colors⟩) :
    Sound nodes (some v) ⟨starts, [], colors⟩ := by
  refine { h with reached := fun w hw => ?_, stacked := trivial }
  rcases h.reached w hw with hmem | heq | hw
  · rcases List.mem_cons.1 hmem with rfl | hmem
    · exact Or.inr (Or.inl rfl)
    · exact Or.inl hmem
  · cases heq
  · exact Or.inr (Or.inr hw)

/-- Taking the next fanin of the node on top in hand. -/
theorem takeFanin (h : Sound nodes none ⟨starts, ⟨n, v :: fanins⟩ :: frames, colors⟩) :
    Sound nodes (some v) ⟨starts, ⟨n, fanins⟩ :: frames, colors⟩ := by
  obtain ⟨hfanins, hrest, hframes⟩ := h.stacked
  refine { h with
    reached := fun w hw => (h.reached w hw).imp_right fun hw => ?_
    stacked := ⟨fun w hw => hfanins w (Or.inl ?_), fun w hw => ?_, hframes⟩ }
  · exact Or.inr (hw.resolve_left (Option.some_ne_none w).symm)
  · rcases hw with hmem | heq
    · exact List.mem_cons_of_mem v hmem
    · cases heq
      exact List.mem_cons_self
  · rcases hrest w hw with hmem | heq | hdone
    · rcases List.mem_cons.1 hmem with rfl | hmem
      · exact Or.inr (Or.inl rfl)
      · exact Or.inl hmem
    · cases heq
    · exact Or.inr (Or.inr hdone)

/-- Putting the node in hand away, which was reached before. -/
theorem putAway (h : Sound nodes (some v) s) (hv : s.colors[v]? ≠ some .fresh)
    (hstacked : Stacked nodes s.colors none s.frames) : Sound nodes none s := by
  refine { h with reached := fun w hw => ?_, stacked := hstacked }
  rcases h.reached w hw with hmem | heq | hw
  · exact Or.inl hmem
  · cases heq
    exact Or.inr (Or.inr hv)
  · exact Or.inr (Or.inr hw)

/-- Opening the node in hand. -/
theorem opens (h : Sound nodes (some v) ⟨starts, frames, colors⟩)
    (hfresh : colors[v]? = some .fresh) :
    Sound nodes none
      ⟨starts, ⟨v, faninNodes nodes v⟩ :: frames, colors.setIfInBounds v .opened⟩ := by
  have hnot : ∀ {color : Color}, color ≠ .fresh → colors[v]? ≠ some color := by
    intro color hcolor hv
    exact hcolor (Option.some.inj (hv.symm.trans hfresh))
  constructor
  case size_eq => simpa using h.size_eq
  case reached =>
    intro w hw
    rcases h.reached w hw with hmem | heq | hw
    · exact Or.inl hmem
    · cases heq
      exact Or.inr (Or.inr (by simp [getElem?_set_self hfresh]))
    · refine Or.inr (Or.inr fun hset => ?_)
      rcases getElem?_set_cases hset with ⟨-, hopened⟩ | ⟨-, hset⟩
      · cases hopened
      · exact hw hset
  case opened_iff =>
    intro w
    rw [List.map_cons, List.mem_cons, ← h.opened_iff w]
    constructor
    · intro hset
      exact (getElem?_set_cases hset).imp And.left And.right
    · rintro (rfl | hw)
      · exact getElem?_set_self hfresh
      · exact getElem?_set_of_ne hw (hnot (by decide))
  case nodup =>
    rw [List.map_cons, List.nodup_cons, ← h.opened_iff v]
    exact ⟨hnot (by decide), h.nodup⟩
  case stacked =>
    refine ⟨fun w hw => hw.resolve_right (Option.some_ne_none w).symm, fun w hw => Or.inl hw, ?_⟩
    refine h.stacked.mono (fun w hw => ?_) (fun w hw => hw) fun w hw => Or.inl hw
    exact getElem?_set_of_ne hw (hnot (by decide))
  case grounded =>
    intro w hw
    rcases getElem?_set_cases hw with ⟨-, hdone⟩ | ⟨-, hw⟩
    · cases hdone
    · exact h.grounded w hw

/-- Closing the node on top, all of whose fanins are done. -/
theorem leaves (h : Sound nodes none ⟨starts, ⟨n, []⟩ :: frames, colors⟩) :
    Sound nodes none ⟨starts, frames, colors.setIfInBounds n .done⟩ := by
  obtain ⟨-, hrest, hframes⟩ := h.stacked
  have hopened : colors[n]? = some .opened := (h.opened_iff n).2 List.mem_cons_self
  have hnot : colors[n]? ≠ some .done := by simp [hopened]
  have hnodup := List.nodup_cons.1 h.nodup
  have hground : Grounded nodes n := by
    apply Acc.intro
    intro w hw
    rcases hrest w hw with hmem | heq | hdone
    · cases hmem
    · cases heq
    · exact h.grounded w hdone
  constructor
  case size_eq => simpa using h.size_eq
  case reached =>
    intro w hw
    refine (h.reached w hw).imp_right fun hw => hw.imp_right fun hw hset => ?_
    rcases getElem?_set_cases hset with ⟨-, hdone⟩ | ⟨-, hset⟩
    · cases hdone
    · exact hw hset
  case opened_iff =>
    refine fun w => ⟨fun hset => ?_, fun hmem => ?_⟩
    · rcases getElem?_set_cases hset with ⟨-, hdone⟩ | ⟨hne, hset⟩
      · cases hdone
      · exact (List.mem_cons.1 ((h.opened_iff w).1 hset)).resolve_left hne
    · -- No node is on the stack twice, so the others stay open.
      have hne : n ≠ w := fun heq => hnodup.1 (heq ▸ hmem)
      rw [Array.getElem?_setIfInBounds_ne hne]
      exact (h.opened_iff w).2 (List.mem_cons_of_mem n hmem)
  case nodup => exact hnodup.2
  case stacked =>
    refine hframes.mono (fun w hw => getElem?_set_of_ne hw hnot) (fun w hw => by cases hw) ?_
    rintro w ⟨⟩
    exact Or.inr (getElem?_set_self hopened)
  case grounded =>
    intro w hw
    rcases getElem?_set_cases hw with ⟨rfl, -⟩ | ⟨-, hw⟩
    · exact hground
    · exact h.grounded w hw

/-- A turn keeps what holds. -/
theorem turn (h : Sound nodes none s) (hturn : Turn nodes s s') : Sound nodes none s' := by
  cases hturn with
  | pass hstart => exact h.takeStart.putAway hstart trivial
  | start hfresh => exact h.takeStart.opens hfresh
  | skip hdone =>
    refine h.takeFanin.putAway (by simp [hdone]) (h.takeFanin.stacked.mono (fun w hw => hw) ?_ ?_)
    · exact fun w hw => absurd hw.symm (Option.some_ne_none w)
    · rintro w ⟨⟩
      exact Or.inr hdone
  | enter hfresh => exact h.takeFanin.opens hfresh
  | leave => exact h.leaves

theorem turns (h : Sound nodes none s) (hturns : Turns nodes k s s') : Sound nodes none s' := by
  induction hturns with
  | refl => exact h
  | head hturn _ ih => exact ih (h.turn hturn)

/-- A search with nothing left to do has found no cycle. -/
theorem acyclic (h : Sound nodes none ⟨[], [], colors⟩) : (Aig.gatesOf nodes).Acyclic := by
  have hground : ∀ v, Grounded nodes v := by
    intro v
    cases hv : colors[v]? with
    | none =>
      have hnodes : nodes[v]? = none := by
        rw [Array.getElem?_eq_none_iff] at hv ⊢
        exact h.size_eq ▸ hv
      refine Acc.intro v fun w hw => ?_
      simp [faninNodes, hnodes] at hw
    | some color =>
      have hlt : v < nodes.size := h.size_eq ▸ (Array.getElem?_eq_some_iff.1 hv).1
      cases color with
      | done => exact h.grounded v hv
      | opened => exact absurd ((h.opened_iff v).1 hv) List.not_mem_nil
      | fresh =>
        rcases h.reached v hlt with hmem | heq | hne
        · cases hmem
        · cases heq
        · exact absurd hv hne
  have hwf : WellFounded fun a b => a ∈ faninNodes nodes b := ⟨hground⟩
  intro v hv
  have hswap : Relation.TransGen (fun a b => a ∈ faninNodes nodes b) v v := by
    rw [← Relation.transGen_swap]
    exact Relation.TransGen.mono (fun a b hab => reads_gatesOf.1 hab) v v hv
  exact hwf.transGen.irrefl.irrefl v hswap

/-- An open fanin of the node on top closes a cycle. -/
theorem cycle (h : Sound nodes none ⟨starts, ⟨n, v :: fanins⟩ :: frames, colors⟩)
    (hopened : colors[v]? = some .opened) : Relation.TransGen (Aig.gatesOf nodes).Reads v v := by
  obtain ⟨frame, hframe, rfl⟩ := List.mem_map.1 ((h.takeFanin.opened_iff v).1 hopened)
  exact h.takeFanin.stacked.reads frame hframe

end Sound

end CycleSearch

end FanoutCone
