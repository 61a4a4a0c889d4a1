import FanoutCone.Proofs.Cycles

/-!
# Reports of the search for cycles

The search is carried out in larger pieces than turns: fanins that are done are
skipped together with the opening or closing after them, and each node to begin
at has an allowance of steps of its own. Where every fanin exists, it takes the
turns of the loop all the same and answers what the loop answers. The allowance
is never used up: an opening trades a fresh node for a frame, a closing drops a
frame, so twice the fresh nodes and the frames bound the steps still to take.

Hence the search decides whether the gates form a cycle, and reports a gate that
lies on one.
-/
namespace FanoutCone

/-- Whether every fanin of a gate comes from a node that exists. -/
def Aig.FaninsExist (nodes : Array AigNode) : Prop :=
  ∀ node ∈ nodes, ∀ e ∈ node.fanins, e.node < nodes.size

namespace CycleSearch

variable {nodes : Array AigNode} {starts : List Nat} {frames : List Frame}
variable {colors : Array Color} {fanins : List Nat} {n v : Nat} {s s' : State} {k : Nat}

theorem lt_of_mem_faninNodes (hrange : Aig.FaninsExist nodes) (hv : v ∈ faninNodes nodes n) :
    v < nodes.size := by
  unfold faninNodes at hv
  cases hnode : nodes[n]? with
  | none => simp [hnode] at hv
  | some node =>
    rw [hnode] at hv
    obtain ⟨e, he, rfl⟩ := List.mem_map.1 hv
    exact hrange node (Array.mem_of_getElem? hnode) e he

/-- What looking through fanins finds: the first that is not done decides. -/
inductive Found (colors : Array Color) : List Nat → Except Nat (Option (Nat × List Nat)) → Prop
  | nothing : Found colors [] (.ok none)
  | fresh {v : Nat} {fanins : List Nat} (hfresh : colors[v]? = some .fresh) :
      Found colors (v :: fanins) (.ok (some (v, fanins)))
  | opened {v : Nat} {fanins : List Nat} (hopened : colors[v]? = some .opened) :
      Found colors (v :: fanins) (.error v)

/-- Looking through fanins that exist takes a turn for each that is done. -/
theorem exists_turns_scan (nodes : Array AigNode) (starts : List Nat) (n : Nat)
    (frames : List Frame) (hfanins : ∀ v ∈ fanins, v < colors.size) :
    ∃ k rest, Turns nodes k ⟨starts, ⟨n, fanins⟩ :: frames, colors⟩
        ⟨starts, ⟨n, rest⟩ :: frames, colors⟩ ∧
      Found colors rest (scan colors fanins) := by
  induction fanins with
  | nil => exact ⟨0, [], .refl _, .nothing⟩
  | cons v fanins ih =>
    unfold scan
    cases hv : colors[v]? with
    | none =>
      rw [Array.getElem?_eq_none_iff] at hv
      exact absurd (hfanins v List.mem_cons_self) (Nat.not_lt.2 hv)
    | some color =>
      cases color with
      | fresh => exact ⟨0, v :: fanins, .refl _, .fresh hv⟩
      | opened => exact ⟨0, v :: fanins, .refl _, .opened hv⟩
      | done =>
        obtain ⟨k, rest, hturns, hfound⟩ := ih fun w hw => hfanins w (List.mem_cons_of_mem v hw)
        exact ⟨k + 1, rest, .head (.skip hv) hturns, hfound⟩

/-- A part of the search takes turns until no node is open any more, or until there is an answer. -/
def Leads (nodes : Array AigNode) (s : State) (starts : List Nat) :
    Except LoadFailure (Array Color) → Prop
  | .ok colors => ∃ k, Turns nodes k s ⟨starts, [], colors⟩
  | .error failure => ∃ k s', Turns nodes k s s' ∧ s'.Answers (.error failure)

theorem Leads.of_turns {r : Except LoadFailure (Array Color)} (h : Turns nodes k s s')
    (hr : Leads nodes s' starts r) : Leads nodes s starts r := by
  cases r with
  | ok colors =>
    obtain ⟨l, hturns⟩ := hr
    exact ⟨l + k, h.trans hturns⟩
  | error failure =>
    obtain ⟨l, s'', hturns, hanswers⟩ := hr
    exact ⟨l + k, s'', h.trans hturns, hanswers⟩

theorem Leads.of_turn {r : Except LoadFailure (Array Color)} (h : Turn nodes s s')
    (hr : Leads nodes s' starts r) : Leads nodes s starts r :=
  .of_turns (.head h (.refl s')) hr

/-- A search below the open nodes needs two steps for each fresh node and one for each frame. -/
theorem explore_leads (hrange : Aig.FaninsExist nodes) {steps : Nat}
    (h : Sound nodes none ⟨starts, frames, colors⟩)
    (hsteps : owed (fun _ => 2) colors + frames.length ≤ steps) :
    Leads nodes ⟨starts, frames, colors⟩ starts (explore nodes steps frames colors) := by
  -- What holds at every turn goes along, for it says that the fanins on the stack exist.
  induction steps generalizing frames colors with
  | zero =>
    obtain rfl : frames = [] := List.eq_nil_of_length_eq_zero (by omega)
    exact ⟨0, .refl _⟩
  | succ steps ih =>
    cases frames with
    | nil => exact ⟨0, .refl _⟩
    | cons frame frames =>
      obtain ⟨n, fanins⟩ := frame
      have hfanins : ∀ v ∈ fanins, v < colors.size := by
        intro v hv
        rw [h.size_eq]
        exact lt_of_mem_faninNodes hrange (h.stacked.1 v (Or.inl hv))
      obtain ⟨k, rest, hturns, hfound⟩ := exists_turns_scan nodes starts n frames hfanins
      have hrest := h.turns hturns
      refine .of_turns hturns ?_
      rw [List.length_cons] at hsteps
      unfold explore
      dsimp only
      generalize scan colors fanins = found at hfound ⊢
      cases hfound with
      | nothing =>
        have howed := owed_close_le (fun _ => 2) colors n
        exact .of_turn .leave (ih (hrest.turn .leave) (by omega))
      | @fresh v fanins hfresh =>
        have howed := owed_open (fun _ => 2) hfresh
        refine .of_turn (.enter hfresh) (ih (hrest.turn (.enter hfresh)) ?_)
        simp only [List.length_cons]
        omega
      | opened hopened => exact ⟨0, _, .refl _, .cycle hopened⟩

theorem exploreFrom_leads (hrange : Aig.FaninsExist nodes) {start : Nat}
    (h : Sound nodes none ⟨start :: starts, [], colors⟩) :
    Leads nodes ⟨start :: starts, [], colors⟩ starts (exploreFrom nodes colors start) := by
  unfold exploreFrom
  by_cases hstart : colors[start]? = some .fresh
  · rw [if_pos hstart]
    have howed := owed_open (fun _ => 2) hstart
    have hle : owed (fun _ => 2) colors ≤ colors.size * 2 := owed_le (fun _ => Nat.le_refl 2) colors
    have hsize : colors.size = nodes.size := h.size_eq
    refine .of_turn (.start hstart) (explore_leads hrange (h.turn (.start hstart)) ?_)
    rw [List.length_singleton]
    omega
  · rw [if_neg hstart]
    exact ⟨1, .head (.pass hstart) (.refl _)⟩

theorem exploreAll_leads (hrange : Aig.FaninsExist nodes)
    (h : Sound nodes none ⟨starts, [], colors⟩) :
    Leads nodes ⟨starts, [], colors⟩ [] (starts.foldlM (exploreFrom nodes) colors) := by
  induction starts generalizing colors with
  | nil => exact ⟨0, .refl _⟩
  | cons start starts ih =>
    rw [List.foldlM_cons]
    have hfirst := exploreFrom_leads hrange h
    cases hresult : exploreFrom nodes colors start with
    | error failure =>
      rw [hresult] at hfirst
      exact hfirst
    | ok colors₁ =>
      rw [hresult] at hfirst
      obtain ⟨k, hturns⟩ := hfirst
      exact .of_turns hturns (ih (h.turns hturns))

/-- The search takes the turns of the loop and answers what the loop answers. -/
theorem exists_turns_requireAcyclic (hrange : Aig.FaninsExist nodes) :
    ∃ k s, Turns nodes k (.start nodes) s ∧ s.Answers (requireAcyclic nodes) := by
  have hleads := exploreAll_leads hrange (Sound.start nodes)
  unfold requireAcyclic
  cases hsearch : (List.range nodes.size).foldlM (exploreFrom nodes)
      (Array.replicate nodes.size Color.fresh) with
  | ok colors =>
    rw [hsearch] at hleads
    obtain ⟨k, hturns⟩ := hleads
    exact ⟨k, _, hturns, .acyclic colors⟩
  | error failure =>
    rw [hsearch] at hleads
    exact hleads

end CycleSearch

/-- Nodes that pass the search have no cycle of gates. -/
theorem acyclic_of_requireAcyclic {nodes : Array AigNode} (hrange : Aig.FaninsExist nodes)
    (h : requireAcyclic nodes = .ok ()) : (Aig.gatesOf nodes).Acyclic := by
  obtain ⟨k, s, hturns, hanswers⟩ := CycleSearch.exists_turns_requireAcyclic hrange
  have hsound := (CycleSearch.Sound.start nodes).turns hturns
  rw [h] at hanswers
  cases hanswers with
  | acyclic colors => exact hsound.acyclic

/-- A search that does not come through reports a gate that lies on a cycle. -/
theorem cycle_of_requireAcyclic {nodes : Array AigNode} {failure : LoadFailure}
    (hrange : Aig.FaninsExist nodes) (h : requireAcyclic nodes = .error failure) :
    ∃ v, failure = .rejected (.cycle v) ∧ Relation.TransGen (Aig.gatesOf nodes).Reads v v := by
  obtain ⟨k, s, hturns, hanswers⟩ := CycleSearch.exists_turns_requireAcyclic hrange
  have hsound := (CycleSearch.Sound.start nodes).turns hturns
  rw [h] at hanswers
  cases hanswers with
  | cycle hopened => exact ⟨_, rfl, hsound.cycle hopened⟩

/-- The search comes through exactly when the gates form no cycle. -/
theorem requireAcyclic_eq_ok_iff {nodes : Array AigNode} (hrange : Aig.FaninsExist nodes) :
    requireAcyclic nodes = .ok () ↔ (Aig.gatesOf nodes).Acyclic := by
  refine ⟨acyclic_of_requireAcyclic hrange, fun hacyclic => ?_⟩
  cases h : requireAcyclic nodes with
  | ok => rfl
  | error failure =>
    obtain ⟨v, -, hcycle⟩ := cycle_of_requireAcyclic hrange h
    exact absurd hcycle (hacyclic v)

/-- The search decides whether gates form a cycle. Take any nodes, in any order, whose fanins all
exist. The loop takes no more than four turns for each node, and wherever it takes none it answers
what the search answers. It answers that all is well exactly when no gate reads itself, directly or
through others, and otherwise reports nothing but a gate that does. -/
theorem requireAcyclic_decides {nodes : Array AigNode} (hrange : Aig.FaninsExist nodes) :
    (∀ k s, CycleSearch.Turns nodes k (.start nodes) s → k ≤ 4 * nodes.size ∧
        ((∃ s', CycleSearch.Turn nodes s s') ∨ s.Answers (requireAcyclic nodes))) ∧
      (requireAcyclic nodes = .ok () ↔ (Aig.gatesOf nodes).Acyclic) ∧
      ∀ failure, requireAcyclic nodes = .error failure →
        ∃ v left right, failure = .rejected (.cycle v) ∧ nodes[v]? = some (.and left right) ∧
          Relation.TransGen (Aig.gatesOf nodes).Reads v v := by
  refine ⟨fun k s hturns => ⟨?_, ?_⟩, requireAcyclic_eq_ok_iff hrange, fun failure h => ?_⟩
  · have hwork := hturns.add_work_le
    have hstart := CycleSearch.work_start_le nodes
    omega
  · obtain ⟨l, t, hturns', hanswers⟩ := CycleSearch.exists_turns_requireAcyclic hrange
    obtain ⟨m, hrest⟩ := hturns.exists_rest hturns' hanswers
    cases hrest with
    | refl => exact Or.inr hanswers
    | head hturn => exact Or.inl ⟨_, hturn⟩
  · obtain ⟨v, rfl, hcycle⟩ := cycle_of_requireAcyclic hrange h
    obtain ⟨w, hread, -⟩ := Relation.TransGen.head'_iff.1 hcycle
    obtain ⟨left, right, hgate⟩ := hread.exists_gate
    exact ⟨v, left, right, rfl, Aig.gatesOf_eq_some_iff.1 hgate, hcycle⟩

/-- Gate 1 reads gate 3 twice, and gates 3 and 4, which come later, read each other. -/
def CycleSearch.knotted : Array AigNode :=
  #[.const, .and ⟨3, false⟩ ⟨3, true⟩, .input 0, .and ⟨2, false⟩ ⟨4, true⟩,
    .and ⟨3, false⟩ ⟨0, false⟩]

/-- The search comes to the cycle from gate 1, which lies on none, and reports gate 3. -/
theorem requireAcyclic_decides_knotted :
    Aig.FaninsExist CycleSearch.knotted ∧
      requireAcyclic CycleSearch.knotted = .error (.rejected (.cycle 3)) ∧
      (∀ k s, CycleSearch.Turns CycleSearch.knotted k (.start CycleSearch.knotted) s → k ≤ 20) ∧
      ¬ (Aig.gatesOf CycleSearch.knotted).Acyclic ∧
      Relation.TransGen (Aig.gatesOf CycleSearch.knotted).Reads 3 3 := by
  have hrange : Aig.FaninsExist CycleSearch.knotted := by
    unfold Aig.FaninsExist
    decide
  have hsearch : requireAcyclic CycleSearch.knotted = .error (.rejected (.cycle 3)) := by decide
  obtain ⟨hruns, hiff, hreports⟩ := requireAcyclic_decides hrange
  obtain ⟨v, left, right, hv, -, hcycle⟩ := hreports _ hsearch
  cases hv
  refine ⟨hrange, hsearch, fun k s hturns => (hruns k s hturns).1, fun hacyclic => ?_, hcycle⟩
  rw [hiff.2 hacyclic] at hsearch
  cases hsearch

example : requireAcyclic #[.and ⟨2, false⟩ ⟨2, true⟩, .const, .and ⟨1, false⟩ ⟨3, true⟩, .latch 0]
    = .ok () := by decide

end FanoutCone
