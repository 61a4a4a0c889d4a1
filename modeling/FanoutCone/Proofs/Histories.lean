import FanoutCone.Proofs.Agreement
import FanoutCone.Proofs.Exploration

/-!
# Marks with different pasts

What marks remember is which nodes are marked now. Stamps and generations of the
past play no part, so a collection reports the same over any two stores of marks
of one size, whichever operations have written them. The recursion has depth
enough from wherever it starts, since every node gone below is marked first.

A congruence is a relation between stores of marks that no operation leaves, in
whichever traversals the two sides run. Stores that are equal stay equal, and
stores that are sound and of one size stay so.
-/
namespace FanoutCone

namespace Marks

/-- Stores in which the same nodes are marked. -/
structure Alike (m m' : Marks) : Prop where
  size_eq : m'.size = m.size
  isMarked_eq : ∀ n, m'.isMarked n = m.isMarked n

variable {m m' : Marks}

theorem Alike.isCurrent_agree (h : m.Alike m') (n : Nat) :
    Agree (fun b b' => b' = b ∧ b = m.isMarked n) (m.isCurrent n) (m'.isCurrent n) := by
  have hsize : m'.stamps.size = m.stamps.size := h.size_eq
  by_cases hn : n < m.size
  · have hcurrent : m.isCurrent n = .ok (m.isMarked n) := isCurrent_eq_ok_iff.2 ⟨hn, rfl⟩
    have hcurrent' : m'.isCurrent n = .ok (m.isMarked n) :=
      isCurrent_eq_ok_iff.2 ⟨by rwa [h.size_eq], (h.isMarked_eq n).symm⟩
    rw [hcurrent, hcurrent']
    exact .ok ⟨rfl, rfl⟩
  · have hcurrent : m.isCurrent n = .error (.absentNode n) := by
      have hn' : ¬ n < m.stamps.size := hn
      simp [isCurrent, hn']
    have hcurrent' : m'.isCurrent n = .error (.absentNode n) := by
      have hn' : ¬ n < m'.stamps.size := by rwa [hsize]
      simp [isCurrent, hn']
    rw [hcurrent, hcurrent']
    exact .error Fault.noConfusion Fault.noConfusion

/-- Whether a node can be marked depends on the size of the store only. -/
theorem mark_agree_of_size (h : m'.size = m.size) (n : Nat) :
    Agree (fun m₁ m₁' => m.mark n = .ok m₁ ∧ m'.mark n = .ok m₁') (m.mark n) (m'.mark n) := by
  have hsize : m'.stamps.size = m.stamps.size := h
  by_cases hn : n < m.stamps.size
  · have hmark := mark_eq_ok_iff.2 ⟨hn, rfl⟩
    have hmark' := mark_eq_ok_iff (m := m').2 ⟨by rwa [hsize], rfl⟩
    rw [hmark, hmark']
    exact .ok ⟨rfl, rfl⟩
  · have hmark : m.mark n = .error (.absentNode n) := by
      obtain ⟨generation, stamps⟩ := m
      simp only at hn
      simp [mark, setStamp, hn]
    have hmark' : m'.mark n = .error (.absentNode n) := by
      obtain ⟨generation, stamps⟩ := m'
      simp only at hsize
      simp [mark, setStamp, hsize, hn]
    rw [hmark, hmark']
    exact .error Fault.noConfusion Fault.noConfusion

theorem Alike.mark_agree (h : m.Alike m') (n : Nat) : Agree Alike (m.mark n) (m'.mark n) := by
  refine (mark_agree_of_size h.size_eq n).mono fun m₁ m₁' hmark => ⟨?_, fun v => ?_⟩
  · rw [size_mark hmark.1, size_mark hmark.2, h.size_eq]
  · rw [isMarked_mark hmark.1, isMarked_mark hmark.2, h.isMarked_eq]

theorem markAll_ne_exhausted (m : Marks) (nodes : List Nat) :
    m.markAll nodes ≠ .error .exhausted := by
  have hself : Agree (fun m₁ m₁' => m₁' = m₁) (m.markAll nodes) (m.markAll nodes) := by
    refine .foldlM (fun n m₁ m₁' heq => ?_) nodes rfl
    subst heq
    exact .refl_of_ne (mark_agree_of_size rfl n).ne_exhausted fun _ => rfl
  exact hself.ne_exhausted

/-- Whether nodes can be marked does not depend on their order, nor on anything but the size. -/
theorem markAll_agree_of_size (h : m'.size = m.size) {nodes nodes' : List Nat}
    (hperm : nodes'.Perm nodes) :
    Agree (fun m₁ m₁' => m.markAll nodes = .ok m₁ ∧ m'.markAll nodes' = .ok m₁')
      (m.markAll nodes) (m'.markAll nodes') := by
  by_cases hlt : ∀ n ∈ nodes, n < m.size
  · have hlt' : ∀ n ∈ nodes', n < m'.size := fun n hn => by
      rw [h]
      exact hlt n (hperm.mem_iff.1 hn)
    obtain ⟨m₁, hmark⟩ := exists_markAll hlt
    obtain ⟨m₁', hmark'⟩ := exists_markAll hlt'
    rw [hmark, hmark']
    exact .ok ⟨rfl, rfl⟩
  · cases hmark : m.markAll nodes with
    | ok m₁ => exact absurd (lt_of_markAll hmark) hlt
    | error fault =>
      cases hmark' : m'.markAll nodes' with
      | ok m₁' =>
        refine absurd (fun n hn => ?_) hlt
        rw [← h]
        exact lt_of_markAll hmark' n (hperm.mem_iff.2 hn)
      | error fault' =>
        refine .error (fun hfault => ?_) fun hfault => ?_
        · exact m.markAll_ne_exhausted nodes (by rw [hmark, hfault])
        · exact m'.markAll_ne_exhausted nodes' (by rw [hmark', hfault])

end Marks

namespace Progress

/-- Progress that differs in the pasts of the marks only. -/
structure Alike (p p' : Progress) : Prop where
  marks : p.marks.Alike p'.marks
  expanded_eq : p'.expanded = p.expanded
  cone_eq : p'.cone = p.cone
  support_eq : p'.support = p.support

variable {p p' : Progress}

theorem Alike.emit (h : p.Alike p') (n : Nat) : (p.emit n).Alike (p'.emit n) where
  marks := h.marks
  expanded_eq := h.expanded_eq
  cone_eq := congrArg (n :: ·) h.cone_eq
  support_eq := h.support_eq

theorem Alike.recordSupport_agree (h : p.Alike p') (n : Nat) :
    Agree Alike (p.recordSupport n) (p'.recordSupport n) := by
  have heq : ∀ p : Progress, p.recordSupport n =
      (p.marks.mark n).map fun marks => ⟨marks, p.expanded, p.cone, n :: p.support⟩ := by
    intro p
    simp only [recordSupport]
    cases p.marks.mark n <;> rfl
  rw [heq, heq]
  exact (h.marks.mark_agree n).map fun _ _ hmarks =>
    ⟨hmarks, h.expanded_eq, h.cone_eq, congrArg (n :: ·) h.support_eq⟩

theorem Alike.expand_agree (h : p.Alike p') (n : Nat) :
    Agree Alike (p.expand n) (p'.expand n) := by
  have heq : ∀ p : Progress, p.expand n =
      (p.marks.mark n).map fun marks => ⟨marks, p.expanded + 1, p.cone, p.support⟩ := by
    intro p
    simp only [expand]
    cases p.marks.mark n <;> rfl
  rw [heq, heq]
  exact (h.marks.mark_agree n).map fun _ _ hmarks =>
    ⟨hmarks, congrArg (· + 1) h.expanded_eq, h.cone_eq, h.support_eq⟩

end Progress

namespace Collection

variable {c : Collection} {p p' : Progress} {fanins : List (Option Edge)}

theorem isFull_eq (h : p.Alike p') : c.isFull p' = c.isFull p := by
  simp only [isFull, h.expanded_eq]

theorem isBoundary_agree (c : Collection) (atRoot : Bool) (n : Nat) :
    Agree (fun b b' => b' = b) (c.isBoundary atRoot n) (c.isBoundary atRoot n) := by
  unfold isBoundary
  cases atRoot with
  | true => exact .ok rfl
  | false =>
    refine (c.net.isLeaf_agree n).bind fun leaf leaf' heq => ?_
    subst heq
    cases leaf' with
    | true => exact .ok rfl
    | false =>
      refine (c.counts.count_agree n).bind fun k k' heq => ?_
      rw [heq]
      exact .ok rfl

theorem classify_agree (h : p.Alike p') (atRoot : Bool) (n : Nat) :
    Agree (fun b b' => b' = b) (c.classify atRoot n p) (c.classify atRoot n p') := by
  unfold classify
  refine (h.marks.isCurrent_agree n).bind fun seen seen' heq => ?_
  rw [heq.1]
  cases seen with
  | true => exact .ok rfl
  | false =>
    refine (c.isBoundary_agree atRoot n).bind fun boundary boundary' heq => ?_
    rw [heq, isFull_eq h]
    cases boundary <;> cases c.isFull p <;> exact .ok rfl

/-- What becomes of node `n` as what it was found to be. -/
def meetAs (c : Collection) (n : Nat) (p : Progress) : Meeting → Except Fault (Bool × Progress)
  | .seen | .cut => .ok (false, p)
  | .boundary =>
    match c.boundaryUse with
    | .listed => (p.recordSupport n).map (Prod.mk false)
    | .ignored => .ok (false, p)
  | .cone => (p.expand n).map (Prod.mk true)

theorem meet_eq (c : Collection) (atRoot : Bool) (n : Nat) (p : Progress) :
    c.meet atRoot n p = (c.classify atRoot n p >>= c.meetAs n p) := by
  unfold meet
  cases c.classify atRoot n p with
  | error fault => rfl
  | ok meeting => cases meeting <;> rfl

/-- A node is met in the same way, and a node to be gone below is one that was not marked. -/
theorem meet_agree (h : p.Alike p') (atRoot : Bool) (n : Nat) :
    Agree (fun r r' => r'.1 = r.1 ∧ r.2.Alike r'.2 ∧
      r.2.marks.unmarked + r.1.toNat ≤ p.marks.unmarked)
      (c.meet atRoot n p) (c.meet atRoot n p') := by
  suffices hmet : Agree (fun r r' => r'.1 = r.1 ∧ r.2.Alike r'.2)
      (c.meet atRoot n p) (c.meet atRoot n p') from
    hmet.refine fun r r' hr _ hrr' => ⟨hrr'.1, hrr'.2, (meet_eq_ok hr).unmarked_le⟩
  rw [meet_eq, meet_eq]
  refine (classify_agree h atRoot n).bind fun meeting meeting' hmeeting => ?_
  rw [hmeeting]
  cases meeting with
  | seen | cut => exact .ok ⟨rfl, h⟩
  | boundary =>
    unfold meetAs
    cases c.boundaryUse with
    | listed => exact (h.recordSupport_agree n).map fun _ _ halike => ⟨rfl, halike⟩
    | ignored => exact .ok ⟨rfl, h⟩
  | cone => exact (h.expand_agree n).map fun _ _ halike => ⟨rfl, halike⟩

theorem visitEach_cons (visit : Nat → Progress → Except Fault Progress) (e : Edge)
    (fanins : List (Option Edge)) (p : Progress) :
    visitEach visit (some e :: fanins) p =
      (visit e.node p >>= fun p₁ => visitEach visit fanins p₁) := by
  simp only [visitEach, resolveFanin]
  cases visit e.node p <;> rfl

theorem visit_succ (c : Collection) (depth : Nat) (atRoot : Bool) (n : Nat) (p : Progress) :
    c.visit (depth + 1) atRoot n p = (c.meet atRoot n p >>= fun r =>
      if r.1 then c.net.site n >>= fun site =>
        (visitEach (c.visit depth false) site.fanins r.2).map (·.emit n)
      else .ok r.2) := by
  simp only [visit]
  cases c.meet atRoot n p with
  | error fault => rfl
  | ok met =>
    obtain ⟨below, p₁⟩ := met
    cases below with
    | false => rfl
    | true =>
      cases c.net.site n with
      | error fault => rfl
      | ok site =>
        simp only [ok_bind, if_true]
        cases visitEach (c.visit depth false) site.fanins p₁ <;> rfl

/-- A node is explored alike where the fanins below it are. -/
theorem visit_agree {depth : Nat}
    (hbelow : ∀ {fanins p p'}, p.marks.unmarked < depth → p.Alike p' →
      Agree (fun q q' => q.Alike q' ∧ q.marks.unmarked ≤ p.marks.unmarked)
        (visitEach (c.visit depth false) fanins p) (visitEach (c.visit depth false) fanins p'))
    (hdepth : p.marks.unmarked ≤ depth) (h : p.Alike p') (atRoot : Bool) (n : Nat) :
    Agree (fun q q' => q.Alike q' ∧ q.marks.unmarked ≤ p.marks.unmarked)
      (c.visit (depth + 1) atRoot n p) (c.visit (depth + 1) atRoot n p') := by
  rw [visit_succ, visit_succ]
  refine (meet_agree h atRoot n).bind ?_
  rintro ⟨below, q⟩ ⟨below', q'⟩ ⟨rfl, hq, hless⟩
  cases below' with
  | false => exact .ok ⟨hq, hless⟩
  | true =>
    dsimp only [Bool.toNat_true] at hless
    refine (c.net.site_agree n).bind fun site site' hsite => ?_
    rw [hsite.1]
    exact (hbelow (p := q) (by omega) hq).map fun r r' hr =>
      ⟨hr.1.emit n, by rw [marks_emit]; omega⟩

/-- The same fanins are explored alike, and the depth does for them. -/
theorem visitEach_agree {depth : Nat} (hdepth : p.marks.unmarked < depth) (h : p.Alike p') :
    Agree (fun q q' => q.Alike q' ∧ q.marks.unmarked ≤ p.marks.unmarked)
      (visitEach (c.visit depth false) fanins p) (visitEach (c.visit depth false) fanins p') := by
  induction depth generalizing fanins p p' with
  | zero => omega
  | succ depth ihdepth =>
    induction fanins generalizing p p' with
    | nil => exact .ok ⟨h, Nat.le_refl _⟩
    | cons fanin fanins ih =>
      cases fanin with
      | none => exact .error Fault.noConfusion Fault.noConfusion
      | some e =>
        rw [visitEach_cons, visitEach_cons]
        refine (visit_agree ihdepth (by omega) h false e.node).bind fun q q' hq => ?_
        exact (ih (by omega) hq.1).mono fun r r' hr => ⟨hr.1, by omega⟩

/-- From starts with the same nodes marked, both traversals find the same and leave the same nodes
marked. -/
theorem run_agree {marks marks' : Marks} (h : marks.advance.Alike marks'.advance)
    (traversal traversal' : Traversal) (root : Nat) :
    Agree (fun r r' => r'.1 = r.1) (c.run traversal root marks) (c.run traversal' root marks') := by
  have hstart : Progress.Alike ⟨marks.advance, 0, [], []⟩ ⟨marks'.advance, 0, [], []⟩ :=
    ⟨h, rfl, rfl, rfl⟩
  have hvisit :=
    visit_agree (c := c) visitEach_agree marks.advance.unmarked_le_size hstart true root
  rw [run_eq_recursive, c.run_eq_recursive traversal' root marks']
  have heq : ∀ marks, c.run .recursive root marks =
      (c.visit (marks.advance.size + 1) true root ⟨marks.advance, 0, [], []⟩).map fun p =>
        (⟨p.cone.reverse, p.support.reverse⟩, p.marks) := by
    intro marks
    unfold run
    dsimp only
    cases c.visit (marks.advance.size + 1) true root ⟨marks.advance, 0, [], []⟩ <;> rfl
  rw [heq, heq, h.size_eq]
  exact hvisit.map fun q q' hq => by rw [hq.1.cone_eq, hq.1.support_eq]

end Collection

namespace Marks

variable {m m' : Marks}

/-- A relation between stores of marks that no walk and no collection leaves, whatever its
traversal. -/
structure Congruence (K : Marks → Marks → Prop) : Prop where
  markAll : ∀ {m m' nodes nodes'}, K m m' → nodes'.Perm nodes →
    Agree K (m.markAll nodes) (m'.markAll nodes')
  collect : ∀ (c : Collection) (traversal traversal' : Traversal) (root : Nat) {m m'}, K m m' →
    Agree (fun r r' => r'.1 = r.1 ∧ K r.2 r'.2) (c.run traversal root m) (c.run traversal' root m')

/-- Both traversals leave the very same marks. -/
theorem congruence_eq : Congruence (fun m m' => m' = m) where
  markAll {m m' nodes nodes'} heq hperm := by
    subst heq
    refine (markAll_agree_of_size rfl hperm).mono fun m₁ m₁' hmark => ?_
    exact Except.ok.inj (hmark.2.symm.trans (markAll_perm hperm.symm hmark.1))
  collect c traversal traversal' root {m m'} heq := by
    subst heq
    have halike : m'.advance.Alike m'.advance := ⟨rfl, fun _ => rfl⟩
    refine (Collection.run_agree halike traversal traversal' root).refine ?_
    intro r r' hr hr' _
    have hsame : c.run traversal root m' = c.run traversal' root m' :=
      (c.run_eq_recursive traversal root m').trans (c.run_eq_recursive traversal' root m').symm
    rw [hr, hr'] at hsame
    cases hsame
    exact ⟨rfl, rfl⟩

/-- Sound stores of one size, whatever their pasts. -/
structure Peers (m m' : Marks) : Prop where
  size_eq : m'.size = m.size
  left : m.Bounded
  right : m'.Bounded

theorem Peers.advance (h : m.Peers m') : m.advance.Alike m'.advance where
  size_eq := by rw [size_advance, size_advance, h.size_eq]
  isMarked_eq n := by rw [isMarked_advance h.left, isMarked_advance h.right]

theorem Peers.evolve {m₁ m₁' : Marks} (h : m.Peers m') (h₁ : m.Evolves m₁)
    (h₁' : m'.Evolves m₁') : m₁.Peers m₁' where
  size_eq := by rw [h₁.size_eq, h₁'.size_eq, h.size_eq]
  left := h₁.bounded h.left
  right := h₁'.bounded h.right

/-- Stores with different pasts stay sound, and the same is found over them. -/
theorem congruence_peers : Congruence Peers where
  markAll h hperm := (markAll_agree_of_size h.size_eq hperm).mono fun _ _ hmark =>
    h.evolve (evolves_markAll hmark.1) (evolves_markAll hmark.2)
  collect c traversal traversal' root {m m'} h := by
    refine (Collection.run_agree h.advance traversal traversal' root).refine ?_
    intro r r' hr hr' hfound
    obtain ⟨p, hcollects, -, hmarks⟩ := Collection.run_eq_ok hr
    obtain ⟨p', hcollects', -, hmarks'⟩ := Collection.run_eq_ok hr'
    rw [hmarks, hmarks']
    exact ⟨hfound, h.evolve hcollects.evolves hcollects'.evolves⟩

end Marks

end FanoutCone
