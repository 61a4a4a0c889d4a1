import FanoutCone.Proofs.Histories
import FanoutCone.Proofs.Queries

/-!
# Traversals

Recursive and iterative operations do the same. A walk passes the same nodes in
another order, which neither the counts nor the marks remember, and a collection
finds the same nodes in the same order. What is made of the two keeps every
congruence of marks and reports the same.

No network is ruled out: where one traversal breaks off, so does the other. The
same lemmas say that the past of the marks has no bearing on a query.
-/
namespace FanoutCone

/-- Stores with the same counts and related marks. -/
structure Stores.Related (K : Marks → Marks → Prop) (s s' : Stores) : Prop where
  counts_eq : s'.counts = s.counts
  marks : K s.marks s'.marks

/-- Results that report the same and leave related stores. -/
structure Matched (K : Marks → Marks → Prop) {α : Type} (r r' : α × Stores) : Prop where
  report_eq : r'.1 = r.1
  stores : r.2.Related K r'.2

section
variable {K : Marks → Marks → Prop} {α : Type} {net : Network} {root : Nat} {s s' : Stores}

theorem Matched.silent (h : s.Related K s') : Matched K ((), s) ((), s') := ⟨rfl, h⟩

theorem Stores.Related.updateCounts (h : s.Related K s')
    {f : FanoutCounts → Except Fault FanoutCounts}
    (hf : Agree (fun c c' => c' = c) (f s.counts) (f s.counts)) :
    Agree (Related K) (s.updateCounts f) (s'.updateCounts f) := by
  have heq : ∀ s : Stores, s.updateCounts f =
      (f s.counts).map fun counts => ⟨counts, s.marks⟩ := by
    intro s
    simp only [Stores.updateCounts]
    cases f s.counts <;> rfl
  rw [heq, heq, h.counts_eq]
  exact hf.map fun c c' hc => ⟨hc, h.marks⟩

/-- A configured walk does the same in every traversal. -/
theorem CountingWalk.run_agree (hK : Marks.Congruence K) (w : CountingWalk) (traversal : Traversal)
    (direction : Direction) (h : s.Related K s') :
    Agree (Matched K) (w.run direction net root s)
      ({ w with traversal := traversal }.run direction net root s') := by
  obtain ⟨counts, marks⟩ := s
  obtain ⟨counts', marks'⟩ := s'
  obtain ⟨hcounts, hmarks⟩ := h
  dsimp only at hcounts hmarks
  subst hcounts
  unfold run
  dsimp only
  rcases walk_agree net w.filter w.traversal traversal direction root counts' with
    ⟨t, t', ht, ht', hperm, hcounts⟩ | ⟨breakdown, breakdown', hb, hb'⟩
  · obtain ⟨passed, counts⟩ := t
    obtain ⟨passed', counts₁⟩ := t'
    dsimp only at hperm hcounts
    subst hcounts
    rw [ht, ht']
    dsimp only
    cases w.label with
    | false => exact .ok ⟨hperm.length_eq, rfl, hmarks⟩
    | true =>
      have hall := hK.markAll hmarks hperm
      simp only [if_true]
      cases hm : marks.markAll passed with
      | ok m =>
        obtain ⟨m', hm', hrelated⟩ := hall.exists_of_ok hm
        rw [hm']
        exact .ok ⟨hperm.length_eq, rfl, hrelated⟩
      | error fault =>
        rw [hm] at hall
        generalize marks'.markAll passed' = x at hall
        cases hall with
        | error hfault hfault' => exact .error hfault hfault'
  · rw [hb, hb']
    exact .error (fault_ne_exhausted_of_walk hb) (fault_ne_exhausted_of_walk hb')

/-- Excursions do the same in every traversal if what is done at the far end does. -/
theorem CountingWalk.excursion_agree (hK : Marks.Congruence K) (out back : CountingWalk)
    (traversal : Traversal) {inside inside' : Stores → Except Fault (α × Stores)}
    (hinside : ∀ s s', s.Related K s' → Agree (Matched K) (inside s) (inside' s'))
    (h : s.Related K s') :
    Agree (Matched K) (excursion out back net root inside s)
      (excursion { out with traversal := traversal } { back with traversal := traversal } net root
        inside' s') := by
  unfold excursion
  refine (run_agree hK out traversal .dereference h).bind ?_
  rintro ⟨died, s₁⟩ ⟨died', s₁'⟩ ⟨rfl, h₁⟩
  refine (hinside _ _ h₁).bind ?_
  rintro ⟨a, s₂⟩ ⟨a', s₂'⟩ ⟨rfl, h₂⟩
  refine (run_agree hK back traversal .reference h₂).bind ?_
  rintro ⟨revived, s₃⟩ ⟨revived', s₃'⟩ ⟨rfl, h₃⟩
  dsimp only
  split
  · exact .ok ⟨rfl, h₃⟩
  · exact .error Fault.noConfusion Fault.noConfusion

theorem collectFrom_agree (hK : Marks.Congruence K) (use : BoundaryUse) (limit : Option Nat)
    (traversal traversal' : Traversal) (h : s.Related K s') :
    Agree (Matched K) (collectFrom use limit traversal net root s)
      (collectFrom use limit traversal' net root s') := by
  have heq : ∀ (traversal : Traversal) (s : Stores),
      collectFrom use limit traversal net root s =
        (Collection.run ⟨net, s.counts, use, limit⟩ traversal root s.marks).map fun r =>
          (r.1, ⟨s.counts, r.2⟩) := by
    intro traversal s
    simp only [collectFrom]
    cases Collection.run ⟨net, s.counts, use, limit⟩ traversal root s.marks <;> rfl
  rw [heq, heq, h.counts_eq]
  exact (hK.collect _ traversal traversal' root h.marks).map fun r r' hr => ⟨hr.1, rfl, hr.2⟩

theorem collectCone_agree (hK : Marks.Congruence K) (limit : Option Nat)
    (traversal traversal' : Traversal) (h : s.Related K s') :
    Agree (Matched K) (collectCone limit traversal net root s)
      (collectCone limit traversal' net root s') := by
  unfold collectCone
  refine (net.isLeaf_agree root).bind fun leaf leaf' hleaf => ?_
  subst hleaf
  cases leaf' with
  | true => exact .ok ⟨rfl, h⟩
  | false => exact collectFrom_agree hK .listed limit traversal traversal' h

theorem sizeByWalk_agree (hK : Marks.Congruence K) (w : CountingWalk) (traversal : Traversal)
    (h : s.Related K s') :
    Agree (Matched K) (sizeByWalk w net root s)
      (sizeByWalk { w with traversal := traversal } net root s') := by
  unfold sizeByWalk
  refine (net.site_agree root).bind fun site site' hsite => ?_
  rw [hsite.1]
  cases site.hasCone with
  | false => exact .ok ⟨rfl, h⟩
  | true =>
    refine (CountingWalk.excursion_agree hK w { w with label := false } traversal
      (fun _ _ h => .ok (.silent h)) h).bind ?_
    rintro ⟨⟨size, a⟩, s₁⟩ ⟨⟨size', a'⟩, s₁'⟩ ⟨heq, h₁⟩
    cases heq
    dsimp only
    split
    · exact .ok ⟨rfl, h₁⟩
    · exact .error Fault.noConfusion Fault.noConfusion

theorem maximumCone_agree (hK : Marks.Congruence K) (settings : ConeSettings)
    (traversal : Traversal) (h : s.Related K s') :
    Agree (Matched K) (maximumCone settings net root s)
      (maximumCone { settings with traversal := traversal } net root s') := by
  unfold maximumCone
  refine (net.site_agree root).bind fun site site' hsite => ?_
  rw [hsite.1]
  cases site.hasCone with
  | false => exact .ok ⟨rfl, h⟩
  | true =>
    have hinside : ∀ s s', Stores.Related K s s' →
        Agree (Matched K) (collectCone settings.cutLimit settings.traversal net root s)
          (collectCone settings.cutLimit traversal net root s') :=
      fun _ _ h => collectCone_agree hK settings.cutLimit settings.traversal traversal h
    refine (CountingWalk.excursion_agree hK settings.walk settings.walk traversal hinside h).bind ?_
    rintro ⟨⟨size, found⟩, s₁⟩ ⟨⟨size', found'⟩, s₁'⟩ ⟨heq, h₁⟩
    cases heq
    exact .ok ⟨rfl, h₁⟩

theorem protectedCone_agree (hK : Marks.Congruence K) (leaves : List Nat)
    (traversal traversal' : Traversal) (h : s.Related K s') :
    Agree (Matched K) (protectedCone leaves traversal net root s)
      (protectedCone leaves traversal' net root s') := by
  unfold protectedCone
  refine (net.isLeaf_agree root).bind fun leaf leaf' hleaf => ?_
  subst hleaf
  cases leaf' with
  | true => exact .ok ⟨rfl, h⟩
  | false =>
    refine (h.updateCounts (s.counts.incrementAll_agree leaves)).bind fun s₁ s₁' h₁ => ?_
    refine (CountingWalk.excursion_agree hK { traversal := traversal } { traversal := traversal }
      traversal' (fun _ _ h => collectFrom_agree hK .listed none traversal traversal' h) h₁).bind ?_
    rintro ⟨⟨size, found⟩, s₂⟩ ⟨⟨size', found'⟩, s₂'⟩ ⟨heq, h₂⟩
    cases heq
    refine (h₂.updateCounts (s₂.counts.decrementAll_agree leaves)).bind fun s₃ s₃' h₃ => ?_
    exact .ok ⟨rfl, h₃⟩

theorem stampCone_agree (hK : Marks.Congruence K) (traversal traversal' : Traversal)
    (h : s.Related K s') :
    Agree (Matched K) (stampCone traversal net root s) (stampCone traversal' net root s') := by
  unfold stampCone
  refine (net.isLeaf_agree root).bind fun leaf leaf' hleaf => ?_
  subst hleaf
  cases leaf' with
  | true => exact .ok ⟨rfl, h⟩
  | false =>
    refine (CountingWalk.excursion_agree hK { traversal := traversal } { traversal := traversal }
      traversal' (fun _ _ h => collectFrom_agree hK .ignored none traversal traversal' h) h).bind ?_
    rintro ⟨⟨size, found⟩, s₁⟩ ⟨⟨size', found'⟩, s₁'⟩ ⟨heq, h₁⟩
    cases heq
    exact .ok ⟨rfl, h₁⟩

end

namespace ConeQuery

/-- The same question in another traversal, if it has one. -/
def withTraversal (traversal : Traversal) : ConeQuery → ConeQuery
  | .size => .size
  | .sizeToInverters => .sizeToInverters
  | .labelled => .labelled
  | .sizeWith settings => .sizeWith { settings with traversal := traversal }
  | .maximum settings => .maximum { settings with traversal := traversal }
  | .protecting leaves _ => .protecting leaves traversal
  | .inner _ => .inner traversal
  | .stamped _ => .stamped traversal

variable {K : Marks → Marks → Prop} {net : Network} {root : Nat} {s s' : Stores}

theorem withTraversal_withTraversal (q : ConeQuery) (traversal traversal' : Traversal) :
    (q.withTraversal traversal).withTraversal traversal' = q.withTraversal traversal' := by
  cases q <;> rfl

theorem exists_withTraversal_eq (q : ConeQuery) : ∃ traversal, q.withTraversal traversal = q := by
  cases q with
  | size | sizeToInverters | labelled => exact ⟨.recursive, rfl⟩
  | sizeWith settings | maximum settings => exact ⟨settings.traversal, rfl⟩
  | protecting leaves traversal | inner traversal | stamped traversal => exact ⟨traversal, rfl⟩

/-- A query answers the same in every traversal and over related stores. -/
theorem run_agree (hK : Marks.Congruence K) (q : ConeQuery) (traversal : Traversal)
    (h : s.Related K s') :
    Agree (Matched K) (q.run net root s) ((q.withTraversal traversal).run net root s') := by
  have hanswer : ∀ {α : Type} {x x' : Except Fault (α × Stores)} (f : α → ConeAnswer),
      Agree (Matched K) x x' → Agree (Matched K) (x.map (Prod.map f id)) (x'.map (Prod.map f id)) :=
    fun f hx => hx.map fun r r' hr => ⟨congrArg f hr.report_eq, hr.stores⟩
  cases q with
  | size => exact hanswer .size (sizeByWalk_agree hK {} .recursive h)
  | sizeToInverters =>
    exact hanswer .size (sizeByWalk_agree hK { filter := .uncomplemented } .recursive h)
  | labelled => exact hanswer .size (sizeByWalk_agree hK { label := true } .recursive h)
  | sizeWith settings => exact hanswer .size (sizeByWalk_agree hK settings.walk traversal h)
  | maximum settings => exact hanswer .cone (maximumCone_agree hK settings traversal h)
  | protecting leaves own => exact hanswer .nodes (protectedCone_agree hK leaves own traversal h)
  | inner own => exact hanswer .nodes (protectedCone_agree hK [] own traversal h)
  | stamped own =>
    exact hanswer (fun r => .stamped r.1 r.2) (stampCone_agree hK own traversal h)

/-- In its own traversal too a query answers the same over related stores. -/
theorem run_agree_self (hK : Marks.Congruence K) (q : ConeQuery) (h : s.Related K s') :
    Agree (Matched K) (q.run net root s) (q.run net root s') := by
  obtain ⟨traversal, htraversal⟩ := q.exists_withTraversal_eq
  have hrun : Agree (Matched K) (q.run net root s) ((q.withTraversal traversal).run net root s') :=
    q.run_agree hK traversal h
  rwa [htraversal] at hrun

end ConeQuery

theorem Matched.eq {α : Type} {r r' : α × Stores} (h : Matched (fun m m' => m' = m) r r') :
    r' = r := by
  obtain ⟨a, counts, marks⟩ := r
  obtain ⟨a', counts', marks'⟩ := r'
  obtain ⟨rfl, rfl, rfl⟩ := h
  rfl

/-- Both traversals do the same on every network, cyclic or with fanins out of range, from every
state of the stores and every root. A walk, a collection or a query in one of them breaks off
exactly when it does in the other, and otherwise returns the same size or lists the same nodes in
the same order, and leaves the same counts, generation and stamps. -/
theorem traversals_agree (net : Network) (root : Nat) (s : Stores) :
    (∀ filter label direction, Agree (fun r r' => r' = r)
      (CountingWalk.run ⟨filter, label, .recursive⟩ direction net root s)
      (CountingWalk.run ⟨filter, label, .iterative⟩ direction net root s)) ∧
    (∀ limit, Agree (fun r r' => r' = r) (collectCone limit .recursive net root s)
      (collectCone limit .iterative net root s)) ∧
    ∀ q : ConeQuery, Agree (fun r r' => r' = r) ((q.withTraversal .recursive).run net root s)
      ((q.withTraversal .iterative).run net root s) := by
  have hsame : s.Related (fun m m' => m' = m) s := ⟨rfl, rfl⟩
  refine ⟨fun filter label direction => ?_, fun limit => ?_, fun q => ?_⟩
  · exact (CountingWalk.run_agree Marks.congruence_eq ⟨filter, label, .recursive⟩ .iterative
      direction hsame).mono fun _ _ => Matched.eq
  · exact (collectCone_agree Marks.congruence_eq limit .recursive .iterative hsame).mono
      fun _ _ => Matched.eq
  · rw [← q.withTraversal_withTraversal .recursive .iterative]
    exact ((q.withTraversal .recursive).run_agree Marks.congruence_eq .iterative hsame).mono
      fun _ _ => Matched.eq

end FanoutCone
