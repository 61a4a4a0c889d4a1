import FanoutCone.Proofs.Traversals

/-!
# Past queries

A collection begins a generation of its own, in which no node is marked, and a
walk only writes marks. So what is asked of a network is answered from its
structure and its counts alone. Which stamps earlier queries have left, which
nodes they labelled and whether the generation starts again at one on the way
makes no difference.

This is a statement about two runs. They begin with the same counts and with
marks of the same size that are sound, and are otherwise unrelated; whatever is
asked in both, in any order, they answer alike or break off together.
-/
namespace FanoutCone

/-- Asks about one root after another, each time with a query of its own. Returns the answers in
order. -/
def askAll (net : Network) :
    (asked : List (Nat × ConeQuery)) → Stores → Except Fault (List ConeAnswer × Stores)
  | [], s => .ok ([], s)
  | (root, q) :: asked, s => do
    let (a, s) ← q.run net root s
    let (answers, s) ← askAll net asked s
    return (a :: answers, s)

variable {net : Network} {root : Nat} {s s' : Stores} {asked : List (Nat × ConeQuery)}

/-- Runs of queries agree when they begin with related stores: each query leaves the stores of the
next related. -/
theorem askAll_agree {K : Marks → Marks → Prop} (hK : Marks.Congruence K) (h : s.Related K s') :
    Agree (Matched K) (askAll net asked s) (askAll net asked s') := by
  induction asked generalizing s s' with
  | nil => exact .ok ⟨rfl, h⟩
  | cons ask asked ih =>
    obtain ⟨root, q⟩ := ask
    refine (q.run_agree_self hK h).bind ?_
    rintro ⟨a, s₁⟩ ⟨a', s₁'⟩ ⟨rfl, h₁⟩
    refine (ih h₁).bind ?_
    rintro ⟨answers, s₂⟩ ⟨answers', s₂'⟩ ⟨rfl, h₂⟩
    exact .ok ⟨rfl, h₂⟩

theorem Stores.Kept.related (h : s.Kept s') (hbounded : s.marks.Bounded) :
    s.Related Marks.Peers s' :=
  ⟨h.counts_eq, h.evolves.size_eq, hbounded, h.evolves.bounded hbounded⟩

/-- A collection keeps the stores. -/
theorem collectCone_kept {limit : Option Nat} {traversal : Traversal} {found : Cone}
    (h : collectCone limit traversal net root s = .ok (found, s')) : s.Kept s' := by
  obtain ⟨leaf, -, h⟩ := bind_eq_ok_iff.1 h
  cases leaf with
  | true =>
    cases h
    exact .refl s
  | false => exact collectFrom_kept h

/-- What was asked before makes no difference. In states of a network with the same counts and
marks of one size, of which nothing is known but that no stamp exceeds its generation, every
collection and every query gives the same answer or breaks off in both, and so does every run of
queries, also when the generation starts again at one. A collection that is repeated finds the same
cone and the same support. -/
theorem answers_independent_of_past {net : Network} {s s' : Stores} (hcounts : s'.counts = s.counts)
    (hpeers : s.marks.Peers s'.marks) :
    (∀ root limit traversal, Agree (fun r r' => r'.1 = r.1) (collectCone limit traversal net root s)
      (collectCone limit traversal net root s')) ∧
    (∀ root (q : ConeQuery), Agree (fun r r' => r'.1 = r.1) (q.run net root s)
      (q.run net root s')) ∧
    (∀ asked, Agree (fun r r' => r'.1 = r.1) (askAll net asked s) (askAll net asked s')) ∧
    ∀ root limit traversal found s₁, collectCone limit traversal net root s = .ok (found, s₁) →
      ∃ s₂, collectCone limit traversal net root s₁ = .ok (found, s₂) := by
  have hrelated : s.Related Marks.Peers s' := ⟨hcounts, hpeers⟩
  refine ⟨fun root limit traversal => ?_, fun root q => ?_, fun asked => ?_,
    fun root limit traversal found s₁ hfound => ?_⟩
  · exact (collectCone_agree Marks.congruence_peers limit traversal traversal hrelated).mono
      fun _ _ => Matched.report_eq
  · exact (q.run_agree_self Marks.congruence_peers hrelated).mono fun _ _ => Matched.report_eq
  · exact (askAll_agree Marks.congruence_peers hrelated).mono fun _ _ => Matched.report_eq
  · have hagain : Agree (Matched Marks.Peers) (collectCone limit traversal net root s)
        (collectCone limit traversal net root s₁) :=
      collectCone_agree Marks.congruence_peers limit traversal traversal
        ((collectCone_kept hfound).related hpeers.left)
    obtain ⟨⟨found', s₂⟩, hsecond, hmatched⟩ := hagain.exists_of_ok hfound
    obtain rfl : found' = found := hmatched.report_eq
    exact ⟨s₂, hsecond⟩

/-- Every node is marked, in the last generation there is. -/
def worn : Marks := ⟨Marks.maxGeneration, Array.replicate 3 Marks.maxGeneration⟩

/-- A collection over these marks has to start again at one, and finds what it finds over fresh
ones. -/
theorem answers_independent_of_past_worn :
    ∃ s, (ConeQuery.maximum {}).run (FaninTable.networkOf ConeQuery.feedback.rows) 0
      ⟨ConeQuery.feedback.stores.counts, worn⟩ = .ok (.cone ⟨[1, 0], [2]⟩, s) := by
  have hcounts : (⟨ConeQuery.feedback.stores.counts, worn⟩ : Stores).counts =
      ConeQuery.feedback.stores.counts := rfl
  have hpeers : ConeQuery.feedback.stores.marks.Peers worn := by
    refine ⟨rfl, Marks.bounded_empty.grow 3, fun stamp hstamp => ?_⟩
    exact (Array.eq_of_mem_replicate hstamp).le
  have hfresh : (ConeQuery.maximum {}).run (FaninTable.networkOf ConeQuery.feedback.rows) 0
      ConeQuery.feedback.stores = .ok (.cone ⟨[1, 0], [2]⟩,
        ⟨ConeQuery.feedback.stores.counts, ⟨2, #[2, 2, 2]⟩⟩) := by rfl
  obtain ⟨-, hqueries, -⟩ := answers_independent_of_past hcounts hpeers
  obtain ⟨⟨a, s⟩, hrun, hsame⟩ := (hqueries 0 (.maximum {})).exists_of_ok hfresh
  obtain rfl : a = .cone ⟨[1, 0], [2]⟩ := hsame
  exact ⟨s, hrun⟩

end FanoutCone
