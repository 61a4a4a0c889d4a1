import FanoutCone.Collection
import FanoutCone.Proofs.Generations
import FanoutCone.Proofs.Result
import FanoutCone.Proofs.Shape

/-!
# Explorations

What a collection does below a node does not depend on how it keeps track of the
nodes it still has to look at. `Explores` says what it does with a list of
fanins, without steps or depths. Both traversals explore in the same order and
break off at the same places, so they give the same result, whatever network
they run on.

Every node gone below is marked first, and that bounds the depth of a recursive
collection and the steps of an iterative one. In a closed network none of them
fails.
-/
namespace FanoutCone.Collection

def Boundary (c : Collection) (n : Nat) : Prop :=
  (∃ site, c.net.site? n = some site ∧ site.kind = .leaf) ∨ 0 < c.counts.parents n

def Dead (c : Collection) (n : Nat) : Prop := c.net.Internal n ∧ c.counts.parents n = 0

/-- The ways of meeting a node, each with whether it is to be gone below and the progress made. -/
inductive Met (c : Collection) (atRoot : Bool) (n : Nat) (p : Progress) : Bool → Progress → Prop
  | seen (hmarked : p.marks.isMarked n = true) : Met c atRoot n p false p
  | listed {p' : Progress} (hfresh : p.marks.isMarked n = false) (hroot : atRoot = false)
      (hboundary : c.Boundary n) (huse : c.boundaryUse = .listed)
      (hrecord : p.recordSupport n = .ok p') : Met c atRoot n p false p'
  | ignored (hfresh : p.marks.isMarked n = false) (hroot : atRoot = false)
      (hboundary : c.Boundary n) (huse : c.boundaryUse = .ignored) : Met c atRoot n p false p
  | cut (hfresh : p.marks.isMarked n = false) (hdead : atRoot = true ∨ c.Dead n)
      (hfull : c.isFull p = true) : Met c atRoot n p false p
  | cone {p' : Progress} (hfresh : p.marks.isMarked n = false) (hdead : atRoot = true ∨ c.Dead n)
      (hroom : c.isFull p = false) (hexpand : p.expand n = .ok p') : Met c atRoot n p true p'

/-- What a collection does with fanin edges, one after another, and below them. -/
inductive Explores (c : Collection) : List (Option Edge) → Progress → Progress → Prop
  | done (p : Progress) : Explores c [] p p
  | pass {e : Edge} {fanins : List (Option Edge)} {p p₁ p₂ : Progress}
      (hmet : c.Met false e.node p false p₁) (hrest : Explores c fanins p₁ p₂) :
      Explores c (some e :: fanins) p p₂
  | expand {e : Edge} {site : Site} {fanins : List (Option Edge)} {p p₁ p₂ p₃ : Progress}
      (hmet : c.Met false e.node p true p₁) (hsite : c.net.site? e.node = some site)
      (hbelow : Explores c site.fanins p₁ p₂) (hrest : Explores c fanins (p₂.emit e.node) p₃) :
      Explores c (some e :: fanins) p p₃

variable {c : Collection} {atRoot b : Bool} {n : Nat} {p p' : Progress}
variable {fanins : List (Option Edge)}

theorem isLeaf_eq_ok {leaf : Bool} (h : c.net.isLeaf n = .ok leaf) :
    ∃ site, c.net.site? n = some site ∧ leaf = (site.kind == .leaf) := by
  obtain ⟨site, hsite, rfl⟩ := map_eq_ok_iff.1 h
  exact ⟨site, Network.site_eq_ok hsite, rfl⟩

theorem isBoundary_eq_ok {isBoundary : Bool} (h : c.isBoundary atRoot n = .ok isBoundary) :
    (isBoundary = true ∧ atRoot = false ∧ c.Boundary n) ∨
      (isBoundary = false ∧ (atRoot = true ∨ c.Dead n)) := by
  unfold Collection.isBoundary at h
  cases atRoot with
  | true =>
    rw [if_pos rfl, Except.ok.injEq] at h
    exact Or.inr ⟨h.symm, Or.inl rfl⟩
  | false =>
    rw [if_neg Bool.false_ne_true] at h
    obtain ⟨leaf, hleaf, h⟩ := bind_eq_ok_iff.1 h
    obtain ⟨site, hsite, rfl⟩ := isLeaf_eq_ok hleaf
    cases hkind : site.kind with
    | leaf =>
      simp only [hkind, beq_self_eq_true, if_true, Except.ok.injEq] at h
      exact Or.inl ⟨h.symm, rfl, Or.inl ⟨site, hsite, hkind⟩⟩
    | internal =>
      rw [hkind, if_neg (by decide)] at h
      obtain ⟨parents, hcount, h⟩ := bind_eq_ok_iff.1 h
      obtain rfl := FanoutCounts.count_eq_ok hcount
      cases hparents : c.counts.parents n with
      | zero =>
        simp only [hparents, Except.ok.injEq] at h
        exact Or.inr ⟨h.symm, Or.inr ⟨⟨site, hsite, hkind⟩, hparents⟩⟩
      | succ k =>
        simp only [hparents, Except.ok.injEq] at h
        exact Or.inl ⟨h.symm, rfl, Or.inr (by omega)⟩

theorem meet_eq_ok (h : c.meet atRoot n p = .ok (b, p')) : c.Met atRoot n p b p' := by
  unfold meet at h
  cases hclass : c.classify atRoot n p with
  | error fault => simp [hclass] at h
  | ok meeting =>
    rw [hclass] at h
    unfold classify at hclass
    obtain ⟨marked, hmarked, hclass⟩ := bind_eq_ok_iff.1 hclass
    obtain ⟨-, rfl⟩ := Marks.isCurrent_eq_ok_iff.1 hmarked
    cases hseen : p.marks.isMarked n with
    | true =>
      rw [hseen, if_pos rfl, Except.ok.injEq] at hclass
      subst hclass
      simp only [Except.ok.injEq, Prod.mk.injEq] at h
      obtain ⟨rfl, rfl⟩ := h
      exact .seen hseen
    | false =>
      rw [hseen, if_neg Bool.false_ne_true] at hclass
      obtain ⟨isBoundary, hboundary, hclass⟩ := bind_eq_ok_iff.1 hclass
      rcases isBoundary_eq_ok hboundary with ⟨rfl, hroot, hb⟩ | ⟨rfl, hdead⟩
      · rw [if_pos rfl, Except.ok.injEq] at hclass
        subst hclass
        dsimp only at h
        cases huse : c.boundaryUse with
        | listed =>
          rw [huse] at h
          obtain ⟨p₁, hrecord, heq⟩ := map_eq_ok_iff.1 h
          cases heq
          exact .listed hseen hroot hb huse hrecord
        | ignored =>
          simp only [huse, Except.ok.injEq, Prod.mk.injEq] at h
          obtain ⟨rfl, rfl⟩ := h
          exact .ignored hseen hroot hb huse
      · rw [if_neg Bool.false_ne_true] at hclass
        cases hfull : c.isFull p with
        | true =>
          rw [hfull, if_pos rfl, Except.ok.injEq] at hclass
          subst hclass
          simp only [Except.ok.injEq, Prod.mk.injEq] at h
          obtain ⟨rfl, rfl⟩ := h
          exact .cut hseen hdead hfull
        | false =>
          rw [hfull, if_neg Bool.false_ne_true, Except.ok.injEq] at hclass
          subst hclass
          obtain ⟨p₁, hexpand, heq⟩ := map_eq_ok_iff.1 h
          cases heq
          exact .cone hseen hdead hfull hexpand

theorem recordSupport_eq_ok (h : p.recordSupport n = .ok p') :
    ∃ marks, p.marks.mark n = .ok marks ∧ p' = ⟨marks, p.expanded, p.cone, n :: p.support⟩ := by
  obtain ⟨marks, expanded, cone, support⟩ := p
  unfold Progress.recordSupport at h
  dsimp only at h
  cases hmark : marks.mark n with
  | error fault => simp [hmark] at h
  | ok marks' =>
    rw [hmark, Except.ok.injEq] at h
    exact ⟨marks', rfl, h.symm⟩

theorem expand_eq_ok (h : p.expand n = .ok p') :
    ∃ marks, p.marks.mark n = .ok marks ∧ p' = ⟨marks, p.expanded + 1, p.cone, p.support⟩ := by
  obtain ⟨marks, expanded, cone, support⟩ := p
  unfold Progress.expand at h
  dsimp only at h
  cases hmark : marks.mark n with
  | error fault => simp [hmark] at h
  | ok marks' =>
    rw [hmark, Except.ok.injEq] at h
    exact ⟨marks', rfl, h.symm⟩

/-- Going below a node takes it from the unmarked ones, and no other meeting gives one back. -/
theorem Met.unmarked_le (h : c.Met atRoot n p b p') :
    p'.marks.unmarked + b.toNat ≤ p.marks.unmarked := by
  cases h with
  | seen => exact Nat.le_refl _
  | listed hfresh hroot hboundary huse hrecord =>
    obtain ⟨marks, hmark, rfl⟩ := recordSupport_eq_ok hrecord
    have hless := Marks.unmarked_mark hmark hfresh
    dsimp only [Bool.toNat_false]
    omega
  | ignored => exact Nat.le_refl _
  | cut => exact Nat.le_refl _
  | cone hfresh hdead hroom hexpand =>
    obtain ⟨marks, hmark, rfl⟩ := expand_eq_ok hexpand
    have hless := Marks.unmarked_mark hmark hfresh
    dsimp only [Bool.toNat_true]
    omega

/-- Only a node that has been gone below joins the cone. -/
theorem Met.cone_eq (h : c.Met atRoot n p b p') : p'.cone = p.cone := by
  cases h with
  | seen | ignored | cut => rfl
  | listed _ _ _ _ hrecord =>
    obtain ⟨marks, -, rfl⟩ := recordSupport_eq_ok hrecord
    rfl
  | cone _ _ _ hexpand =>
    obtain ⟨marks, -, rfl⟩ := expand_eq_ok hexpand
    rfl

theorem Met.expanded_eq (h : c.Met atRoot n p b p') : p'.expanded = p.expanded + b.toNat := by
  cases h with
  | seen | ignored | cut => rfl
  | listed _ _ _ _ hrecord =>
    obtain ⟨marks, -, rfl⟩ := recordSupport_eq_ok hrecord
    rfl
  | cone _ _ _ hexpand =>
    obtain ⟨marks, -, rfl⟩ := expand_eq_ok hexpand
    rfl

@[simp] theorem marks_emit (p : Progress) (n : Nat) : (p.emit n).marks = p.marks := rfl

theorem Explores.unmarked_le (h : c.Explores fanins p p') :
    p'.marks.unmarked ≤ p.marks.unmarked := by
  induction h with
  | done p => exact Nat.le_refl _
  | pass hmet hrest ih => exact ih.trans hmet.unmarked_le
  | @expand e site fanins p p₁ p₂ p₃ hmet hsite hbelow hrest ihbelow ihrest =>
    have hless := hmet.unmarked_le
    rw [marks_emit] at ihrest
    omega

/-- What visiting fanins by the recursive collection does is an exploration. -/
theorem explores_of_visitEach {depth : Nat}
    (h : visitEach (c.visit depth false) fanins p = .ok p') : c.Explores fanins p p' := by
  induction depth generalizing fanins p p' with
  | zero =>
    cases fanins with
    | nil =>
      obtain rfl : p = p' := by simpa [visitEach] using h
      exact .done p
    | cons fanin fanins => cases fanin <;> simp [visitEach, resolveFanin, visit] at h
  | succ depth ihdepth =>
    induction fanins generalizing p with
    | nil =>
      obtain rfl : p = p' := by simpa [visitEach] using h
      exact .done p
    | cons fanin fanins ih =>
      cases fanin with
      | none => simp [visitEach, resolveFanin] at h
      | some e =>
        simp only [visitEach, resolveFanin, visit] at h
        cases hmeet : c.meet false e.node p with
        | error fault => simp [hmeet] at h
        | ok met =>
          obtain ⟨below, p₁⟩ := met
          rw [hmeet] at h
          cases below with
          | false => exact .pass (meet_eq_ok hmeet) (ih h)
          | true =>
            dsimp only at h
            cases hsite : c.net.site e.node with
            | error fault => simp [hsite] at h
            | ok site =>
              rw [hsite] at h
              dsimp only at h
              cases hbelow : visitEach (c.visit depth false) site.fanins p₁ with
              | error fault => simp [hbelow] at h
              | ok p₂ =>
                rw [hbelow] at h
                exact .expand (meet_eq_ok hmeet) (Network.site_eq_ok hsite) (ihdepth hbelow) (ih h)

/-- An iterative collection does with the newest frame what the recursive one does below its node,
and goes on with the frames under it. The steps that it has left are enough for them. -/
theorem unwind_cons (n : Nat) (fanins : List (Option Edge)) {depth steps : Nat}
    {frames : List Frame} {p : Progress} (hdepth : p.marks.unmarked < depth)
    (hsteps : 2 * p.marks.unmarked + frames.length < steps) :
    ∃ left, (∀ p', visitEach (c.visit depth false) fanins p = .ok p' →
        2 * p'.marks.unmarked + frames.length ≤ left) ∧
      c.unwind steps (⟨n, fanins⟩ :: frames) p =
        (visitEach (c.visit depth false) fanins p >>= fun p' =>
          c.unwind left frames (p'.emit n)) := by
  induction depth generalizing n fanins frames p steps with
  | zero => omega
  | succ depth ihdepth =>
    induction fanins generalizing p steps with
    | nil =>
      obtain ⟨left, rfl⟩ : ∃ left, steps = left + 1 := ⟨steps - 1, by omega⟩
      refine ⟨left, fun p' hp' => ?_, by simp [unwind, scan, visitEach]⟩
      obtain rfl : p = p' := by simpa [visitEach] using hp'
      omega
    | cons fanin fanins ih =>
      obtain ⟨steps, rfl⟩ : ∃ left, steps = left + 1 := ⟨steps - 1, by omega⟩
      cases fanin with
      | none =>
        refine ⟨0, fun p' hp' => ?_, by simp [unwind, scan, visitEach, resolveFanin]⟩
        simp [visitEach, resolveFanin] at hp'
      | some e =>
        cases hmeet : c.meet false e.node p with
        | error fault =>
          refine ⟨0, fun p' hp' => ?_, ?_⟩
          · simp [visitEach, resolveFanin, visit, hmeet] at hp'
          · simp [unwind, scan, visitEach, resolveFanin, visit, hmeet]
        | ok met =>
          obtain ⟨below, p₁⟩ := met
          have hless := (meet_eq_ok hmeet).unmarked_le
          cases below with
          | false =>
            rw [Bool.toNat_false, Nat.add_zero] at hless
            have hsteps' : 2 * p₁.marks.unmarked + frames.length < steps + 1 := by omega
            obtain ⟨left, hleft, heq⟩ := ih (by omega) hsteps'
            refine ⟨left, fun p' hp' => hleft p' ?_, ?_⟩
            · simpa [visitEach, resolveFanin, visit, hmeet] using hp'
            · simpa [unwind, scan, visitEach, resolveFanin, visit, hmeet] using heq
          | true =>
            rw [Bool.toNat_true] at hless
            cases hsite : c.net.site e.node with
            | error fault =>
              refine ⟨0, fun p' hp' => ?_, ?_⟩
              · simp [visitEach, resolveFanin, visit, hmeet, hsite] at hp'
              · simp [unwind, scan, visitEach, resolveFanin, visit, hmeet, hsite]
            | ok site =>
              have hsteps' : 2 * p₁.marks.unmarked + (⟨n, fanins⟩ :: frames : List Frame).length <
                  steps := by
                rw [List.length_cons]
                omega
              obtain ⟨left₁, hleft₁, heq₁⟩ := ihdepth e.node site.fanins (by omega) hsteps'
              cases hbelow : visitEach (c.visit depth false) site.fanins p₁ with
              | error fault =>
                rw [hbelow, error_bind] at heq₁
                refine ⟨0, fun p' hp' => ?_, ?_⟩
                · simp [visitEach, resolveFanin, visit, hmeet, hsite, hbelow] at hp'
                · simpa [unwind, scan, visitEach, resolveFanin, visit, hmeet, hsite, hbelow]
                    using heq₁
              | ok p₂ =>
                rw [hbelow, ok_bind] at heq₁
                have hleft₂ := hleft₁ p₂ hbelow
                rw [List.length_cons] at hleft₂
                have hle := (explores_of_visitEach hbelow).unmarked_le
                have hsteps₂ : 2 * (p₂.emit e.node).marks.unmarked + frames.length < left₁ := by
                  rw [marks_emit]
                  omega
                obtain ⟨left, hleft, heq⟩ := ih (by rw [marks_emit]; omega) hsteps₂
                refine ⟨left, fun p' hp' => hleft p' ?_, ?_⟩
                · simpa [visitEach, resolveFanin, visit, hmeet, hsite, hbelow] using hp'
                · rw [← heq₁] at heq
                  simpa [unwind, scan, visitEach, resolveFanin, visit, hmeet, hsite, hbelow]
                    using heq

/-- Both traversals collect the same, and break off for the same fault, on every network. -/
theorem run_iterative (c : Collection) (root : Nat) (marks : Marks) :
    c.run .iterative root marks = c.run .recursive root marks := by
  have hsame : c.unwindFrom root ⟨marks.advance, 0, [], []⟩ =
      c.visit (marks.advance.size + 1) true root ⟨marks.advance, 0, [], []⟩ := by
    unfold unwindFrom visit
    cases hmeet : c.meet true root ⟨marks.advance, 0, [], []⟩ with
    | error fault => rfl
    | ok met =>
      obtain ⟨below, p⟩ := met
      cases below with
      | false => rfl
      | true =>
        cases hsite : c.net.site root with
        | error fault => rfl
        | ok site =>
          have hless := (meet_eq_ok hmeet).unmarked_le
          have hsize := Marks.unmarked_le_size marks.advance
          rw [Bool.toNat_true] at hless
          have hdepth : p.marks.unmarked < marks.advance.size := by
            dsimp only at hless
            omega
          have hsteps : 2 * p.marks.unmarked + ([] : List Frame).length <
              2 * marks.advance.size + 1 := by
            rw [List.length_nil]
            omega
          obtain ⟨left, -, heq⟩ := unwind_cons (c := c) root site.fanins hdepth hsteps
          dsimp only
          rw [heq]
          cases visitEach (c.visit marks.advance.size false) site.fanins p with
          | error fault => rfl
          | ok p' => simp [unwind]
  unfold run
  dsimp only
  rw [hsame]

theorem run_eq_recursive (c : Collection) (traversal : Traversal) (root : Nat) (marks : Marks) :
    c.run traversal root marks = c.run .recursive root marks := by
  cases traversal with
  | recursive => rfl
  | iterative => exact c.run_iterative root marks

theorem Met.evolves (h : c.Met atRoot n p b p') : p.marks.Evolves p'.marks := by
  cases h with
  | seen => exact .refl p.marks
  | listed hfresh hroot hboundary huse hrecord =>
    obtain ⟨marks, hmark, rfl⟩ := recordSupport_eq_ok hrecord
    exact Marks.evolves_mark hmark
  | ignored => exact .refl p.marks
  | cut => exact .refl p.marks
  | cone hfresh hdead hroom hexpand =>
    obtain ⟨marks, hmark, rfl⟩ := expand_eq_ok hexpand
    exact Marks.evolves_mark hmark

theorem Explores.evolves (h : c.Explores fanins p p') : p.marks.Evolves p'.marks := by
  induction h with
  | done p => exact .refl p.marks
  | pass hmet hrest ih => exact hmet.evolves.trans ih
  | expand hmet hsite hbelow hrest ihbelow ihrest =>
    exact (hmet.evolves.trans ihbelow).trans ihrest

/-- How a whole collection ends: the root is not gone below, or everything below it is explored. -/
inductive Collects (c : Collection) (root : Nat) (marks : Marks) : Progress → Prop
  | stay {p : Progress} (hmet : c.Met true root ⟨marks.advance, 0, [], []⟩ false p) :
      Collects c root marks p
  | expand {site : Site} {p p' : Progress}
      (hmet : c.Met true root ⟨marks.advance, 0, [], []⟩ true p)
      (hsite : c.net.site? root = some site) (hbelow : c.Explores site.fanins p p') :
      Collects c root marks (p'.emit root)

/-- What a collection that ends has found. -/
theorem run_eq_ok {traversal : Traversal} {root : Nat} {marks marks' : Marks} {found : Cone}
    (h : c.run traversal root marks = .ok (found, marks')) :
    ∃ p, c.Collects root marks p ∧ found = ⟨p.cone.reverse, p.support.reverse⟩ ∧
      marks' = p.marks := by
  have hrec : c.run .recursive root marks = .ok (found, marks') := by
    rwa [run_eq_recursive] at h
  unfold run visit at hrec
  dsimp only at hrec
  cases hmeet : c.meet true root ⟨marks.advance, 0, [], []⟩ with
  | error fault => simp [hmeet] at hrec
  | ok met =>
    obtain ⟨below, p⟩ := met
    rw [hmeet] at hrec
    cases below with
    | false =>
      simp only [Except.ok.injEq, Prod.mk.injEq] at hrec
      exact ⟨p, .stay (meet_eq_ok hmeet), hrec.1.symm, hrec.2.symm⟩
    | true =>
      dsimp only at hrec
      cases hsite : c.net.site root with
      | error fault => simp [hsite] at hrec
      | ok site =>
        rw [hsite] at hrec
        dsimp only at hrec
        cases hbelow : visitEach (c.visit marks.advance.size false) site.fanins p with
        | error fault =>
          rw [hbelow] at hrec
          cases hrec
        | ok p' =>
          simp only [hbelow, Except.ok.injEq, Prod.mk.injEq] at hrec
          refine ⟨p'.emit root, ?_, hrec.1.symm, hrec.2.symm⟩
          exact .expand (meet_eq_ok hmeet) (Network.site_eq_ok hsite) (explores_of_visitEach hbelow)

theorem Collects.evolves {root : Nat} {marks : Marks} (h : c.Collects root marks p) :
    marks.Evolves p.marks := by
  cases h with
  | stay hmet => exact (Marks.evolves_advance marks).trans hmet.evolves
  | expand hmet hsite hbelow =>
    exact ((Marks.evolves_advance marks).trans hmet.evolves).trans hbelow.evolves

theorem exists_isBoundary (atRoot : Bool) (hnet : c.net.Present n) (hcounts : n < c.counts.size) :
    ∃ isBoundary, c.isBoundary atRoot n = .ok isBoundary := by
  obtain ⟨site, hsite⟩ := hnet
  obtain ⟨k, hk⟩ : ∃ k, c.counts.count n = .ok k := by
    have hlt : n < c.counts.entries.size := hcounts
    simp [FanoutCounts.count, hlt]
  cases atRoot with
  | true => exact ⟨false, rfl⟩
  | false =>
    cases hkind : site.kind with
    | leaf => exact ⟨true, by simp [isBoundary, Network.isLeaf, Network.site, hsite, hkind]⟩
    | internal =>
      exact ⟨decide (0 < k), by simp [isBoundary, Network.isLeaf, Network.site, hsite, hkind, hk]⟩

/-- A node that is present and has a count and a stamp can be met. -/
theorem exists_meet (atRoot : Bool) (hnet : c.net.Present n) (hcounts : n < c.counts.size)
    (hmarks : n < p.marks.size) : ∃ b p', c.meet atRoot n p = .ok (b, p') := by
  have hcurrent : p.marks.isCurrent n = .ok (p.marks.isMarked n) :=
    Marks.isCurrent_eq_ok_iff.2 ⟨hmarks, rfl⟩
  obtain ⟨isBoundary, hboundary⟩ := exists_isBoundary atRoot hnet hcounts
  obtain ⟨marks, hmark⟩ : ∃ marks, p.marks.mark n = .ok marks :=
    ⟨_, Marks.mark_eq_ok_iff.2 ⟨hmarks, rfl⟩⟩
  cases hseen : p.marks.isMarked n with
  | true => exact ⟨false, p, by simp [meet, classify, hcurrent, hseen]⟩
  | false =>
    cases isBoundary with
    | true =>
      cases huse : c.boundaryUse with
      | listed =>
        refine ⟨false, ⟨marks, p.expanded, p.cone, n :: p.support⟩, ?_⟩
        simp [meet, classify, hcurrent, hseen, hboundary, huse, Progress.recordSupport, hmark]
      | ignored =>
        exact ⟨false, p, by simp [meet, classify, hcurrent, hseen, hboundary, huse]⟩
    | false =>
      cases hfull : c.isFull p with
      | true => exact ⟨false, p, by simp [meet, classify, hcurrent, hseen, hboundary, hfull]⟩
      | false =>
        refine ⟨true, ⟨marks, p.expanded + 1, p.cone, p.support⟩, ?_⟩
        simp [meet, classify, hcurrent, hseen, hboundary, hfull, Progress.expand, hmark]

/-- In a closed network a recursive collection can explore any fanin edges. -/
theorem exists_visitEach (hcounts : c.net.Closed c.counts.size) {depth : Nat}
    (hmarks : c.net.Closed p.marks.size) (hdepth : p.marks.unmarked < depth)
    (hfanins : ∀ fanin ∈ fanins, ∃ e, fanin = some e ∧ c.net.Present e.node) :
    ∃ p', visitEach (c.visit depth false) fanins p = .ok p' := by
  induction depth generalizing fanins p with
  | zero => omega
  | succ depth ihdepth =>
    induction fanins generalizing p with
    | nil => exact ⟨p, rfl⟩
    | cons fanin fanins ih =>
      obtain ⟨e, rfl, hpresent⟩ := hfanins _ List.mem_cons_self
      have hrest : ∀ fanin ∈ fanins, ∃ e, fanin = some e ∧ c.net.Present e.node :=
        fun fanin hfanin => hfanins fanin (List.mem_cons_of_mem _ hfanin)
      obtain ⟨below, p₁, hmeet⟩ := exists_meet false hpresent
        (hcounts.lt_of_present hpresent) (hmarks.lt_of_present hpresent)
      have hmet := meet_eq_ok hmeet
      have hless := hmet.unmarked_le
      have hmarks₁ : c.net.Closed p₁.marks.size := by rwa [hmet.evolves.size_eq]
      cases below with
      | false =>
        rw [Bool.toNat_false] at hless
        obtain ⟨p', hp'⟩ := ih hmarks₁ (by omega) hrest
        exact ⟨p', by simpa [visitEach, resolveFanin, visit, hmeet] using hp'⟩
      | true =>
        rw [Bool.toNat_true] at hless
        obtain ⟨site, hsite⟩ := hpresent
        have hsite' : c.net.site e.node = .ok site := Network.site_eq_ok_iff.2 hsite
        obtain ⟨p₂, hbelow⟩ := ihdepth hmarks₁ (by omega) (fun fanin hfanin =>
          hcounts.fanin_of_mem hsite hfanin)
        have hbelow' := explores_of_visitEach hbelow
        have hle := hbelow'.unmarked_le
        have hmarks₂ : c.net.Closed (p₂.emit e.node).marks.size := by
          rwa [marks_emit, hbelow'.evolves.size_eq]
        obtain ⟨p', hp'⟩ := ih hmarks₂ (by rw [marks_emit]; omega) hrest
        exact ⟨p', by simpa [visitEach, resolveFanin, visit, hmeet, hsite', hbelow] using hp'⟩

/-- In a closed network a collection from a node that is present ends, whatever the counts and
marks are. -/
theorem exists_run (hcounts : c.net.Closed c.counts.size) {marks : Marks}
    (hmarks : c.net.Closed marks.size) {root : Nat} (hroot : c.net.Present root)
    (traversal : Traversal) : ∃ found marks', c.run traversal root marks = .ok (found, marks') := by
  have hrec : ∃ found marks', c.run .recursive root marks = .ok (found, marks') := by
    have hmarks₀ : c.net.Closed marks.advance.size := by rwa [Marks.size_advance]
    obtain ⟨below, p, hmeet⟩ := exists_meet (p := ⟨marks.advance, 0, [], []⟩) true hroot
      (hcounts.lt_of_present hroot) (hmarks₀.lt_of_present hroot)
    have hmet := meet_eq_ok hmeet
    cases below with
    | false => exact ⟨_, _, by simp only [run, visit, hmeet]; rfl⟩
    | true =>
      obtain ⟨site, hsite⟩ := hroot
      have hsite' : c.net.site root = .ok site := Network.site_eq_ok_iff.2 hsite
      have hless := hmet.unmarked_le
      have hle := Marks.unmarked_le_size marks.advance
      rw [Bool.toNat_true] at hless
      have hdepth : p.marks.unmarked < marks.advance.size := by
        dsimp only at hless
        omega
      have hmarks₁ : c.net.Closed p.marks.size := by rwa [hmet.evolves.size_eq]
      obtain ⟨p', hbelow⟩ := exists_visitEach hcounts hmarks₁ hdepth fun fanin hfanin =>
        hcounts.fanin_of_mem hsite hfanin
      exact ⟨_, _, by simp only [run, visit, hmeet, hsite', hbelow]; rfl⟩
  rw [run_eq_recursive]
  exact hrec

end FanoutCone.Collection
