import FanoutCone.Proofs.Exploration

/-!
# What a collection covers

An exploration keeps an account of the nodes that it has met. The nodes that it
has gone below, done or not, and the support are the marked nodes, each once;
the cone can be reached from the root through dead nodes, the support is read by
it; and whatever a finished cone node reads is marked too, unless the boundary
is ignored or the cut limit has kept it out.

So a collection without a cut limit finds exactly the dead nodes that can be
reached from the root through dead nodes.
-/
namespace FanoutCone.Collection

/-- Whether a collection that has gone below `u` goes below `v` next. -/
def Leads (c : Collection) (u v : Nat) : Prop := c.net.Reads u v ∧ c.Dead v

/-- Whether a fanin of a cone node has been dealt with. -/
def Settled (c : Collection) (p : Progress) (v : Nat) : Prop :=
  p.marks.isMarked v = true ∨ (c.boundaryUse = .ignored ∧ c.Boundary v) ∨
    (c.isFull p = true ∧ c.Dead v)

/-- The account of a collection. `opened` are the nodes gone below whose fanins are not done. -/
structure Covered (c : Collection) (root : Nat) (opened : List Nat) (p : Progress) : Prop where
  nodup : (opened ++ p.cone ++ p.support).Nodup
  marked_iff : ∀ v, p.marks.isMarked v = true ↔ v ∈ opened ++ p.cone ++ p.support
  expanded_eq : p.expanded = (opened ++ p.cone).length
  reached : ∀ v ∈ opened ++ p.cone, Relation.ReflTransGen c.Leads root v
  boundary : ∀ v ∈ p.support, c.Boundary v
  read : ∀ v ∈ p.support, ∃ u ∈ opened ++ p.cone, c.net.Reads u v
  settled : ∀ u ∈ p.cone, ∀ v, c.net.Reads u v → c.Settled p v

/-- Nothing is unmarked, and no node gone below is taken back. -/
structure Grows (p p' : Progress) : Prop where
  marked : ∀ v, p.marks.isMarked v = true → p'.marks.isMarked v = true
  expanded_le : p.expanded ≤ p'.expanded

variable {c : Collection} {root u v w n : Nat} {opened : List Nat} {p p₁ p' : Progress}
variable {fanins : List (Option Edge)}

theorem Dead.not_boundary (h : c.Dead v) : ¬ c.Boundary v := by
  obtain ⟨⟨site, hsite, hkind⟩, hzero⟩ := h
  rintro (⟨site', hsite', hkind'⟩ | hpos)
  · rw [hsite] at hsite'
    cases hsite'
    rw [hkind] at hkind'
    cases hkind'
  · omega

theorem Grows.refl (p : Progress) : Grows p p := ⟨fun _ => id, Nat.le_refl _⟩

theorem Grows.trans (h : Grows p p₁) (h' : Grows p₁ p') : Grows p p' where
  marked v hv := h'.marked v (h.marked v hv)
  expanded_le := h.expanded_le.trans h'.expanded_le

theorem Grows.settled (h : Grows p p') (hv : c.Settled p v) : c.Settled p' v := by
  rcases hv with hmarked | hignored | ⟨hfull, hdead⟩
  · exact Or.inl (h.marked v hmarked)
  · exact Or.inr (Or.inl hignored)
  · refine Or.inr (Or.inr ⟨?_, hdead⟩)
    have hle := h.expanded_le
    unfold isFull at hfull ⊢
    cases hlimit : c.limit with
    | none => simp [hlimit] at hfull
    | some limit =>
      simp only [hlimit, decide_eq_true_eq] at hfull ⊢
      omega

theorem Grows.fresh (h : Grows p p') (hv : p'.marks.isMarked v = false) :
    p.marks.isMarked v = false := by
  rw [← Bool.not_eq_true] at hv ⊢
  exact mt (h.marked v) hv

theorem Met.grows {atRoot b : Bool} (h : c.Met atRoot n p b p') : Grows p p' := by
  cases h with
  | seen => exact .refl p
  | listed hfresh hroot hboundary huse hrecord =>
    obtain ⟨marks, hmark, rfl⟩ := recordSupport_eq_ok hrecord
    exact ⟨fun v hv => by simp [Marks.isMarked_mark hmark, hv], Nat.le_refl _⟩
  | ignored => exact .refl p
  | cut => exact .refl p
  | cone hfresh hdead hroom hexpand =>
    obtain ⟨marks, hmark, rfl⟩ := expand_eq_ok hexpand
    exact ⟨fun v hv => by simp [Marks.isMarked_mark hmark, hv], Nat.le_succ _⟩

/-- A node is gone below when it is met for the first time, is not of the boundary, and the cut
limit allows it. -/
theorem Met.below_iff (h : c.Met atRoot v p b p') :
    b = true ↔ p.marks.isMarked v = false ∧ (atRoot = true ∨ ¬ c.Boundary v) ∧
      c.isFull p = false := by
  cases h with
  | seen hmarked => simp [hmarked]
  | listed _ hroot hboundary | ignored _ hroot hboundary => simp [hroot, hboundary]
  | cut _ _ hfull => simp [hfull]
  | cone hfresh hdead hroom =>
    exact iff_of_true rfl ⟨hfresh, hdead.imp_right Dead.not_boundary, hroom⟩

/-- A meeting marks a node that is gone below or listed, and no other. -/
theorem Met.isMarked_iff (h : c.Met atRoot v p b p') :
    p'.marks.isMarked w = true ↔ p.marks.isMarked w = true ∨
      (w = v ∧ (b = true ∨ (atRoot = false ∧ c.Boundary v ∧ c.boundaryUse = .listed))) := by
  cases h with
  | seen hmarked =>
    refine ⟨Or.inl, ?_⟩
    rintro (hw | ⟨rfl, -⟩)
    · exact hw
    · exact hmarked
  | listed _ hroot hboundary huse hrecord =>
    obtain ⟨marks, hmark, rfl⟩ := recordSupport_eq_ok hrecord
    simp [Marks.isMarked_mark hmark, hroot, hboundary, huse, or_comm]
  | ignored _ _ _ huse => simp [huse]
  | cut _ hdead =>
    rcases hdead with hroot | hdead
    · simp [hroot]
    · simp [hdead.not_boundary]
  | cone _ _ _ hexpand =>
    obtain ⟨marks, hmark, rfl⟩ := expand_eq_ok hexpand
    simp [Marks.isMarked_mark hmark, or_comm]

theorem Explores.grows (h : c.Explores fanins p p') : Grows p p' := by
  induction h with
  | done p => exact .refl p
  | pass hmet hrest ih => exact hmet.grows.trans ih
  | expand hmet hsite hbelow hrest ihbelow ihrest =>
    exact (hmet.grows.trans ihbelow).trans ⟨ihrest.marked, ihrest.expanded_le⟩

/-- Meeting a fanin of an open node without going below it. -/
theorem Covered.pass (h : c.Covered root opened p) (hu : u ∈ opened) (hread : c.net.Reads u v)
    (hmet : c.Met false v p false p') : c.Covered root opened p' ∧ c.Settled p' v := by
  have hgrows := hmet.grows
  cases hmet with
  | seen hmarked => exact ⟨h, Or.inl hmarked⟩
  | ignored hfresh hroot hboundary huse => exact ⟨h, Or.inr (Or.inl ⟨huse, hboundary⟩)⟩
  | cut hfresh hdead hfull =>
    exact ⟨h, Or.inr (Or.inr ⟨hfull, hdead.resolve_left Bool.false_ne_true⟩)⟩
  | listed hfresh hroot hboundary huse hrecord =>
    obtain ⟨marks, hmark, rfl⟩ := recordSupport_eq_ok hrecord
    have hmarks := Marks.isMarked_mark hmark
    have hnew : v ∉ opened ++ p.cone ++ p.support := by
      rw [← h.marked_iff v, hfresh]
      exact Bool.false_ne_true
    refine ⟨⟨?_, ?_, h.expanded_eq, h.reached, ?_, ?_, ?_⟩, Or.inl (by simp [hmarks v])⟩
    · exact List.perm_middle.nodup_iff.2 (List.nodup_cons.2 ⟨hnew, h.nodup⟩)
    · intro w
      rw [List.perm_middle.mem_iff, List.mem_cons, ← h.marked_iff w]
      simp [hmarks w]
    · intro w hw
      rcases List.mem_cons.1 hw with rfl | hw
      · exact hboundary
      · exact h.boundary w hw
    · intro w hw
      rcases List.mem_cons.1 hw with rfl | hw
      · exact ⟨u, List.mem_append_left _ hu, hread⟩
      · exact h.read w hw
    · intro w hw x hx
      exact hgrows.settled (h.settled w hw x hx)

/-- Meeting a fanin of an open node and going below it. -/
theorem Covered.expand (h : c.Covered root opened p) (hu : u ∈ opened) (hread : c.net.Reads u v)
    (hmet : c.Met false v p true p') : c.Covered root (v :: opened) p' ∧ c.Dead v := by
  have hgrows := hmet.grows
  cases hmet with
  | cone hfresh hdead hroom hexpand =>
    obtain ⟨marks, hmark, rfl⟩ := expand_eq_ok hexpand
    have hmarks := Marks.isMarked_mark hmark
    have hdead := hdead.resolve_left Bool.false_ne_true
    have hnew : v ∉ opened ++ p.cone ++ p.support := by
      rw [← h.marked_iff v, hfresh]
      exact Bool.false_ne_true
    refine ⟨⟨List.nodup_cons.2 ⟨hnew, h.nodup⟩, ?_, ?_, ?_, h.boundary, ?_, ?_⟩, hdead⟩
    · intro w
      rw [List.cons_append, List.cons_append, List.mem_cons, ← h.marked_iff w]
      simp [hmarks w]
    · simp [h.expanded_eq]
    · intro w hw
      rcases List.mem_cons.1 hw with rfl | hw
      · exact (h.reached u (List.mem_append_left _ hu)).tail ⟨hread, hdead⟩
      · exact h.reached w hw
    · intro w hw
      obtain ⟨x, hx, hxw⟩ := h.read w hw
      exact ⟨x, List.mem_cons_of_mem v hx, hxw⟩
    · intro w hw x hx
      exact hgrows.settled (h.settled w hw x hx)

/-- Emitting an open node whose fanins are all dealt with. -/
theorem Covered.emit (h : c.Covered root (n :: opened) p)
    (hsettled : ∀ v, c.net.Reads n v → c.Settled p v) : c.Covered root opened (p.emit n) := by
  have hperm : (opened ++ n :: p.cone).Perm (n :: opened ++ p.cone) := List.perm_middle
  have hperm' := hperm.append_right p.support
  refine ⟨hperm'.nodup_iff.2 h.nodup, ?_, ?_, ?_, h.boundary, ?_, ?_⟩
  · intro v
    exact (h.marked_iff v).trans hperm'.mem_iff.symm
  · exact h.expanded_eq.trans hperm.length_eq.symm
  · intro v hv
    exact h.reached v (hperm.mem_iff.1 hv)
  · intro v hv
    obtain ⟨u, hu, huv⟩ := h.read v hv
    exact ⟨u, hperm.mem_iff.2 hu, huv⟩
  · intro u hu v huv
    rcases List.mem_cons.1 hu with rfl | hu
    · exact hsettled v huv
    · exact h.settled u hu v huv

/-- An exploration of fanins of an open node keeps the account and deals with them all. -/
theorem Explores.covered (h : c.Explores fanins p p') {opened : List Nat} {u : Nat}
    (hp : c.Covered root opened p) (hu : u ∈ opened)
    (hread : ∀ e, some e ∈ fanins → c.net.Reads u e.node) :
    c.Covered root opened p' ∧ ∀ e, some e ∈ fanins → c.Settled p' e.node := by
  induction h generalizing opened u with
  | done p => exact ⟨hp, fun e he => absurd he List.not_mem_nil⟩
  | @pass e fanins p p₁ p₂ hmet hrest ih =>
    obtain ⟨hp₁, hsettled⟩ := hp.pass hu (hread e List.mem_cons_self) hmet
    obtain ⟨hp₂, hall⟩ := ih hp₁ hu fun e he => hread e (List.mem_cons_of_mem _ he)
    refine ⟨hp₂, fun e' he' => ?_⟩
    rcases List.mem_cons.1 he' with heq | he'
    · cases heq
      exact hrest.grows.settled hsettled
    · exact hall e' he'
  | @expand e site fanins p p₁ p₂ p₃ hmet hsite hbelow hrest ihbelow ihrest =>
    obtain ⟨hp₁, hdead⟩ := hp.expand hu (hread e List.mem_cons_self) hmet
    obtain ⟨site', hsite', hkind⟩ := hdead.1
    obtain rfl : site = site' := Option.some.inj (hsite.symm.trans hsite')
    obtain ⟨hp₂, hbelow'⟩ := ihbelow hp₁ List.mem_cons_self fun e' he' =>
      (Network.reads_iff hsite hkind).2 ⟨e', he', rfl⟩
    have hemitted := hp₂.emit fun v hv => by
      obtain ⟨e', he', rfl⟩ := (Network.reads_iff hsite hkind).1 hv
      exact hbelow' e' he'
    obtain ⟨hp₃, hall⟩ := ihrest hemitted hu fun e he => hread e (List.mem_cons_of_mem _ he)
    refine ⟨hp₃, fun e' he' => ?_⟩
    rcases List.mem_cons.1 he' with heq | he'
    · cases heq
      have hmarked : (p₂.emit e.node).marks.isMarked e.node = true :=
        (hemitted.marked_iff e.node).2 (by simp [Progress.emit])
      exact Or.inl (hrest.grows.marked _ hmarked)
    · exact hall e' he'

/-- The account once the root is gone below: it is open, and nothing else was met. -/
theorem Covered.start {marks : Marks} (hmarks : marks.Bounded)
    (hmet : c.Met true root ⟨marks.advance, 0, [], []⟩ true p) : c.Covered root [root] p := by
  cases hmet with
  | cone hfresh hdead hroom hexpand =>
    obtain ⟨marks', hmark, rfl⟩ := expand_eq_ok hexpand
    refine ⟨by simp, ?_, rfl, ?_, by simp, by simp, by simp⟩
    · intro v
      simp [Marks.isMarked_mark hmark, Marks.isMarked_advance hmarks]
    · intro v hv
      obtain rfl : v = root := by simpa using hv
      exact Relation.ReflTransGen.refl

/-- The account of a whole collection from an internal root. Nothing is open at its end. -/
theorem Collects.covered {marks : Marks} (h : c.Collects root marks p) (hmarks : marks.Bounded)
    (hroot : c.net.Internal root) (hroom : c.isFull ⟨marks.advance, 0, [], []⟩ = false) :
    c.Covered root [] p ∧ root ∈ p.cone := by
  have hfresh := Marks.isMarked_advance hmarks
  cases h with
  | stay hmet =>
    cases hmet with
    | seen hmarked => simp [hfresh] at hmarked
    | listed hfresh hatRoot => cases hatRoot
    | ignored hfresh hatRoot => cases hatRoot
    | cut hfresh hdead hfull => simp [hroom] at hfull
  | @expand site p₁ p' hmet hsite hbelow =>
    obtain ⟨site', hsite', hkind⟩ := hroot
    obtain rfl : site = site' := Option.some.inj (hsite.symm.trans hsite')
    obtain ⟨hcovered, hall⟩ := hbelow.covered (.start hmarks hmet) List.mem_cons_self fun e he =>
      (Network.reads_iff hsite hkind).2 ⟨e, he, rfl⟩
    refine ⟨hcovered.emit fun v hv => ?_, by simp [Progress.emit]⟩
    obtain ⟨e, he, rfl⟩ := (Network.reads_iff hsite hkind).1 hv
    exact hall e he

/-- Without a cut limit, the cone is what can be reached from the root through dead nodes. -/
theorem Covered.mem_cone_iff (h : c.Covered root [] p) (hroot : root ∈ p.cone)
    (hlimit : c.limit = none) : v ∈ p.cone ↔ Relation.ReflTransGen c.Leads root v := by
  refine ⟨fun hv => h.reached v (by simpa using hv), fun hv => ?_⟩
  induction hv with
  | refl => exact hroot
  | @tail u w _ hlead ih =>
    rcases h.settled u ih w hlead.1 with hmarked | ⟨-, hboundary⟩ | ⟨hfull, -⟩
    · rw [h.marked_iff w, List.nil_append] at hmarked
      rcases List.mem_append.1 hmarked with hw | hw
      · exact hw
      · exact absurd (h.boundary w hw) hlead.2.not_boundary
    · exact absurd hboundary hlead.2.not_boundary
    · simp [isFull, hlimit] at hfull

end FanoutCone.Collection
