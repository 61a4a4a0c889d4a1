import FanoutCone.Proofs.Histories

/-!
# The order of going below

A collection returns its cone in the order in which the nodes are done, and the
order in which it goes below them is lost. A logged run keeps it: it does what
the run does, and lists each node as it goes below it, in either traversal.

`Expands` says what a logged run does below a node, without steps or depths. All
nodes that it lists are in the cone at the end, and once the cut limit is used
up it lists no more.
-/
namespace FanoutCone

namespace Collection

/-- The progress of a collection and the nodes that it has gone below, in that order. -/
structure Logged where
  opened : List Nat
  progress : Progress

def logEach (visit : Nat → Logged → Except Fault Logged) :
    (fanins : List (Option Edge)) → Logged → Except Fault Logged
  | [], r => .ok r
  | fanin :: fanins, r =>
    match resolveFanin fanin with
    | .error fault => .error fault
    | .ok e =>
      match visit e.node r with
      | .error fault => .error fault
      | .ok r => logEach visit fanins r

def logVisit (c : Collection) : (depth : Nat) → (atRoot : Bool) → (n : Nat) → Logged →
    Except Fault Logged
  | 0, _, _, _ => .error .exhausted
  | depth + 1, atRoot, n, ⟨opened, p⟩ =>
    match c.meet atRoot n p with
    | .error fault => .error fault
    | .ok (false, p) => .ok ⟨opened, p⟩
    | .ok (true, p) =>
      match c.net.site n with
      | .error fault => .error fault
      | .ok site =>
        match logEach (c.logVisit depth false) site.fanins ⟨opened ++ [n], p⟩ with
        | .error fault => .error fault
        | .ok ⟨opened, p⟩ => .ok ⟨opened, p.emit n⟩

def logUnwind (c : Collection) : (steps : Nat) → List Frame → Logged → Except Fault Logged
  | _, [], r => .ok r
  | 0, _ :: _, _ => .error .exhausted
  | steps + 1, frame :: frames, ⟨opened, p⟩ =>
    match c.scan frame.fanins p with
    | .error fault => .error fault
    | .ok (none, p) => c.logUnwind steps frames ⟨opened, p.emit frame.node⟩
    | .ok (some (n, rest), p) =>
      match c.net.site n with
      | .error fault => .error fault
      | .ok site =>
        c.logUnwind steps (⟨n, site.fanins⟩ :: ⟨frame.node, rest⟩ :: frames) ⟨opened ++ [n], p⟩

def logUnwindFrom (c : Collection) (root : Nat) (p : Progress) : Except Fault Logged :=
  match c.meet true root p with
  | .error fault => .error fault
  | .ok (false, p) => .ok ⟨[], p⟩
  | .ok (true, p') =>
    match c.net.site root with
    | .error fault => .error fault
    | .ok site => c.logUnwind (2 * p.marks.size + 1) [⟨root, site.fanins⟩] ⟨[root], p'⟩

def logFrom (c : Collection) (traversal : Traversal) (root : Nat) (p : Progress) :
    Except Fault Logged :=
  match traversal with
  | .recursive => c.logVisit (p.marks.size + 1) true root ⟨[], p⟩
  | .iterative => c.logUnwindFrom root p

/-- A run with its log: the nodes that it goes below, in that order, and what it returns. -/
def logRun (c : Collection) (traversal : Traversal) (root : Nat) (marks : Marks) :
    Except Fault (List Nat × Cone × Marks) :=
  (c.logFrom traversal root ⟨marks.advance, 0, [], []⟩).map fun r =>
    (r.opened, ⟨r.progress.cone.reverse, r.progress.support.reverse⟩, r.progress.marks)

variable {c : Collection} {n : Nat} {p p₁ p₂ p' : Progress} {l l' : List Nat}
variable {fanins : List (Option Edge)}

section Forgetting

theorem logEach_progress {visit : Nat → Progress → Except Fault Progress}
    {log : Nat → Logged → Except Fault Logged}
    (h : ∀ n r, (log n r).map Logged.progress = visit n r.progress)
    (fanins : List (Option Edge)) (r : Logged) :
    (logEach log fanins r).map Logged.progress = visitEach visit fanins r.progress := by
  induction fanins generalizing r with
  | nil => rfl
  | cons fanin fanins ih =>
    simp only [logEach, visitEach]
    cases resolveFanin fanin with
    | error fault => rfl
    | ok e =>
      simp only [← h e.node r]
      cases log e.node r with
      | error fault => rfl
      | ok r₁ => exact ih r₁

theorem logVisit_progress (c : Collection) (depth : Nat) (atRoot : Bool) (n : Nat) (r : Logged) :
    (c.logVisit depth atRoot n r).map Logged.progress = c.visit depth atRoot n r.progress := by
  induction depth generalizing atRoot n r with
  | zero => rfl
  | succ depth ih =>
    obtain ⟨opened, p⟩ := r
    simp only [logVisit, visit]
    cases c.meet atRoot n p with
    | error fault => rfl
    | ok met =>
      obtain ⟨below, p₁⟩ := met
      cases below with
      | false => rfl
      | true =>
        cases c.net.site n with
        | error fault => rfl
        | ok site =>
          have hbelow := logEach_progress (ih false) site.fanins ⟨opened ++ [n], p₁⟩
          dsimp only at hbelow ⊢
          rw [← hbelow]
          cases logEach (c.logVisit depth false) site.fanins ⟨opened ++ [n], p₁⟩ <;> rfl

theorem logUnwind_progress (c : Collection) (steps : Nat) (frames : List Frame) (r : Logged) :
    (c.logUnwind steps frames r).map Logged.progress = c.unwind steps frames r.progress := by
  induction steps generalizing frames r with
  | zero => cases frames <;> rfl
  | succ steps ih =>
    cases frames with
    | nil => rfl
    | cons frame frames =>
      obtain ⟨opened, p⟩ := r
      simp only [logUnwind, unwind]
      cases c.scan frame.fanins p with
      | error fault => rfl
      | ok scanned =>
        obtain ⟨next, p₁⟩ := scanned
        cases next with
        | none => exact ih frames _
        | some next =>
          obtain ⟨m, rest⟩ := next
          dsimp only
          cases c.net.site m with
          | error fault => rfl
          | ok site => exact ih _ _

theorem logFrom_progress (c : Collection) (traversal : Traversal) (root : Nat) (p : Progress) :
    (c.logFrom traversal root p).map Logged.progress =
      match traversal with
      | .recursive => c.visit (p.marks.size + 1) true root p
      | .iterative => c.unwindFrom root p := by
  cases traversal with
  | recursive => exact c.logVisit_progress _ _ _ ⟨[], p⟩
  | iterative =>
    simp only [logFrom, logUnwindFrom, unwindFrom]
    cases c.meet true root p with
    | error fault => rfl
    | ok met =>
      obtain ⟨below, p'⟩ := met
      cases below with
      | false => rfl
      | true =>
        cases c.net.site root with
        | error fault => rfl
        | ok site => exact c.logUnwind_progress _ _ ⟨[root], p'⟩

/-- Without its log, a logged run is the run, on every network. -/
theorem logRun_map_snd (c : Collection) (traversal : Traversal) (root : Nat) (marks : Marks) :
    (c.logRun traversal root marks).map Prod.snd = c.run traversal root marks := by
  have hforget := c.logFrom_progress traversal root ⟨marks.advance, 0, [], []⟩
  unfold logRun run
  cases traversal <;>
  · dsimp only at hforget ⊢
    rw [← hforget]
    cases c.logFrom _ root ⟨marks.advance, 0, [], []⟩ <;> rfl

end Forgetting

/-- What a collection does with fanin edges and below them, and the nodes that it goes below, in
that order. -/
inductive Expands (c : Collection) : List (Option Edge) → Progress → List Nat → Progress → Prop
  | done (p : Progress) : Expands c [] p [] p
  | pass {e : Edge} {fanins : List (Option Edge)} {p p₁ p₂ : Progress} {l : List Nat}
      (hmeet : c.meet false e.node p = .ok (false, p₁)) (hrest : Expands c fanins p₁ l p₂) :
      Expands c (some e :: fanins) p l p₂
  | expand {e : Edge} {site : Site} {fanins : List (Option Edge)} {p p₁ p₂ p₃ : Progress}
      {l l' : List Nat} (hmeet : c.meet false e.node p = .ok (true, p₁))
      (hsite : c.net.site? e.node = some site) (hbelow : Expands c site.fanins p₁ l p₂)
      (hrest : Expands c fanins (p₂.emit e.node) l' p₃) :
      Expands c (some e :: fanins) p (e.node :: (l ++ l')) p₃

/-- How a whole collection ends, and the nodes that it goes below, in that order. -/
inductive Opens (c : Collection) (root : Nat) (marks : Marks) : List Nat → Progress → Prop
  | stay {p : Progress} (hmeet : c.meet true root ⟨marks.advance, 0, [], []⟩ = .ok (false, p)) :
      Opens c root marks [] p
  | expand {site : Site} {p p' : Progress} {l : List Nat}
      (hmeet : c.meet true root ⟨marks.advance, 0, [], []⟩ = .ok (true, p))
      (hsite : c.net.site? root = some site) (hbelow : c.Expands site.fanins p l p') :
      Opens c root marks (root :: l) (p'.emit root)

theorem Expands.explores (h : c.Expands fanins p l p') : c.Explores fanins p p' := by
  induction h with
  | done p => exact .done p
  | pass hmeet hrest ih => exact .pass (meet_eq_ok hmeet) ih
  | expand hmeet hsite hbelow hrest ihbelow ihrest =>
    exact .expand (meet_eq_ok hmeet) hsite ihbelow ihrest

theorem Opens.collects {root : Nat} {marks : Marks} (h : c.Opens root marks l p) :
    c.Collects root marks p := by
  cases h with
  | stay hmeet => exact .stay (meet_eq_ok hmeet)
  | expand hmeet hsite hbelow => exact .expand (meet_eq_ok hmeet) hsite hbelow.explores

/-- A recursive collection either passes over its node or goes below it. -/
theorem logVisit_eq_ok {depth : Nat} {atRoot : Bool} {opened : List Nat} {r : Logged}
    (h : c.logVisit (depth + 1) atRoot n ⟨opened, p⟩ = .ok r) :
    (c.meet atRoot n p = .ok (false, r.progress) ∧ r.opened = opened) ∨
      ∃ p₁ site r₁, c.meet atRoot n p = .ok (true, p₁) ∧ c.net.site? n = some site ∧
        logEach (c.logVisit depth false) site.fanins ⟨opened ++ [n], p₁⟩ = .ok r₁ ∧
        r = ⟨r₁.opened, r₁.progress.emit n⟩ := by
  simp only [logVisit] at h
  cases hmeet : c.meet atRoot n p with
  | error fault => simp [hmeet] at h
  | ok met =>
    obtain ⟨below, p₁⟩ := met
    rw [hmeet] at h
    cases below with
    | false =>
      cases h
      exact Or.inl ⟨rfl, rfl⟩
    | true =>
      dsimp only at h
      cases hsite : c.net.site n with
      | error fault => simp [hsite] at h
      | ok site =>
        rw [hsite] at h
        dsimp only at h
        cases hbelow : logEach (c.logVisit depth false) site.fanins ⟨opened ++ [n], p₁⟩ with
        | error fault => simp [hbelow] at h
        | ok r₁ =>
          rw [hbelow] at h
          cases h
          exact Or.inr ⟨p₁, site, r₁, rfl, Network.site_eq_ok hsite, hbelow, rfl⟩

theorem logEach_cons_eq_ok {visit : Nat → Logged → Except Fault Logged} {e : Edge} {r r' : Logged}
    (h : logEach visit (some e :: fanins) r = .ok r') :
    ∃ r₁, visit e.node r = .ok r₁ ∧ logEach visit fanins r₁ = .ok r' := by
  simp only [logEach, resolveFanin] at h
  cases hvisit : visit e.node r with
  | error fault => simp [hvisit] at h
  | ok r₁ =>
    rw [hvisit] at h
    exact ⟨r₁, rfl, h⟩

/-- What the recursive collection logs for fanins. -/
theorem expands_of_logEach {depth : Nat} {r r' : Logged}
    (h : logEach (c.logVisit depth false) fanins r = .ok r') :
    ∃ l, c.Expands fanins r.progress l r'.progress ∧ r'.opened = r.opened ++ l := by
  -- On the depth for what is below a fanin, and for each depth on the fanins.
  induction depth generalizing fanins r r' with
  | zero =>
    cases fanins with
    | nil =>
      obtain rfl := Except.ok.inj h
      exact ⟨[], .done _, (List.append_nil _).symm⟩
    | cons fanin fanins => cases fanin <;> cases h
  | succ depth ihdepth =>
    induction fanins generalizing r with
    | nil =>
      obtain rfl := Except.ok.inj h
      exact ⟨[], .done _, (List.append_nil _).symm⟩
    | cons fanin fanins ih =>
      cases fanin with
      | none => cases h
      | some e =>
        obtain ⟨opened, p⟩ := r
        obtain ⟨r₁, hvisit, hfanins⟩ := logEach_cons_eq_ok h
        obtain ⟨l', hrest, hlog'⟩ := ih hfanins
        rcases logVisit_eq_ok hvisit with
          ⟨hmeet, hlog⟩ | ⟨p₁, site, r₂, hmeet, hsite, hbelow, rfl⟩
        · exact ⟨l', .pass hmeet hrest, by rw [hlog', hlog]⟩
        · obtain ⟨l, hexpands, hlog⟩ := ihdepth hbelow
          exact ⟨_, .expand hmeet hsite hexpands hrest, by rw [hlog', hlog]; simp⟩

/-- A frame's scan ends at a fanin that is to be gone below, or passes over it. -/
theorem scan_cons_eq_ok {e : Edge} {next : Option (Nat × List (Option Edge))}
    (h : c.scan (some e :: fanins) p = .ok (next, p')) :
    (c.meet false e.node p = .ok (true, p') ∧ next = some (e.node, fanins)) ∨
      ∃ p₁, c.meet false e.node p = .ok (false, p₁) ∧ c.scan fanins p₁ = .ok (next, p') := by
  simp only [scan, resolveFanin] at h
  cases hmeet : c.meet false e.node p with
  | error fault => simp [hmeet] at h
  | ok met =>
    obtain ⟨below, p₁⟩ := met
    rw [hmeet] at h
    cases below with
    | false => exact Or.inr ⟨p₁, rfl, h⟩
    | true =>
      cases h
      exact Or.inl ⟨rfl, rfl⟩

/-- Fanins that a frame scans to their end are all passed over. -/
theorem expands_of_scan_none (h : c.scan fanins p = .ok (none, p')) :
    c.Expands fanins p [] p' := by
  induction fanins generalizing p with
  | nil =>
    cases h
    exact .done _
  | cons fanin fanins ih =>
    cases fanin with
    | none => cases h
    | some e =>
      rcases scan_cons_eq_ok h with ⟨-, hnext⟩ | ⟨p₁, hmeet, hscan⟩
      · cases hnext
      · exact .pass hmeet (ih hscan)

/-- A frame scans up to the fanin that is gone below, and later goes on after it. -/
theorem expands_of_scan_some {site : Site} {rest : List (Option Edge)}
    (h : c.scan fanins p = .ok (some (n, rest), p₁)) (hsite : c.net.site? n = some site)
    (hbelow : c.Expands site.fanins p₁ l p₂) (hrest : c.Expands rest (p₂.emit n) l' p') :
    c.Expands fanins p (n :: (l ++ l')) p' := by
  induction fanins generalizing p with
  | nil => cases h
  | cons fanin fanins ih =>
    cases fanin with
    | none => cases h
    | some e =>
      rcases scan_cons_eq_ok h with ⟨hmeet, hnext⟩ | ⟨q, hmeet, hscan⟩
      · cases hnext
        exact .expand hmeet hsite hbelow hrest
      · exact .pass hmeet (ih hscan)

/-- What the iterative collection logs for its newest frame, before it goes on with the others. -/
theorem expands_of_logUnwind {steps : Nat} {frames : List Frame} {opened : List Nat} {r : Logged}
    (h : c.logUnwind steps (⟨n, fanins⟩ :: frames) ⟨opened, p⟩ = .ok r) :
    ∃ left l p', left < steps ∧ c.Expands fanins p l p' ∧
      c.logUnwind left frames ⟨opened ++ l, p'.emit n⟩ = .ok r := by
  induction steps using Nat.strong_induction_on generalizing n fanins frames opened p with
  | h steps ih =>
    cases steps with
    | zero => cases h
    | succ steps =>
      simp only [logUnwind] at h
      cases hscan : c.scan fanins p with
      | error fault => simp [hscan] at h
      | ok scanned =>
        obtain ⟨_ | ⟨m, rest⟩, p₁⟩ := scanned
        · rw [hscan] at h
          refine ⟨steps, [], p₁, Nat.lt_succ_self _, expands_of_scan_none hscan, ?_⟩
          rw [List.append_nil]
          exact h
        · rw [hscan] at h
          dsimp only at h
          cases hsite : c.net.site m with
          | error fault => simp [hsite] at h
          | ok site =>
            rw [hsite] at h
            obtain ⟨left₁, l₁, p₂, hless₁, hbelow, h₁⟩ := ih steps (Nat.lt_succ_self _) h
            obtain ⟨left₂, l₂, p₃, hless₂, hrest, h₂⟩ := ih left₁ (by omega) h₁
            refine ⟨left₂, _, p₃, by omega,
              expands_of_scan_some hscan (Network.site_eq_ok hsite) hbelow hrest, ?_⟩
            rw [← h₂]
            simp

/-- What a logged collection does from its root, in either traversal. -/
theorem opens_of_logFrom {traversal : Traversal} {root : Nat} {marks : Marks} {r : Logged}
    (h : c.logFrom traversal root ⟨marks.advance, 0, [], []⟩ = .ok r) :
    c.Opens root marks r.opened r.progress := by
  cases traversal with
  | recursive =>
    rcases logVisit_eq_ok h with ⟨hmeet, hlog⟩ | ⟨p₁, site, r₁, hmeet, hsite, hbelow, rfl⟩
    · rw [hlog]
      exact .stay hmeet
    · obtain ⟨l, hexpands, hlog⟩ := expands_of_logEach hbelow
      rw [hlog]
      exact .expand hmeet hsite hexpands
  | iterative =>
    simp only [logFrom, logUnwindFrom] at h
    cases hmeet : c.meet true root ⟨marks.advance, 0, [], []⟩ with
    | error fault => simp [hmeet] at h
    | ok met =>
      obtain ⟨below, p₁⟩ := met
      rw [hmeet] at h
      cases below with
      | false =>
        cases h
        exact .stay hmeet
      | true =>
        dsimp only at h
        cases hsite : c.net.site root with
        | error fault => simp [hsite] at h
        | ok site =>
          rw [hsite] at h
          obtain ⟨left, l, p₂, -, hexpands, hend⟩ := expands_of_logUnwind h
          obtain rfl : (⟨[root] ++ l, p₂.emit root⟩ : Logged) = r := by
            simpa [logUnwind] using hend
          exact .expand hmeet (Network.site_eq_ok hsite) hexpands

/-- What a logged run has found. -/
theorem logRun_eq_ok {traversal : Traversal} {root : Nat} {marks marks' : Marks} {found : Cone}
    (h : c.logRun traversal root marks = .ok (l, found, marks')) :
    ∃ p, c.Opens root marks l p ∧ found = ⟨p.cone.reverse, p.support.reverse⟩ ∧
      marks' = p.marks := by
  obtain ⟨r, hr, heq⟩ := map_eq_ok_iff.1 h
  cases heq
  exact ⟨r.progress, opens_of_logFrom hr, rfl, rfl⟩

/-- A run that ends has a log. -/
theorem exists_logRun {traversal : Traversal} {root : Nat} {marks marks' : Marks} {found : Cone}
    (h : c.run traversal root marks = .ok (found, marks')) :
    ∃ l, c.logRun traversal root marks = .ok (l, found, marks') := by
  rw [← logRun_map_snd] at h
  obtain ⟨⟨l, r⟩, hr, rfl⟩ := map_eq_ok_iff.1 h
  exact ⟨l, hr⟩

theorem Expands.expanded_eq (h : c.Expands fanins p l p') :
    p'.expanded = p.expanded + l.length := by
  induction h with
  | done p => rfl
  | pass hmeet hrest ih => rw [ih, (meet_eq_ok hmeet).expanded_eq, Bool.toNat_false, Nat.add_zero]
  | @expand e site fanins p p₁ p₂ p₃ l l' hmeet hsite hbelow hrest ihbelow ihrest =>
    have hmet := (meet_eq_ok hmeet).expanded_eq
    rw [Bool.toNat_true] at hmet
    have hemit : (p₂.emit e.node).expanded = p₂.expanded := rfl
    rw [List.length_cons, List.length_append]
    omega

/-- Whatever is gone below is finished, on top of what was finished before. -/
theorem Expands.exists_cone_eq (h : c.Expands fanins p l p') :
    ∃ done, p'.cone = done ++ p.cone ∧ done.Perm l := by
  induction h with
  | done p => exact ⟨[], rfl, .nil⟩
  | pass hmeet hrest ih =>
    obtain ⟨done, hdone, hperm⟩ := ih
    exact ⟨done, by rw [hdone, (meet_eq_ok hmeet).cone_eq], hperm⟩
  | @expand e site fanins p p₁ p₂ p₃ l l' hmeet hsite hbelow hrest ihbelow ihrest =>
    obtain ⟨below, hbelow, hperm⟩ := ihbelow
    obtain ⟨rest, hrest, hperm'⟩ := ihrest
    refine ⟨rest ++ e.node :: below, ?_, ?_⟩
    · have hemit : (p₂.emit e.node).cone = e.node :: p₂.cone := rfl
      rw [hrest, hemit, hbelow, (meet_eq_ok hmeet).cone_eq]
      simp
    · exact List.perm_middle.trans
        (.cons _ (List.perm_append_comm.trans (hperm.append hperm')))

/-- The cone of a whole collection is what it has gone below. -/
theorem Opens.perm_cone {root : Nat} {marks : Marks} (h : c.Opens root marks l p) :
    p.cone.Perm l := by
  cases h with
  | stay hmeet => rw [(meet_eq_ok hmeet).cone_eq]
  | @expand site p p' l hmeet hsite hbelow =>
    obtain ⟨done, hdone, hperm⟩ := hbelow.exists_cone_eq
    rw [(meet_eq_ok hmeet).cone_eq, List.append_nil] at hdone
    have hemit : (p'.emit root).cone = root :: p'.cone := rfl
    rw [hemit, hdone]
    exact .cons root hperm

/-- A collection whose cut limit is used up goes below nothing. -/
theorem Expands.of_isFull (h : c.Expands fanins p l p') (hfull : c.isFull p = true) :
    l = [] ∧ p'.cone = p.cone := by
  induction h with
  | done p => exact ⟨rfl, rfl⟩
  | @pass e fanins p p₁ p₂ l hmeet hrest ih =>
    have hcone := (meet_eq_ok hmeet).cone_eq
    have hexpanded := (meet_eq_ok hmeet).expanded_eq
    have hfull₁ : c.isFull p₁ = true := by simpa [isFull, hexpanded] using hfull
    rw [← hcone]
    exact ih hfull₁
  | expand hmeet =>
    cases meet_eq_ok hmeet with
    | cone _ _ hroom => simp [hroom] at hfull

end Collection

/-- What a collection over the stores of a query has logged. -/
theorem collectFrom_opens {use : BoundaryUse} {limit : Option Nat} {traversal : Traversal}
    {net : Network} {root : Nat} {s s' : Stores} {found : Cone}
    (h : collectFrom use limit traversal net root s = .ok (found, s')) :
    ∃ l p, Collection.logRun ⟨net, s.counts, use, limit⟩ traversal root s.marks =
        .ok (l, found, s'.marks) ∧
      (⟨net, s.counts, use, limit⟩ : Collection).Opens root s.marks l p ∧
      found = ⟨p.cone.reverse, p.support.reverse⟩ ∧ s' = ⟨s.counts, p.marks⟩ := by
  obtain ⟨counts, marks⟩ := s
  unfold collectFrom at h
  dsimp only at h ⊢
  cases hrun : Collection.run ⟨net, counts, use, limit⟩ traversal root marks with
  | error fault => simp [hrun] at h
  | ok result =>
    obtain ⟨found', marks'⟩ := result
    simp only [hrun, Except.ok.injEq, Prod.mk.injEq] at h
    obtain ⟨rfl, rfl⟩ := h
    obtain ⟨l, hlog⟩ := Collection.exists_logRun hrun
    obtain ⟨p, hopens, hfound, rfl⟩ := Collection.logRun_eq_ok hlog
    exact ⟨l, p, hlog, hopens, hfound, rfl⟩

end FanoutCone
