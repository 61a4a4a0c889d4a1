import FanoutCone.Proofs.Expansions
import FanoutCone.Proofs.Partition

/-!
# Cut limits

A collection with a cut limit does what the collection without one does, until
it has gone below as many nodes as the limit allows. From there on it passes
over dead nodes, which stay unmarked and may be met again, and goes on listing
what bounds the nodes that are still open.

So its cone holds the first nodes that the collection without a limit goes
below, in the order of that collection's cone, and its support is the boundary
of that cone, whether or not the limit came in between.
-/
namespace FanoutCone

namespace Collection

/-- The same collection with a cut limit. -/
def limited (c : Collection) (limit : Nat) : Collection :=
  ⟨c.net, c.counts, c.boundaryUse, some limit⟩

variable {c : Collection} {limit root : Nat} {p p' q : Progress} {l l' : List Nat}
variable {fanins : List (Option Edge)} {marks : Marks}

theorem isFull_limited : (c.limited limit).isFull p = decide (limit ≤ p.expanded) := rfl

theorem classify_limited {atRoot : Bool} {n : Nat} {meeting : Meeting} (hnone : c.limit = none)
    (h : c.classify atRoot n p = .ok meeting) :
    (c.limited limit).classify atRoot n p =
      .ok (if meeting = .cone ∧ limit ≤ p.expanded then .cut else meeting) := by
  have hroom : c.isFull p = false := by simp [isFull, hnone]
  have hboundary : (c.limited limit).isBoundary atRoot n = c.isBoundary atRoot n := rfl
  obtain ⟨seen, hseen, h⟩ := bind_eq_ok_iff.1 h
  unfold classify
  rw [hseen, ok_bind, hboundary]
  cases seen with
  | true =>
    cases h
    rfl
  | false =>
    obtain ⟨boundary, hbound, h⟩ := bind_eq_ok_iff.1 h
    rw [hbound, isFull_limited]
    cases boundary with
    | true =>
      cases h
      rfl
    | false =>
      rw [hroom] at h
      cases h
      by_cases hle : limit ≤ p.expanded <;> simp [hle]

theorem meetAs_eq_ok {n : Nat} {meeting : Meeting} {b : Bool}
    (h : c.meetAs n p meeting = .ok (b, p')) : b = true ↔ meeting = .cone := by
  cases meeting with
  | seen | cut =>
    cases h
    simp
  | boundary =>
    unfold meetAs at h
    cases huse : c.boundaryUse with
    | listed =>
      rw [huse] at h
      obtain ⟨p₁, -, heq⟩ := map_eq_ok_iff.1 h
      cases heq
      simp
    | ignored =>
      rw [huse] at h
      cases h
      simp
  | cone =>
    obtain ⟨p₁, -, heq⟩ := map_eq_ok_iff.1 h
    cases heq
    simp

/-- Under a cut limit a node is met in the same way, unless it would be gone below and the limit is
used up. -/
theorem meet_limited {atRoot b : Bool} {n : Nat} (limit : Nat) (hnone : c.limit = none)
    (h : c.meet atRoot n p = .ok (b, p')) :
    (c.limited limit).meet atRoot n p =
      .ok (if b = true ∧ limit ≤ p.expanded then (false, p) else (b, p')) := by
  rw [meet_eq] at h ⊢
  obtain ⟨meeting, hclass, has⟩ := bind_eq_ok_iff.1 h
  rw [classify_limited hnone hclass, ok_bind]
  simp only [← meetAs_eq_ok has]
  split
  · rfl
  · exact has

theorem meet_limited_of_not_below {atRoot : Bool} {n : Nat} (limit : Nat)
    (hnone : c.limit = none) (h : c.meet atRoot n p = .ok (false, p')) :
    (c.limited limit).meet atRoot n p = .ok (false, p') := by
  rw [meet_limited limit hnone h, if_neg (by simp)]

/-- Where the limit is used up, nothing more is gone below, and the cone stays within that of a
collection that goes on. -/
theorem Expands.sublist_of_isFull {c' : Collection} {q' : Progress}
    (h : c.Expands fanins p l p') (h' : c'.Expands fanins q l' q') (hfull : c'.isFull q = true)
    (hsublist : q.cone.Sublist p.cone) : l' = [] ∧ q'.cone.Sublist p'.cone := by
  obtain ⟨done, hdone, -⟩ := h.exists_cone_eq
  obtain ⟨rfl, hq⟩ := h'.of_isFull hfull
  refine ⟨rfl, ?_⟩
  rw [hq, hdone]
  exact hsublist.trans (List.sublist_append_right done p.cone)

/-- The collection under a cut limit goes below the first nodes that the collection without one
goes below, and finishes them in the same order. -/
theorem Expands.limited (h : c.Expands fanins p l p') (hnone : c.limit = none)
    (hroom : p.expanded ≤ limit) (hlimited : (c.limited limit).Expands fanins p l' q) :
    l' = l.take (limit - p.expanded) ∧ q.cone.Sublist p'.cone ∧
      (p.expanded + l.length ≤ limit → q = p') := by
  -- On the run without the limit. As long as there is room, the other is in the same place.
  induction h generalizing l' q with
  | done p =>
    cases hlimited
    exact ⟨List.take_nil.symm, .refl _, fun _ => rfl⟩
  | @pass e fanins p p₁ p₂ l hmeet hrest ih =>
    have hexpanded : p₁.expanded = p.expanded := (meet_eq_ok hmeet).expanded_eq
    have hsame := meet_limited_of_not_below limit hnone hmeet
    rw [← hexpanded] at hroom ⊢
    cases hlimited with
    | pass hmeet' hrest' =>
      cases hmeet'.symm.trans hsame
      exact ih hroom hrest'
    | expand hmeet' => cases hmeet'.symm.trans hsame
  | @expand e site fanins p p₁ p₂ p₃ l₁ l₂ hmeet hsite hbelow hrest ihbelow ihrest =>
    have hexpanded : p₁.expanded = p.expanded + 1 := (meet_eq_ok hmeet).expanded_eq
    have hsame := meet_limited limit hnone hmeet
    rcases hroom.eq_or_lt with hfull | hless
    · -- The limit is used up: the node is passed over, and so is all that follows.
      rw [if_pos ⟨rfl, hfull.ge⟩] at hsame
      cases hlimited with
      | expand hmeet' => cases hmeet'.symm.trans hsame
      | pass hmeet' hrest' =>
        cases hmeet'.symm.trans hsame
        obtain ⟨below, hdone, -⟩ := hbelow.exists_cone_eq
        rw [(meet_eq_ok hmeet).cone_eq] at hdone
        have hsublist : p.cone.Sublist (p₂.emit e.node).cone := by
          show p.cone.Sublist (e.node :: p₂.cone)
          rw [hdone]
          exact (List.sublist_append_right below p.cone).cons e.node
        obtain ⟨rfl, hq⟩ :=
          hrest.sublist_of_isFull hrest' (by simp [isFull_limited, hfull]) hsublist
        refine ⟨by simp [hfull], hq, fun hle => ?_⟩
        rw [List.length_cons] at hle
        omega
    · rw [if_neg (by omega)] at hsame
      cases hlimited with
      | pass hmeet' => cases hmeet'.symm.trans hsame
      | @expand _ site' _ _ _ q₂ _ l₁' l₂' hmeet' hsite' hbelow' hrest' =>
        cases hmeet'.symm.trans hsame
        obtain rfl : site = site' := Option.some.inj (hsite.symm.trans hsite')
        obtain ⟨room, rfl⟩ : ∃ room, limit = p₁.expanded + room := ⟨limit - p₁.expanded, by omega⟩
        obtain ⟨htake, hsublist, heq⟩ := ihbelow (Nat.le_add_right _ _) hbelow'
        rw [Nat.add_sub_cancel_left] at htake
        have hexpanded₂ : (p₂.emit e.node).expanded = p₁.expanded + l₁.length := hbelow.expanded_eq
        have hexpanded₂' : (q₂.emit e.node).expanded = p₁.expanded + l₁'.length :=
          hbelow'.expanded_eq
        have hopened : (e.node :: (l₁ ++ l₂)).take (p₁.expanded + room - p.expanded) =
            e.node :: (l₁' ++ l₂.take (room - l₁.length)) := by
          have hsucc : p₁.expanded + room - p.expanded = room + 1 := by omega
          rw [hsucc, List.take_succ_cons, List.take_append, htake]
        rw [hopened, List.length_cons, List.length_append]
        by_cases hfit : l₁.length ≤ room
        · -- Both are in the same place once the node is finished.
          obtain rfl := heq (by omega)
          obtain ⟨htake₂, hsublist₂, heq₂⟩ := ihrest (by omega) hrest'
          have hleft : p₁.expanded + room - (q₂.emit e.node).expanded = room - l₁.length := by
            omega
          rw [htake₂, hleft]
          exact ⟨rfl, hsublist₂, fun hle => heq₂ (by omega)⟩
        · -- The limit is used up below the node, and the rest is passed over.
          have hlength : l₁'.length = room := by
            rw [htake, List.length_take]
            omega
          have hfull : (c.limited (p₁.expanded + room)).isFull (q₂.emit e.node) = true := by
            rw [isFull_limited, hexpanded₂', hlength]
            exact decide_eq_true (Nat.le_refl _)
          obtain ⟨rfl, hq⟩ :=
            hrest.sublist_of_isFull hrest' hfull (hsublist.cons_cons e.node)
          have hnil : room - l₁.length = 0 := by omega
          exact ⟨by rw [hnil, List.take_zero], hq, fun hle => absurd hle (by omega)⟩

theorem Opens.limited (h : c.Opens root marks l p) (hnone : c.limit = none)
    (hlimited : (c.limited limit).Opens root marks l' q) :
    l' = l.take limit ∧ q.cone.Sublist p.cone ∧ (l.length ≤ limit → q = p) := by
  cases h with
  | stay hmeet =>
    have hsame := meet_limited_of_not_below limit hnone hmeet
    cases hlimited with
    | stay hmeet' =>
      cases hmeet'.symm.trans hsame
      exact ⟨List.take_nil.symm, .refl _, fun _ => rfl⟩
    | expand hmeet' => cases hmeet'.symm.trans hsame
  | @expand site p₁ p₂ l₁ hmeet hsite hbelow =>
    have hexpanded : p₁.expanded = 1 := (meet_eq_ok hmeet).expanded_eq
    have hsame := meet_limited limit hnone hmeet
    cases limit with
    | zero =>
      rw [if_pos ⟨rfl, Nat.le_refl _⟩] at hsame
      cases hlimited with
      | expand hmeet' => cases hmeet'.symm.trans hsame
      | stay hmeet' =>
        cases hmeet'.symm.trans hsame
        exact ⟨rfl, List.nil_sublist _, fun hle => absurd hle (Nat.not_succ_le_zero _)⟩
    | succ limit =>
      rw [if_neg (by simp)] at hsame
      cases hlimited with
      | stay hmeet' => cases hmeet'.symm.trans hsame
      | @expand site' _ q₂ l₁' hmeet' hsite' hbelow' =>
        cases hmeet'.symm.trans hsame
        obtain rfl : site = site' := Option.some.inj (hsite.symm.trans hsite')
        obtain ⟨htake, hsublist, heq⟩ := hbelow.limited hnone (by omega) hbelow'
        rw [hexpanded, Nat.add_sub_cancel] at htake
        refine ⟨by rw [htake, List.take_succ_cons], hsublist.cons_cons root, fun hle => ?_⟩
        rw [List.length_cons] at hle
        rw [heq (by omega)]

/-- Whatever the cut limit was, the support is the boundary of the cone. -/
theorem Covered.mem_support_iff (h : c.Covered root [] p) (huse : c.boundaryUse = .listed)
    (hroot : root ∈ p.cone) {v : Nat} :
    v ∈ p.support ↔ v ≠ root ∧ c.Boundary v ∧ ∃ u ∈ p.cone, c.net.Reads u v := by
  constructor
  · intro hv
    obtain ⟨u, hu, hread⟩ := h.read v hv
    refine ⟨?_, h.boundary v hv, u, by simpa using hu, hread⟩
    rintro rfl
    exact h.not_mem_support hroot hv
  · rintro ⟨hne, hboundary, u, hu, hread⟩
    have hcone : v ∉ p.cone := fun hv => (h.dead_of_mem hv hne).not_boundary hboundary
    exact h.mem_support_of_reads huse hu hread hcone fun _ hdead => hdead.not_boundary hboundary

theorem Collects.eq_start (h : c.Collects root marks p)
    (hfull : c.isFull ⟨marks.advance, 0, [], []⟩ = true) : p = ⟨marks.advance, 0, [], []⟩ := by
  cases h with
  | stay hmet =>
    cases hmet with
    | seen | cut => rfl
    | listed _ hatRoot | ignored _ hatRoot => cases hatRoot
  | expand hmet =>
    cases hmet with
    | cone _ _ hroom => simp [hfull] at hroom

/-- What a collection from an internal root lists and marks, a cut limit of zero included. -/
theorem Collects.listed (h : c.Collects root marks p) (hmarks : marks.Bounded)
    (hroot : c.net.Internal root) (huse : c.boundaryUse = .listed) :
    p.support.Nodup ∧
      (∀ v, v ∈ p.support ↔ v ≠ root ∧ c.Boundary v ∧ ∃ u ∈ p.cone, c.net.Reads u v) ∧
      ∀ v, p.marks.isMarked v = true ↔ v ∈ p.cone ∨ v ∈ p.support := by
  cases hfull : c.isFull ⟨marks.advance, 0, [], []⟩ with
  | true =>
    rw [h.eq_start hfull]
    simp [Marks.isMarked_advance hmarks]
  | false =>
    obtain ⟨hcovered, hmem⟩ := h.covered hmarks hroot hfull
    exact ⟨hcovered.nodup_support, fun v => hcovered.mem_support_iff huse hmem,
      fun v => hcovered.isMarked_iff⟩

end Collection

namespace Network

/-- Whether a node is a leaf or has a parent, so that a cone below another node ends at it. -/
def Bounds (net : Network) (counts : FanoutCounts) (v : Nat) : Prop :=
  (∃ site, net.site? v = some site ∧ site.kind = .leaf) ∨ 0 < counts.parents v

/-- How what is collected from `root` under a cut limit relates to what is collected without one.
`opened` are the nodes that the collection without one goes below, in that order. -/
structure Truncates (net : Network) (counts : FanoutCounts) (root limit : Nat) (opened : List Nat)
    (full cut : Cone) : Prop where
  length_eq : cut.nodes.length = min limit full.nodes.length
  sublist : cut.nodes.Sublist full.nodes
  opened_perm : opened.Perm full.nodes
  first_opened : cut.nodes.Perm (opened.take (min limit full.nodes.length))
  root_last : 1 ≤ limit → cut.nodes.getLast? = some root
  support_nodup : cut.support.Nodup
  mem_support_iff : ∀ v, v ∈ cut.support ↔
    v ≠ root ∧ net.Bounds counts v ∧ ∃ u ∈ cut.nodes, net.Reads u v

end Network

/-- A collection under a cut limit against the one without. In a network whose fanins are all in
range, cyclic or not, over any counts and over marks none of which exceeds the generation, both
end, in either traversal. The one with the limit finds the first nodes that the other goes below,
in the other's order, with the boundary of these nodes as their support. What else they read is
neither listed nor marked, and a limit that is large enough changes nothing. -/
theorem collectCone_truncates {net : Network} {root : Nat} {s : Stores}
    (hcounts : net.Closed s.counts.size) (hmarks : net.Closed s.marks.size)
    (hbounded : s.marks.Bounded) (hroot : net.Internal root) (traversal : Traversal)
    (limit : Nat) :
    ∃ opened full cut s₁ s₂,
      Collection.logRun ⟨net, s.counts, .listed, none⟩ traversal root s.marks =
        .ok (opened, full, s₁.marks) ∧
      collectCone none traversal net root s = .ok (full, s₁) ∧
      collectCone (some limit) traversal net root s = .ok (cut, s₂) ∧
      net.Truncates s.counts root limit opened full cut ∧
      (∀ u ∈ cut.nodes, ∀ v, net.Reads u v → v ∉ cut.nodes → ¬ net.Bounds s.counts v →
        v ∉ cut.support ∧ s₂.marks.isMarked v = false) ∧
      (full.nodes.length ≤ limit → cut = full ∧ s₂ = s₁) := by
  obtain ⟨full, s₁, hfull, -⟩ := exists_collectCone none traversal hcounts hmarks hroot.present
  obtain ⟨cut, s₂, hcut, -⟩ :=
    exists_collectCone (some limit) traversal hcounts hmarks hroot.present
  obtain ⟨opened, p, hlog, hopens, rfl, rfl⟩ := collectFrom_opens (collectCone_eq_ok hroot hfull)
  obtain ⟨first, q, -, hopens', rfl, rfl⟩ := collectFrom_opens (collectCone_eq_ok hroot hcut)
  obtain ⟨htake, hsublist, heq⟩ := hopens.limited rfl hopens'
  have hlength : p.cone.length = opened.length := hopens.perm_cone.length_eq
  have hmin : opened.take (min limit p.cone.length) = first := by
    rw [htake, hlength, ← List.take_eq_take_min]
  obtain ⟨hnodup, hmem, hmarked⟩ := hopens'.collects.listed hbounded hroot rfl
  refine ⟨opened, _, _, _, _, hlog, hfull, hcut, ⟨?_, hsublist.reverse, ?_, ?_, fun hpos => ?_,
    List.nodup_reverse.2 hnodup, fun v => ?_⟩, fun u hu v hread hv hbounds => ?_, fun hle => ?_⟩
  · rw [List.length_reverse, List.length_reverse, hopens'.perm_cone.length_eq, htake, hlength,
      List.length_take]
  · exact (hopens.perm_cone.symm).trans (List.reverse_perm _).symm
  · rw [List.length_reverse, hmin]
    exact (List.reverse_perm _).trans hopens'.perm_cone
  · have hroom : Collection.isFull ⟨net, s.counts, .listed, some limit⟩
        ⟨s.marks.advance, 0, [], []⟩ = false := decide_eq_false (by dsimp only; omega)
    obtain ⟨-, hq⟩ := hopens'.collects.covered hbounded hroot hroom
    rw [List.getLast?_reverse, hopens'.collects.head?_cone hq]
  · simp only [List.mem_reverse]
    exact hmem v
  · have hsupport : v ∉ q.support := fun hsupport => hbounds ((hmem v).1 hsupport).2.1
    simp only [List.mem_reverse] at hv ⊢
    refine ⟨hsupport, Bool.eq_false_iff.2 fun hmark => ?_⟩
    exact ((hmarked v).1 hmark).elim hv hsupport
  · rw [List.length_reverse, hlength] at hle
    rw [heq hle]
    exact ⟨rfl, rfl⟩

/-- A gate over two dead gates, one of which reads the other, and over a leaf. -/
def staircase : FaninTable :=
  .ofRows [(.leaf, []), (.leaf, []), (.internal, [⟨0, true⟩]),
    (.internal, [⟨2, false⟩, ⟨1, true⟩]), (.internal, [⟨3, false⟩, ⟨2, true⟩, ⟨0, false⟩])]
    [2, 1, 0, 0, 0]

/-- Node 2 is passed over twice, and the leaf that it would have listed first comes last. -/
theorem collectCone_truncates_staircase :
    ∃ s₁ s₂ : Stores,
      Collection.logRun ⟨FaninTable.networkOf staircase.rows, staircase.stores.counts, .listed,
        none⟩ .recursive 4 staircase.stores.marks = .ok ([4, 3, 2], ⟨[2, 3, 4], [0, 1]⟩, s₁.marks) ∧
      collectCone (some 2) .recursive (FaninTable.networkOf staircase.rows) 4 staircase.stores =
        .ok (⟨[3, 4], [1, 0]⟩, s₂) ∧
      (FaninTable.networkOf staircase.rows).Truncates staircase.stores.counts 4 2 [4, 3, 2]
        ⟨[2, 3, 4], [0, 1]⟩ ⟨[3, 4], [1, 0]⟩ ∧
      s₂.marks.isMarked 2 = false := by
  have hclosed : (FaninTable.networkOf staircase.rows).Closed 5 :=
    FaninTable.closed_networkOf (by decide)
  obtain ⟨opened, full, cut, s₁, s₂, hlog, -, hcut, htruncates, hunmarked, -⟩ :=
    @collectCone_truncates (FaninTable.networkOf staircase.rows) 4 staircase.stores hclosed hclosed
      (Marks.bounded_empty.grow 5) ⟨_, rfl, rfl⟩ .recursive 2
  have hlogs : Collection.logRun ⟨FaninTable.networkOf staircase.rows, staircase.stores.counts,
      .listed, none⟩ .recursive 4 staircase.stores.marks =
      .ok ([4, 3, 2], ⟨[2, 3, 4], [0, 1]⟩, ⟨2, #[2, 2, 2, 2, 2]⟩) := by rfl
  have hruns : collectCone (some 2) .recursive (FaninTable.networkOf staircase.rows) 4
      staircase.stores = .ok (⟨[3, 4], [1, 0]⟩, ⟨staircase.stores.counts, ⟨2, #[2, 2, 0, 2, 2]⟩⟩) :=
    by rfl
  obtain ⟨rfl, hfound⟩ := Prod.mk.inj (Except.ok.inj (hlogs.symm.trans hlog))
  obtain ⟨rfl, -⟩ := Prod.mk.inj hfound
  obtain ⟨rfl, -⟩ := Prod.mk.inj (Except.ok.inj (hruns.symm.trans hcut))
  have hread : (FaninTable.networkOf staircase.rows).Reads 3 2 := List.mem_cons_self
  have hbounds : ¬ (FaninTable.networkOf staircase.rows).Bounds staircase.stores.counts 2 := by
    rintro (⟨site, hsite, hkind⟩ | hpos)
    · cases hsite
      cases hkind
    · exact absurd hpos (by decide)
  exact ⟨s₁, s₂, hlog, hcut, htruncates,
    (hunmarked 3 List.mem_cons_self 2 hread (by decide) hbounds).2⟩

end FanoutCone
