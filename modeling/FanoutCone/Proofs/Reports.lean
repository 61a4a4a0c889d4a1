import FanoutCone.Report
import FanoutCone.Proofs.Drawings
import FanoutCone.Proofs.FittingStores
import FanoutCone.Proofs.LoadedNames
import FanoutCone.Proofs.StableCopy

/-!
# Reports

A report asks for one cone after another over the same stores, and finds what a
query alone would find. So its lines are those of the gates whose cones are large
enough, in index order. It never breaks off: the counts of a loaded graph pass
their audit, every query on it returns, and it can be copied and drawn.
-/
namespace FanoutCone.Report

variable {net : Network} {ext : Nat → Nat} {s s' : Stores} {settings : ConeSettings}
variable {gates : List Nat} {found : Nat → Cone} {aig : Aig} {n : Nat}

/-- The cones of gates, asked for one after another in any traversal, are those that each gate has
over the first stores. -/
theorem cones_eq (h : net.Fits ext s) (hkept : s.Kept s')
    (hfound : ∀ n ∈ gates, ∃ t, maximumCone settings net n s = .ok (found n, t))
    (traversal : Traversal) :
    cones { settings with traversal := traversal } net gates s' =
      .ok (gates.map fun n => (n, found n)) := by
  induction gates generalizing s' with
  | nil => rfl
  | cons n gates ih =>
    obtain ⟨⟨t, hn⟩, hgates⟩ := List.forall_mem_cons.1 hfound
    obtain ⟨t', hn'⟩ := h.maximumCone_of_kept hkept hn traversal
    have hfits := h.of_kept hkept
    have hkept' := maximumCone_kept hfits.counts hfits.marks hn'
    rw [cones, hn', ok_bind]
    dsimp only
    rw [ih (hkept.trans hkept') hgates]
    rfl

/-- Which cone is the largest, that of the last gate among equals. -/
inductive Largest (gates : List Nat) (found : Nat → Cone) : List Nat → Prop
  | none : gates = [] → Largest gates found []
  | last {n : Nat} : n ∈ gates →
      (∀ m ∈ gates, (found m).nodes.length < (found n).nodes.length ∨
        (found m).nodes.length = (found n).nodes.length ∧ m ≤ n) →
      Largest gates found (found n).nodes

/-- The nodes of the largest cone are those of a cone. -/
theorem Largest.exists_of_mem {highlighted : List Nat} (h : Largest gates found highlighted)
    (hn : n ∈ highlighted) : ∃ m ∈ gates, n ∈ (found m).nodes := by
  cases h with
  | none => cases hn
  | last hm => exact ⟨_, hm, hn⟩

theorem largest_largestCone (hsorted : gates.Pairwise (· < ·)) :
    Largest gates found (largestCone (gates.map fun n => (n, found n))) := by
  -- The fold looks at the last gate last, so the induction takes it off.
  induction gates using List.reverseRecOn with
  | nil => exact .none rfl
  | append_singleton front k ih =>
    obtain ⟨hfront, -, hlast⟩ := List.pairwise_append.1 hsorted
    have hlt : ∀ m ∈ front, m < k := fun m hm => hlast m hm k List.mem_cons_self
    have hstep : largestCone ((front ++ [k]).map fun n => (n, found n)) =
        if (largestCone (front.map fun n => (n, found n))).length ≤ (found k).nodes.length then
          (found k).nodes
        else largestCone (front.map fun n => (n, found n)) := by
      rw [largestCone, List.map_append, List.foldl_append]
      rfl
    rw [hstep]
    have hprev := ih hfront
    generalize largestCone (front.map fun n => (n, found n)) = best at hprev
    by_cases hle : best.length ≤ (found k).nodes.length
    · rw [if_pos hle]
      refine .last (List.mem_append_right front List.mem_cons_self) fun m hm => ?_
      rcases List.mem_append.1 hm with hm | hm
      · cases hprev with
        | none hnil =>
          subst hnil
          cases hm
        | last hn hlargest =>
          have hlt := hlt m hm
          rcases hlargest m hm with hless | ⟨hsame, -⟩ <;> omega
      · obtain rfl := List.mem_singleton.1 hm
        exact Or.inr ⟨rfl, Nat.le_refl m⟩
    · rw [if_neg hle]
      cases hprev with
      | none hnil => exact absurd (Nat.zero_le _) hle
      | last hn hlargest =>
        refine .last (List.mem_append_left [k] hn) fun m hm => ?_
        rcases List.mem_append.1 hm with hm | hm
        · exact hlargest m hm
        · obtain rfl := List.mem_singleton.1 hm
          exact Or.inl (Nat.not_le.1 hle)

theorem newline_notMem_toString (k : Nat) : '\n' ∉ (toString k).toList := by
  simp only [Nat.toString_eq_repr, Nat.toList_repr]
  exact Aiger.notMem_numeral rfl k

section Lines

variable (hnames : ∀ n name, aig.name? n = some name → '\n' ∉ name.toList)
include hnames

theorem newline_notMem_label (n : Nat) : '\n' ∉ (label aig n).toList := by
  unfold label
  cases hname : aig.name? n with
  | none =>
    have hindex := newline_notMem_toString n
    simpa [Node.text] using hindex
  | some name => exact hnames n name hname

/-- Names without newlines make lines without newlines. -/
theorem newline_notMem_line (n : Nat) (cone : Cone) : '\n' ∉ (line aig n cone).toList := by
  have hlabels : '\n' ∉ (" ".intercalate (cone.nodes.map (label aig))).toList := by
    intro hmem
    rw [String.toList_intercalate] at hmem
    rcases Aiger.mem_intercalate hmem with heq | ⟨piece, hpiece, hmem⟩
    · cases heq
    · rw [List.map_map] at hpiece
      obtain ⟨v, -, rfl⟩ := List.mem_map.1 hpiece
      exact newline_notMem_label hnames v hmem
  have hlabel := newline_notMem_label hnames n
  have hsupport := newline_notMem_toString cone.support.length
  have hnodes := newline_notMem_toString cone.nodes.length
  unfold line
  simp only [String.toList_append, List.mem_append, not_or]
  exact ⟨⟨⟨⟨⟨⟨⟨⟨by decide, hlabel⟩, by decide⟩, hsupport⟩, by decide⟩, hnodes⟩, by decide⟩,
    hlabels⟩, by decide⟩

/-- Each gate that is written about has a line of its own. -/
theorem textLines_linesAbout (found : Nat → Cone) (gates : List Nat) :
    textLines (String.join (gates.map fun n => line aig n (found n) ++ "\n")) =
      gates.map fun n => (line aig n (found n)).toList := by
  have hlines : ∀ text ∈ gates.map (fun n => line aig n (found n)), '\n' ∉ text.toList := by
    intro text htext
    obtain ⟨n, -, rfl⟩ := List.mem_map.1 htext
    exact newline_notMem_line hnames n (found n)
  have htext := textLines_join hlines
  rwa [List.map_map, List.map_map] at htext

end Lines

theorem pairwise_ands (aig : Aig) : aig.ands.Pairwise (· < ·) :=
  List.pairwise_lt_range.filter _

/-- Whether `found` are the cones that the gates of a graph have one by one. -/
def Finds (settings : ConeSettings) (aig : Aig) (found : Nat → Cone) : Prop :=
  ∀ n ∈ aig.ands, ∃ s, maximumCone settings aig.network n aig.stores = .ok (found n, s)

theorem exists_finds (haig : aig.Sound) (settings : ConeSettings) :
    ∃ found, Finds settings aig found := by
  have hreturns : ∀ n, ∃ cone, n ∈ aig.ands → ∃ s,
      maximumCone settings aig.network n aig.stores = .ok (cone, s) := by
    intro n
    by_cases hn : n ∈ aig.ands
    · have hpresent := (Aig.hasCone_of_mem_ands hn).internal.present
      obtain ⟨cone, s, hcone, -⟩ := haig.fits.exists_maximumCone settings hpresent
      exact ⟨cone, fun _ => ⟨s, hcone⟩⟩
    · exact ⟨.empty, fun h => absurd h hn⟩
  choose found hfound using hreturns
  exact ⟨found, hfound⟩

/-- A copy of the graph has the nodes of every cone. -/
theorem Finds.present {g : StableAig} {m : Nat} (h : Finds settings aig found)
    (haig : aig.Sound) (hcopies : StableAig.Copies aig g) (hm : m ∈ aig.ands)
    (hn : n ∈ (found m).nodes) : g.Present n := by
  obtain ⟨s, hs⟩ := h m hm
  obtain ⟨site, hsite⟩ := present_of_mem_maximumCone (Aig.hasCone_of_mem_ands hm) hs hn
  exact (hcopies.packed.present_iff n).2 ((haig.shaped.closed rfl).1 hsite)

def withCones (options : ReportOptions) (aig : Aig) (found : Nat → Cone) (g : StableAig) :
    Report where
  text := String.join ((aig.ands.filter fun n => options.minSize ≤ (found n).nodes.length).map
    fun n => line aig n (found n) ++ "\n")
  drawing :=
    if options.draw then some (Dot.render g (largestCone (aig.ands.map fun n => (n, found n))))
    else none

theorem ofAig_eq_ok {options : ReportOptions} {g : StableAig} (haig : aig.Sound)
    (hfound : Finds options.settings aig found) (hcopy : StableAig.ofAig aig = .ok g)
    (traversal : Traversal) :
    ofAig { options with settings := { options.settings with traversal := traversal } } aig =
      .ok (withCones options aig found g) := by
  have hcones := cones_eq haig.fits (.refl aig.stores) hfound traversal
  have hshown : (aig.ands.map fun n => (n, found n)).filter
      (fun f => options.minSize ≤ f.2.nodes.length) =
      (aig.ands.filter fun n => options.minSize ≤ (found n).nodes.length).map
        fun n => (n, found n) := List.filter_map
  rw [ofAig, hcones, ok_bind]
  dsimp only
  rw [hshown, List.map_map, withCones]
  cases options.draw with
  | false => rfl
  | true =>
    rw [if_pos rfl, hcopy]
    rfl

/-- What a report on a graph says, where `found` are the cones of its gates. -/
structure Describes (options : ReportOptions) (aig : Aig) (found : Nat → Cone) (report : Report) :
    Prop where
  /-- Each cone is the one that a single query on the graph finds. -/
  alone : ∀ n ∈ aig.ands, ∃ aig',
    Container.query (fun net s => maximumCone options.settings net n s) aig = .ok (found n, aig')
  /-- There is one line for each gate with a cone that is large enough, in index order. -/
  text : ∃ (shown : List Nat) (called written : Nat → String), shown.Pairwise (· < ·) ∧
    (∀ n, n ∈ shown ↔ (∃ left right, aig.nodes[n]? = some (.and left right)) ∧
      options.minSize ≤ (found n).nodes.length) ∧
    (∀ n, called n = aig.names[n]?.getD ("n" ++ toString n)) ∧
    (∀ n, written n = "Node = " ++ called n ++ " : Supp = " ++
      toString (found n).support.length ++ "  Cone = " ++ toString (found n).nodes.length ++
      "  ( " ++ " ".intercalate ((found n).nodes.map called) ++ " )") ∧
    report.text = String.join (shown.map fun n => written n ++ "\n") ∧
    textLines report.text = shown.map fun n => (written n).toList
  undrawn : options.draw = false → report.drawing = none
  /-- The drawing fills the nodes of the largest cone and no others. -/
  drawn : options.draw = true → ∃ drawing g highlighted, report.drawing = some drawing ∧
    StableAig.ofAig aig = .ok g ∧ drawing = Dot.render g highlighted ∧
    Largest aig.ands found highlighted ∧ ∀ n, Dot.Fills drawing n ↔ n ∈ highlighted

theorem describes_withCones {options : ReportOptions} {g : StableAig} (haig : aig.Sound)
    (hnames : ∀ n name, aig.name? n = some name → '\n' ∉ name.toList)
    (hfound : Finds options.settings aig found) (hcopy : StableAig.ofAig aig = .ok g)
    (hcopies : StableAig.Copies aig g) :
    Describes options aig found (withCones options aig found g) where
  alone n hn := by
    obtain ⟨s, hs⟩ := hfound n hn
    exact ⟨_, Aig.query_of_eq_ok (f := fun net s => maximumCone options.settings net n s) hs⟩
  text := by
    refine ⟨_, label aig, fun n => line aig n (found n), (pairwise_ands aig).filter _,
      fun n => ?_, fun _ => rfl, fun _ => rfl, rfl, textLines_linesAbout hnames _ _⟩
    rw [List.mem_filter, Aig.mem_ands, decide_eq_true_iff]
  undrawn hdraw := by simp [withCones, hdraw]
  drawn hdraw := by
    have hlargest : Largest aig.ands found _ := largest_largestCone (pairwise_ands aig)
    refine ⟨_, g, _, if_pos hdraw, hcopy, rfl, hlargest, fun n => Dot.fills_render_iff ?_⟩
    intro n hn
    obtain ⟨m, hm, hn⟩ := hlargest.exists_of_mem hn
    exact hfound.present haig hcopies hm hn

/-- A graph is reported on without fail, and alike in any traversal. -/
theorem exists_ofAig (haig : aig.Sound)
    (hnames : ∀ n name, aig.name? n = some name → '\n' ∉ name.toList) (options : ReportOptions) :
    ∃ found report, Describes options aig found report ∧ ∀ traversal,
      ofAig { options with settings := { options.settings with traversal := traversal } } aig =
        .ok report := by
  obtain ⟨found, hfound⟩ := exists_finds haig options.settings
  obtain ⟨g, hcopy, hcopies⟩ := StableAig.exists_ofAig haig
  exact ⟨found, _, describes_withCones haig hnames hfound hcopy hcopies,
    ofAig_eq_ok haig hfound hcopy⟩

theorem ofFile_of_error {options : ReportOptions} {bytes : List UInt8} {failure : LoadFailure}
    (h : Aiger.load bytes = .error failure) : ofFile options (.bytes bytes) = .error failure := by
  rw [ofFile, Aiger.loadFile, h]
  rfl

/-- Nothing breaks off after a file has been loaded. -/
theorem exists_ofFile {bytes : List UInt8} (h : Aiger.load bytes = .ok aig)
    (options : ReportOptions) :
    ∃ found report, Describes options aig found report ∧ ∀ traversal,
      ofFile { options with settings := { options.settings with traversal := traversal } }
        (.bytes bytes) = .ok report := by
  have haig := Aig.sound_of_load h
  obtain ⟨found, report, hdescribes, hreport⟩ :=
    exists_ofAig haig (fun _ _ => Aiger.newline_notMem_of_load h) options
  refine ⟨found, report, hdescribes, fun traversal => ?_⟩
  have haudit := Aig.auditCounts_eq_ok_iff.2 (Aig.recount_of_ahead haig.counts haig.shaped)
  rw [ofFile, Aiger.loadFile, h, ok_bind, haudit, ok_bind]
  rw [hreport]
  rfl

end FanoutCone.Report
