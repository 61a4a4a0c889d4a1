import FanoutCone.Main
import FanoutCone.Proofs.Reports

/-!
# From the command line to the report

Options that are spelled out with a file are read as they were meant. What
follows is up to the loading of the file alone: a file that is rejected is the
only reason to exit with one, and every other file that loads is reported on.

A run of the program opens and reads the file and then does what the request
comes to. It ends where each thing to do ends, one after another, so what it has
printed and written is what the outcome says.
-/
namespace FanoutCone.CommandLine

/-- The options of a command line, each given or not. -/
structure Flags where
  cut : Option Nat := none
  minSize : Option Nat := none
  stop : Bool := false
  iterative : Bool := false
  verbose : Bool := false
  dot : Option String := none

/-- The arguments that spell out an option with a value. -/
def spellValue (option : String) : Option String → List String
  | some value => [option, value]
  | none => []

/-- The arguments that spell out an option without a value. -/
def spellSwitch (option : String) (given : Bool) : List String := if given then [option] else []

namespace Flags

/-- The arguments that name a file and spell out the options. -/
def arguments (flags : Flags) (file : String) : List String :=
  file :: (spellValue "--cut" (flags.cut.map toString) ++
    (spellValue "--min-size" (flags.minSize.map toString) ++
      (spellSwitch "--stop-at-complement" flags.stop ++
        (spellSwitch "--iterative" flags.iterative ++
          (spellSwitch "--verbose" flags.verbose ++ spellValue "--dot" flags.dot)))))

def options (flags : Flags) : ReportOptions where
  settings :=
    { filter := if flags.stop then .uncomplemented else .all
      traversal := if flags.iterative then .iterative else .recursive
      cutLimit := flags.cut }
  minSize := flags.minSize.getD 1
  draw := flags.dot.isSome

/-- Whether the numbers among the options fit in 64 bits. -/
structure Fit (flags : Flags) : Prop where
  cut : ∀ k ∈ flags.cut, k < Aiger.valueLimit
  minSize : ∀ k ∈ flags.minSize, k < Aiger.valueLimit

end Flags

namespace Request

variable {args : List String} {r : Request} {k : Nat} {flags : Flags} {file : String}

theorem readNumber_repr (hk : k < Aiger.valueLimit) (option : String) :
    readNumber option k.repr = .ok k := by
  have hread : Aiger.readNumeral k.repr.toList = some k := by
    rw [Nat.toList_repr]
    exact Aiger.readNumeral_numeral hk
  rw [readNumber, hread]

def spellings : List String :=
  ["-s", "--stop-at-complement", "-i", "--iterative", "-v", "--verbose", "-c", "--cut", "-m",
    "--min-size", "-d", "--dot"]

theorem startsWith_of_mem_spellings : ∀ option ∈ spellings, option.startsWith "-" = true := by
  decide +kernel

/-- What does not start like an option is the file. -/
theorem read_file (hfile : file.startsWith "-" = false) (hnone : r.file = none) :
    read (file :: args) r = read args { r with file := some file } := by
  have hne : ∀ option ∈ spellings, file ≠ option := by
    rintro option hoption rfl
    cases hfile.symm.trans (startsWith_of_mem_spellings file hoption)
  simp only [spellings, List.forall_mem_cons] at hne
  rw [read.eq_def]
  simp [hne, hfile, hnone]

theorem read_cut {cut : Option Nat} (hcut : ∀ k ∈ cut, k < Aiger.valueLimit) :
    read (spellValue "--cut" (cut.map toString) ++ args) r =
      read args { r with options := { r.options with
        settings := { r.options.settings with
          cutLimit := cut.or r.options.settings.cutLimit } } } := by
  cases cut with
  | none => rfl
  | some k =>
    have hread := readNumber_repr (hcut k rfl) "--cut"
    rw [Option.map_some, spellValue, List.cons_append, List.singleton_append, read.eq_def]
    simp [hread]

theorem read_minSize {minSize : Option Nat} (hminSize : ∀ k ∈ minSize, k < Aiger.valueLimit) :
    read (spellValue "--min-size" (minSize.map toString) ++ args) r =
      read args { r with options := { r.options with
        minSize := minSize.getD r.options.minSize } } := by
  cases minSize with
  | none => rfl
  | some k =>
    have hread := readNumber_repr (hminSize k rfl) "--min-size"
    rw [Option.map_some, spellValue, List.cons_append, List.singleton_append, read.eq_def]
    simp [hread]

theorem read_stop (stop : Bool) :
    read (spellSwitch "--stop-at-complement" stop ++ args) r =
      read args { r with options := { r.options with
        settings := { r.options.settings with
          filter := if stop then .uncomplemented else r.options.settings.filter } } } := by
  cases stop with
  | false => rfl
  | true =>
    rw [spellSwitch, if_pos rfl, List.singleton_append, read.eq_def]
    simp

theorem read_iterative (iterative : Bool) :
    read (spellSwitch "--iterative" iterative ++ args) r =
      read args { r with options := { r.options with
        settings := { r.options.settings with
          traversal := if iterative then .iterative else r.options.settings.traversal } } } := by
  cases iterative with
  | false => rfl
  | true =>
    rw [spellSwitch, if_pos rfl, List.singleton_append, read.eq_def]
    simp

theorem read_verbose (verbose : Bool) :
    read (spellSwitch "--verbose" verbose ++ args) r = read args r := by
  cases verbose with
  | false => rfl
  | true =>
    rw [spellSwitch, if_pos rfl, List.singleton_append, read.eq_def]
    simp

theorem read_dot (dot : Option String) :
    read (spellValue "--dot" dot) r =
      .ok { r with
        dot := dot.or r.dot
        options := { r.options with draw := dot.isSome || r.options.draw } } := by
  cases dot with
  | none => rfl
  | some path =>
    rw [spellValue, read.eq_def]
    simp [read]

/-- Spelled out, options are read as they were meant. -/
theorem read_arguments (hflags : flags.Fit) (hfile : file.startsWith "-" = false) :
    read (flags.arguments file) {} = .ok ⟨some file, flags.dot, flags.options⟩ := by
  rw [Flags.arguments, read_file hfile rfl, read_cut hflags.cut, read_minSize hflags.minSize,
    read_stop, read_iterative, read_verbose, read_dot]
  simp [Flags.options]

end Request

section Performed
variable {α β : Type} {w w' : Void IO.RealWorld} {outcome : Outcome} {code : UInt32}
variable {path : String} {bytes : List UInt8}

theorem bind_world_eq_ok_iff {x : IO α} {f : α → IO β} {b : β} :
    (x >>= f) w = .ok b w' ↔ ∃ a w₁, x w = .ok a w₁ ∧ f a w₁ = .ok b w' := by
  change EST.bind x f w = _ ↔ _
  unfold EST.bind
  cases x w with
  | ok a w₁ => simp
  | error e w₁ => simp

theorem pure_world_eq_ok_iff {a b : α} :
    (pure a : IO α) w = .ok b w' ↔ b = a ∧ w = w' := by
  change EST.Out.ok a w = _ ↔ _
  rw [EST.Out.ok.injEq, eq_comm]

theorem tryCatch_world_eq_ok {x : IO α} {recover : IO.Error → IO α} {a : α} (h : x w = .ok a w') :
    (tryCatch x recover) w = .ok a w' := by
  change EST.tryCatch x recover w = _
  unfold EST.tryCatch
  rw [h]

/-- Whether a file can be opened and is then read as the given bytes, from one state of the world to
another. -/
def Holds (path : String) (w : Void IO.RealWorld) (bytes : List UInt8) (w' : Void IO.RealWorld) :
    Prop :=
  ∃ handle w₁ content, IO.FS.Handle.mk path .read w = .ok handle w₁ ∧
    IO.FS.Handle.readBinToEnd handle w₁ = .ok content w' ∧ content.toList = bytes

theorem readFile_of_holds (h : Holds path w bytes w') :
    readFile path w = .ok (.bytes bytes) w' := by
  obtain ⟨handle, w₁, content, hopen, hread, rfl⟩ := h
  have hhandle : readHandle handle w₁ = .ok (.bytes content.toList) w' :=
    tryCatch_world_eq_ok (bind_world_eq_ok_iff.2
      ⟨content, w', hread, pure_world_eq_ok_iff.2 ⟨rfl, rfl⟩⟩)
  exact tryCatch_world_eq_ok (bind_world_eq_ok_iff.2 ⟨handle, w₁, hopen, hhandle⟩)

/-- What was done when an outcome was performed, from one state of the world to another. -/
inductive Performed : Outcome → Void IO.RealWorld → Void IO.RealWorld → Prop
  | printed {text : String} {w w' : Void IO.RealWorld} : IO.print text w = .ok () w' →
      Performed (.reported text none) w w'
  | drawn {text path dot : String} {w w₁ w' : Void IO.RealWorld} : IO.print text w = .ok () w₁ →
      IO.FS.writeFile path dot w₁ = .ok () w' → Performed (.reported text (some (path, dot))) w w'
  | complained {code : UInt32} {complaint : String} {w w' : Void IO.RealWorld} :
      IO.eprintln complaint w = .ok () w' → Performed (.failed code complaint) w w'

/-- Performing an outcome ends with its exit code, when everything is done. -/
theorem perform_eq_ok_iff :
    outcome.perform w = .ok code w' ↔ code = outcome.exitCode ∧ Performed outcome w w' := by
  cases outcome with
  | reported text drawing =>
    cases drawing with
    | none =>
      refine bind_world_eq_ok_iff.trans ⟨?_, ?_⟩
      · rintro ⟨⟨⟩, w₁, hprint, hcode⟩
        obtain ⟨rfl, rfl⟩ := pure_world_eq_ok_iff.1 hcode
        exact ⟨rfl, .printed hprint⟩
      · rintro ⟨rfl, ⟨hprint⟩⟩
        exact ⟨(), _, hprint, pure_world_eq_ok_iff.2 ⟨rfl, rfl⟩⟩
    | some drawing =>
      obtain ⟨path, dot⟩ := drawing
      refine bind_world_eq_ok_iff.trans ⟨?_, ?_⟩
      · rintro ⟨⟨⟩, w₁, hprint, hrest⟩
        obtain ⟨⟨⟩, w₂, hwrite, hcode⟩ := bind_world_eq_ok_iff.1 hrest
        obtain ⟨rfl, rfl⟩ := pure_world_eq_ok_iff.1 hcode
        exact ⟨rfl, .drawn hprint hwrite⟩
      · rintro ⟨rfl, ⟨⟩ | ⟨hprint, hwrite⟩⟩
        exact ⟨(), _, hprint, bind_world_eq_ok_iff.2
          ⟨(), _, hwrite, pure_world_eq_ok_iff.2 ⟨rfl, rfl⟩⟩⟩
  | failed code' complaint =>
    refine bind_world_eq_ok_iff.trans ⟨?_, ?_⟩
    · rintro ⟨⟨⟩, w₁, hprint, hcode⟩
      obtain ⟨rfl, rfl⟩ := pure_world_eq_ok_iff.1 hcode
      exact ⟨rfl, .complained hprint⟩
    · rintro ⟨rfl, ⟨⟩ | ⟨⟩ | ⟨hprint⟩⟩
      exact ⟨(), _, hprint, pure_world_eq_ok_iff.2 ⟨rfl, rfl⟩⟩

end Performed

namespace Flags

def request (flags : Flags) (file : String) : Request := ⟨some file, flags.dot, flags.options⟩

/-- What the program comes to when the file holds the given bytes. -/
def outcome (flags : Flags) (file : String) (bytes : List UInt8) : Outcome :=
  (flags.request file).outcome file (.bytes bytes)

end Flags

/-- What a run on a file that was read comes to. -/
structure Settled (flags : Flags) (file : String) (bytes : List UInt8) : Prop where
  exits_zero_iff : (flags.outcome file bytes).exitCode = 0 ↔ ∃ aig, Aiger.load bytes = .ok aig
  exits_one_iff : (flags.outcome file bytes).exitCode = 1 ↔
    ∃ e, Aiger.load bytes = .error (.rejected e)
  complains : ∀ e, Aiger.load bytes = .error (.rejected e) →
    flags.outcome file bytes = .failed 1 (file ++ ": " ++ e.message)
  /-- Nothing fails but the loading. -/
  fails_iff : ∀ failure, Report.ofFile flags.options (.bytes bytes) = .error failure ↔
    Aiger.load bytes = .error failure
  /-- The text of the report is printed, and its drawing is written to the path that was given. -/
  describes : ∀ aig, Aiger.load bytes = .ok aig → ∃ found report drawing,
    flags.outcome file bytes = .reported report.text drawing ∧
      (∀ path dot, drawing = some (path, dot) ↔
        flags.dot = some path ∧ report.drawing = some dot) ∧
      Report.Describes flags.options aig found report
  /-- The kind of walk makes no difference. -/
  iterative_eq : ∀ iterative,
    { flags with iterative := iterative : Flags }.outcome file bytes = flags.outcome file bytes

section
variable {flags : Flags} {file : String} {bytes : List UInt8}

theorem settled_of_error {failure : LoadFailure} (h : Aiger.load bytes = .error failure) :
    Settled flags file bytes := by
  have hfile : ∀ options, Report.ofFile options (.bytes bytes) = .error failure :=
    fun _ => Report.ofFile_of_error h
  have houtcome : ∀ flags : Flags, flags.outcome file bytes = .ofFailure file failure := by
    intro flags
    rw [Flags.outcome, Request.outcome, hfile]
  refine ⟨?_, ?_, ?_, ?_, ?_, ?_⟩
  · rw [houtcome, h]
    cases failure <;> simp [Outcome.ofFailure, Outcome.exitCode]
  · rw [houtcome, h]
    cases failure <;> simp [Outcome.ofFailure, Outcome.exitCode]
  · rintro e he
    cases h.symm.trans he
    exact houtcome flags
  · simp [hfile, h]
  · simp [h]
  · intro iterative
    rw [houtcome, houtcome]

theorem settled_of_ok {aig : Aig} (h : Aiger.load bytes = .ok aig) :
    Settled flags file bytes := by
  obtain ⟨found, report, hdescribes, hreport⟩ := Report.exists_ofFile h flags.options
  have houtcome : ∀ iterative, { flags with iterative := iterative : Flags }.outcome file bytes =
      .reported report.text do return (← flags.dot, ← report.drawing) := by
    intro iterative
    have hfile : Report.ofFile { flags with iterative := iterative : Flags }.options
        (.bytes bytes) = .ok report := hreport _
    rw [Flags.outcome, Request.outcome, Flags.request, hfile]
  have hown := houtcome flags.iterative
  refine ⟨?_, ?_, ?_, ?_, ?_, ?_⟩
  · simp [hown, h, Outcome.exitCode]
  · simp [hown, h, Outcome.exitCode]
  · simp [h]
  · have hfile : Report.ofFile flags.options (.bytes bytes) = .ok report :=
      hreport flags.options.settings.traversal
    simp [hfile, h]
  · rintro aig' h'
    cases h.symm.trans h'
    refine ⟨found, report, _, hown, fun path dot => ?_, hdescribes⟩
    cases flags.dot <;> cases report.drawing <;> simp
  · exact fun iterative => (houtcome iterative).trans hown.symm

end

/-- What a run comes to for any options and any bytes in the file. The arguments are read as they
were meant, and the program ends with the exit code of the outcome once that is performed. The exit
code is zero if and only if the bytes load, and one if and only if they are rejected; nothing but
the loading fails. Then the report that is printed has one line for each gate whose cone is large
enough, with the support and the cone that a query on the graph alone would find, and the drawing
that is written fills the largest cone. An explicit stack makes no difference. -/
theorem run_outcome (flags : Flags) (hflags : flags.Fit) (file : String)
    (hfile : file.startsWith "-" = false) (bytes : List UInt8) :
    Request.read (flags.arguments file) {} = .ok (flags.request file) ∧
      (∀ w w₁, Holds file w bytes w₁ → ∀ code w',
        main (flags.arguments file) w = .ok code w' ↔
          code = (flags.outcome file bytes).exitCode ∧
            Performed (flags.outcome file bytes) w₁ w') ∧
      Settled flags file bytes := by
  have hread := Request.read_arguments hflags hfile
  refine ⟨hread, fun w w₁ hholds code w' => ?_, ?_⟩
  · have hcontent := readFile_of_holds hholds
    rw [← perform_eq_ok_iff, main, hread]
    refine bind_world_eq_ok_iff.trans ⟨?_, fun hperform => ⟨_, w₁, hcontent, hperform⟩⟩
    rintro ⟨content, w₂, hcontent', hperform⟩
    cases hcontent.symm.trans hcontent'
    exact hperform
  · cases h : Aiger.load bytes with
    | error failure => exact settled_of_error h
    | ok aig => exact settled_of_ok h

/-- The text of two gates, of which one reads the other and an input. -/
def stacked : List UInt8 := Aiger.encode
  ['a', 'a', 'g', ' ', '4', ' ', '2', ' ', '0', ' ', '1', ' ', '2', '\n', '2', '\n', '4', '\n',
    '8', '\n', '6', ' ', '2', ' ', '4', '\n', '8', ' ', '6', ' ', '2', '\n']

theorem run_outcome_stacked :
    Request.read ["stacked.aag", "--cut", "4", "--iterative", "--dot", "stacked.dot"] {} =
        .ok ⟨some "stacked.aag", some "stacked.dot",
          { settings := { traversal := .iterative, cutLimit := some 4 }, draw := true }⟩ ∧
      (∀ w w₁, Holds "stacked.aag" w stacked w₁ → ∀ code w',
        main ["stacked.aag", "--cut", "4", "--iterative", "--dot", "stacked.dot"] w =
          .ok code w' ↔
          code = (Flags.outcome { cut := some 4, iterative := true, dot := some "stacked.dot" }
              "stacked.aag" stacked).exitCode ∧
            Performed (Flags.outcome { cut := some 4, iterative := true, dot := some "stacked.dot" }
              "stacked.aag" stacked) w₁ w') ∧
      Settled { cut := some 4, iterative := true, dot := some "stacked.dot" } "stacked.aag"
        stacked := by
  have hflags : Flags.Fit { cut := some 4, iterative := true, dot := some "stacked.dot" } :=
    ⟨by simp [Aiger.valueLimit], by simp⟩
  exact run_outcome _ hflags "stacked.aag" (by decide +kernel) stacked

example : Flags.outcome {} "stacked.aag" stacked = .reported
    "Node = n3 : Supp = 2  Cone = 1  ( n3 )\nNode = n4 : Supp = 2  Cone = 2  ( n3 n4 )\n" none := by
  decide +kernel

end FanoutCone.CommandLine
