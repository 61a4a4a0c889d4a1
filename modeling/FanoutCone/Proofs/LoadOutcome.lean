import FanoutCone.Proofs.Drafts
import Mathlib.Data.List.TakeWhile

/-!
# The outcome of loading

Each line after the header is read at its own place, so what the lines hold is
a list of records that no draft is needed to state. The first line that is no
record, or that defines a variable again, decides the outcome. Without one all
records are taken, and what they define and read decides the rest.
-/
namespace FanoutCone.Aiger

def Header.readLine (h : Header) (k : Nat) (line : List UInt8) : Except LoadFailure Record :=
  match decodeLine line with
  | none => .error ReadError.ioError.failure
  | some line => Record.read h.maximum (h.part k) line

/-- The records on lines, each read at its own place. -/
def Header.records (h : Header) (lines : List (List UInt8)) : List Record :=
  lines.zipIdx.filterMap fun (line, k) => (h.readLine k line).toOption

def isComment (line : List UInt8) : Bool :=
  match decodeLine line with
  | some ('c' :: _) => true
  | _ => false

/-- The lines before the first comment. -/
def recordLines (lines : List (List UInt8)) : List (List UInt8) :=
  lines.takeWhile fun line => !isComment line

/-- The failure at line `k`: the line is no record, or it defines a variable that a line above it
has defined. -/
inductive Breaks (h : Header) (lines : List (List UInt8)) (k : Nat) : LoadFailure → Prop
  | unread {line : List UInt8} {failure : LoadFailure} :
      lines[k]? = some line → h.readLine k line = .error failure → Breaks h lines k failure
  | redefined {line : List UInt8} {record : Record} {v : Nat} :
      lines[k]? = some line → h.readLine k line = .ok record → record.defined? = some v →
      Defines (h.records (lines.take k)) v → Breaks h lines k (.rejected (.redefined v))

/-- What becomes of the lines after a header. -/
inductive Outcome (h : Header) (lines : List (List UInt8)) : Except LoadFailure Aig → Prop
  /-- The first failure at a line decides. -/
  | broken {k : Nat} {failure : LoadFailure} : Breaks h lines k failure →
      (∀ j < k, ∀ failure, ¬ Breaks h lines j failure) → Outcome h lines (.error failure)
  /-- Without one, the lowest variable that is not defined is reported. -/
  | undefined {v : Nat} : (∀ k failure, ¬ Breaks h lines k failure) → v ≤ h.maximum →
      ¬ Defines (h.records lines) v → (∀ u < v, Defines (h.records lines) u) →
      Outcome h lines (.error (.rejected (.undefined v)))
  /-- When all are defined, a variable on a cycle of gates is reported. -/
  | cycle {v : Nat} : (∀ k failure, ¬ Breaks h lines k failure) →
      (∀ v ≤ h.maximum, Defines (h.records lines) v) →
      Relation.TransGen (GateReads (h.records lines)) v v →
      Outcome h lines (.error (.rejected (.cycle v)))
  /-- When there is no cycle either, counting breaks off at a variable that is consumed more often
  than can be counted. -/
  | overflow {v : Nat} : (∀ k failure, ¬ Breaks h lines k failure) →
      (∀ v ≤ h.maximum, Defines (h.records lines) v) →
      (∀ v, ¬ Relation.TransGen (GateReads (h.records lines)) v v) →
      FanoutCounts.maxCount < ((h.records lines).flatMap Record.uses).count v →
      Outcome h lines (.error (.broken (.overflow v)))
  /-- Otherwise a graph comes out. -/
  | loaded {aig : Aig} : (∀ k failure, ¬ Breaks h lines k failure) →
      (∀ v ≤ h.maximum, Defines (h.records lines) v) →
      (∀ v, ¬ Relation.TransGen (GateReads (h.records lines)) v v) →
      (∀ v, ((h.records lines).flatMap Record.uses).count v ≤ FanoutCounts.maxCount) →
      Outcome h lines (.ok aig)

variable {h : Header} {k : Nat} {line : List UInt8} {front rest : List (List UInt8)}
variable {d : Draft} {record : Record} {failure : LoadFailure}

theorem readLine_eq_ok_iff : h.readLine k line = .ok record ↔
    ∃ cs, decodeLine line = some cs ∧ Record.read h.maximum (h.part k) cs = .ok record := by
  unfold Header.readLine
  cases decodeLine line with
  | none => simp
  | some cs => simp

theorem records_snoc (hread : h.readLine front.length line = .ok record) :
    h.records (front ++ [line]) = h.records front ++ [record] := by
  rw [Header.records, List.zipIdx_append, List.filterMap_append]
  simp [Header.records, hread, Except.toOption]

/-- A line holds no literal above the maximum. -/
theorem inRange_of_readLine (hread : h.readLine k line = .ok record) :
    record.InRange h.maximum := by
  obtain ⟨cs, -, hread⟩ := readLine_eq_ok_iff.1 hread
  exact Record.inRange_of_read hread

theorem mem_records {lines : List (List UInt8)} (hmem : record ∈ h.records lines) :
    ∃ k, ∃ line ∈ lines, h.readLine k line = .ok record := by
  obtain ⟨⟨line, k⟩, hline, hread⟩ := List.mem_filterMap.1 hmem
  refine ⟨k, line, List.fst_mem_of_mem_zipIdx hline, ?_⟩
  dsimp only at hread
  cases hrecord : h.readLine k line with
  | error failure => simp [hrecord, Except.toOption] at hread
  | ok record' =>
    rw [hrecord] at hread
    cases hread
    rfl

theorem inRange_of_mem_records {lines : List (List UInt8)} (hmem : record ∈ h.records lines) :
    record.InRange h.maximum := by
  obtain ⟨k, line, -, hread⟩ := mem_records hmem
  exact inRange_of_readLine hread

theorem takeLines_cons (hline : isComment line = false) :
    takeLines h k (line :: rest) d =
      h.readLine k line >>= fun record => d.take record >>= takeLines h (k + 1) rest := by
  unfold takeLines Header.readLine
  split
  · rename_i hdecode
    rw [hdecode]
    rfl
  · rename_i hdecode
    simp [isComment, hdecode] at hline
  · rename_i cs _ hdecode
    rw [hdecode]
    dsimp only
    cases Record.read h.maximum (h.part k) cs with
    | error failure => rfl
    | ok record =>
      rw [ok_bind]
      dsimp only
      cases d.take record <;> rfl

theorem takeLines_comment (hline : isComment line = true) :
    takeLines h k (line :: rest) d = .ok d := by
  unfold isComment at hline
  unfold takeLines
  split at hline
  · rename_i hdecode
    rw [hdecode]
    rfl
  · cases hline

/-- Nothing after a comment counts. -/
theorem takeLines_recordLines (lines : List (List UInt8)) :
    takeLines h k (recordLines lines) d = takeLines h k lines d := by
  induction lines generalizing k d with
  | nil => rfl
  | cons line lines ih =>
    cases hline : isComment line with
    | true =>
      rw [takeLines_comment hline, recordLines, List.takeWhile_cons_of_neg (by simp [hline])]
      rfl
    | false =>
      rw [recordLines, List.takeWhile_cons_of_pos (by simp [hline]), takeLines_cons hline,
        takeLines_cons hline]
      congr 1
      funext record
      congr 1
      funext d
      exact ih

/-- A line that is a record and defines no variable again breaks nothing. -/
theorem not_breaks_snoc (hread : h.readLine front.length line = .ok record)
    (hnew : ∀ v, record.defined? = some v → ¬ Defines (h.records front) v)
    (hfront : ∀ j < front.length, ∀ failure, ¬ Breaks h (front ++ line :: rest) j failure) :
    ∀ j < (front ++ [line]).length, ∀ failure, ¬ Breaks h (front ++ line :: rest) j failure := by
  intro j hj failure hbreaks
  have hget : (front ++ line :: rest)[front.length]? = some line := by simp
  rw [List.length_append, List.length_singleton] at hj
  rcases Nat.lt_succ_iff_lt_or_eq.1 hj with hj | rfl
  · exact hfront j hj failure hbreaks
  · cases hbreaks with
    | unread hline hfailure =>
      obtain rfl := Option.some.inj (hget.symm.trans hline)
      cases hread.symm.trans hfailure
    | redefined hline hrecord hdefined hv =>
      obtain rfl := Option.some.inj (hget.symm.trans hline)
      obtain rfl := Except.ok.inj (hread.symm.trans hrecord)
      rw [List.take_left] at hv
      exact hnew _ hdefined hv

/-- From a draft that holds what the lines in front say, the lines that follow are taken to the
first failure, or all of them. -/
theorem takeLines_append (front : List (List UInt8)) (hrest : ∀ line ∈ rest, isComment line = false)
    (hfront : ∀ j < front.length, ∀ failure, ¬ Breaks h (front ++ rest) j failure)
    (hd : d.Holds h.maximum (h.records front)) :
    (∃ k failure, Breaks h (front ++ rest) k failure ∧
        (∀ j < k, ∀ failure, ¬ Breaks h (front ++ rest) j failure) ∧
        takeLines h front.length rest d = .error failure) ∨
      (∀ k failure, ¬ Breaks h (front ++ rest) k failure) ∧
        ∃ d', takeLines h front.length rest d = .ok d' ∧
          d'.Holds h.maximum (h.records (front ++ rest)) := by
  -- Each line taken moves from the rest to the front, and the draft holds what the front says.
  induction rest generalizing front d with
  | nil =>
    refine Or.inr ⟨fun k failure hbreaks => ?_, d, rfl, by rwa [List.append_nil]⟩
    by_cases hk : k < front.length
    · exact hfront k hk failure hbreaks
    · cases hbreaks with
      | unread hline | redefined hline =>
        rw [List.append_nil, List.getElem?_eq_none (Nat.not_lt.1 hk)] at hline
        cases hline
  | cons line rest ih =>
    have hget : (front ++ line :: rest)[front.length]? = some line := by simp
    rw [takeLines_cons (hrest line List.mem_cons_self)]
    cases hread : h.readLine front.length line with
    | error failure => exact Or.inl ⟨_, failure, .unread hget hread, hfront, rfl⟩
    | ok record =>
      rw [ok_bind]
      by_cases hnew : ∀ v, record.defined? = some v → ¬ Defines (h.records front) v
      · obtain ⟨d', hd'⟩ := hd.exists_take (inRange_of_readLine hread) hnew
        have hrest : ∀ l ∈ rest, isComment l = false := fun l hl =>
          hrest l (List.mem_cons_of_mem line hl)
        have htaken := ih (front ++ [line]) hrest
          (by rw [← List.append_cons]; exact not_breaks_snoc hread hnew hfront)
          (by rw [records_snoc hread]; exact hd.snoc hd')
        rw [← List.append_cons, List.length_append, List.length_singleton] at htaken
        rwa [hd', ok_bind]
      · obtain ⟨v, hnew⟩ := not_forall.1 hnew
        obtain ⟨hdefined, hdefines⟩ := Classical.not_imp.1 hnew
        have hv : Defines (h.records ((front ++ line :: rest).take front.length)) v := by
          rw [List.take_left]
          exact not_not.1 hdefines
        refine Or.inl ⟨_, _, .redefined hget hread hdefined hv, hfront, ?_⟩
        rw [hd.take_of_defines hdefined (not_not.1 hdefines), error_bind]

theorem readSymbol_eq_error {line : List Char} (hread : readSymbol line = .error failure) :
    failure = ReadError.invalidSymbol.failure ∨
      failure = .broken .unreadableSymbol ∧ ∀ c ∈ line.head?, c.utf8Size ≠ 1 := by
  unfold readSymbol at hread
  split at hread
  · cases hread
    exact Or.inr ⟨rfl, nofun⟩
  · rename_i c rest
    split at hread
    · rename_i hsize
      cases hread
      exact Or.inr ⟨rfl, fun c' hc => by cases hc; exact hsize⟩
    · dsimp only at hread
      split at hread
      · split at hread <;> cases hread
        exact Or.inl rfl
      · cases hread
        exact Or.inl rfl

/-- A line that is not read fails with an error of the reader, unless it is a symbol line that has
no first character of one byte. -/
theorem readLine_eq_error (hread : h.readLine k line = .error failure) :
    (∃ e : ReadError, failure = e.failure) ∨
      failure = .broken .unreadableSymbol ∧ h.part k = .symbols ∧
        ∃ cs, decodeLine line = some cs ∧ ∀ c ∈ cs.head?, c.utf8Size ≠ 1 := by
  unfold Header.readLine at hread
  cases hdecode : decodeLine line with
  | none =>
    rw [hdecode] at hread
    cases hread
    exact Or.inl ⟨.ioError, rfl⟩
  | some cs =>
    rw [hdecode] at hread
    rcases Record.read_eq_error hread with ⟨hpart, hsymbol⟩ | ⟨e, -, rfl⟩
    · rcases readSymbol_eq_error hsymbol with rfl | ⟨rfl, hfirst⟩
      · exact Or.inl ⟨_, rfl⟩
      · exact Or.inr ⟨rfl, hpart, cs, rfl, hfirst⟩
    · exact Or.inl ⟨e, rfl⟩

variable {bytes : List UInt8} {lines : List (List UInt8)}

/-- A header that is not read is the outcome. -/
theorem load_of_readHeader {e : ReadError} (hheader : readHeader (Aiger.lines bytes) = .error e) :
    load bytes = .error e.failure := by
  rw [load, hheader]
  rfl

/-- After a header the first failure at a line is the outcome, and without one it is that of
finishing a draft that holds what the lines say. -/
theorem load_cases (hheader : readHeader (Aiger.lines bytes) = .ok (h, lines))
    (hmaximum : h.maximum ≤ Node.maxIndex) :
    (∃ k failure, Breaks h (recordLines lines) k failure ∧
        (∀ j < k, ∀ failure, ¬ Breaks h (recordLines lines) j failure) ∧
        load bytes = .error failure) ∨
      (∀ k failure, ¬ Breaks h (recordLines lines) k failure) ∧
        ∃ d : Draft, d.Holds h.maximum (h.records (recordLines lines)) ∧
          load bytes = d.finish := by
  have hload : load bytes =
      takeLines h 0 (recordLines lines) (Draft.start h.maximum) >>= Draft.finish := by
    rw [load, hheader, takeLines_recordLines]
    simp only [mapError_ok, ok_bind, Nat.not_lt.2 hmaximum, if_false]
  have hrest : ∀ line ∈ recordLines lines, isComment line = false := fun line hline => by
    simpa using List.mem_takeWhile_imp hline
  rcases takeLines_append [] hrest (fun j hj => absurd hj (Nat.not_lt_zero j))
    (Draft.holds_start h.maximum) with ⟨k, failure, hbreaks, hfirst, htake⟩ | ⟨hsound, d, htake, hd⟩
  · refine Or.inl ⟨k, failure, hbreaks, hfirst, ?_⟩
    rw [hload]
    exact (congrArg (· >>= Draft.finish) htake).trans rfl
  · refine Or.inr ⟨hsound, d, hd, ?_⟩
    rw [hload]
    exact (congrArg (· >>= Draft.finish) htake).trans rfl

theorem exists_lowest_undefined {records : List Record} {maximum : Nat}
    (hall : ¬ ∀ v ≤ maximum, Defines records v) :
    ∃ v ≤ maximum, ¬ Defines records v ∧ ∀ u < v, Defines records u := by
  classical
  obtain ⟨v, hv⟩ := not_forall.1 hall
  obtain ⟨hle, hv⟩ := Classical.not_imp.1 hv
  have hsome : ∃ v, ¬ Defines records v := ⟨v, hv⟩
  exact ⟨Nat.find hsome, (Nat.find_min' hsome hv).trans hle, Nat.find_spec hsome,
    fun u hu => not_not.1 (Nat.find_min hsome hu)⟩

/-- After a header that declares no more variables than there can be, loading comes out as the
lines say. -/
theorem outcome_of_readHeader (hheader : readHeader (Aiger.lines bytes) = .ok (h, lines))
    (hmaximum : h.maximum ≤ Node.maxIndex) : Outcome h (recordLines lines) (load bytes) := by
  rcases load_cases hheader hmaximum with
    ⟨k, failure, hbreaks, hfirst, hload⟩ | ⟨hsound, d, hd, hload⟩
  · rw [hload]
    exact .broken hbreaks hfirst
  · rw [hload]
    by_cases hall : ∀ v ≤ h.maximum, Defines (h.records (recordLines lines)) v
    · rcases hd.finish_of_defined (fun record hmem => inRange_of_mem_records hmem) hall with
        ⟨v, hcycle, hfinish⟩ | ⟨hacyclic, ⟨v, hover, hfinish⟩ | ⟨hfew, aig, hfinish⟩⟩
      · rw [hfinish]
        exact .cycle hsound hall hcycle
      · rw [hfinish]
        exact .overflow hsound hall hacyclic hover
      · rw [hfinish]
        exact .loaded hsound hall hacyclic hfew
    · obtain ⟨v, hle, hv, hbelow⟩ := exists_lowest_undefined hall
      rw [hd.finish_of_undefined hle hv hbelow]
      exact .undefined hsound hle hv hbelow

/-- A graph comes only of a text that has a header, of whose lines none breaks and every variable is
defined, and it is finished from a draft that holds the records. -/
theorem exists_finish_of_load {aig : Aig} (hload : load bytes = .ok aig) :
    ∃ h lines, readHeader (Aiger.lines bytes) = .ok (h, lines) ∧
      (∀ k failure, ¬ Breaks h (recordLines lines) k failure) ∧
      (∀ v ≤ h.maximum, Defines (h.records (recordLines lines)) v) ∧
      ∃ d : Draft, d.Holds h.maximum (h.records (recordLines lines)) ∧ d.finish = .ok aig := by
  cases hheader : readHeader (Aiger.lines bytes) with
  | error e => cases hload.symm.trans (load_of_readHeader hheader)
  | ok header =>
    obtain ⟨h, lines⟩ := header
    by_cases hmaximum : h.maximum ≤ Node.maxIndex
    · have houtcome := outcome_of_readHeader hheader hmaximum
      rw [hload] at houtcome
      cases houtcome with
      | loaded hsound hall =>
        rcases load_cases hheader hmaximum with ⟨k, failure, hbreaks, -⟩ | ⟨-, d, hd, hfinish⟩
        · exact absurd hbreaks (hsound k failure)
        · exact ⟨h, lines, rfl, hsound, hall, d, hd, hfinish.symm.trans hload⟩
    · rw [load, hheader] at hload
      simp [Nat.not_le.1 hmaximum] at hload

/-- What loading any text comes to. A first line that is no header is the outcome. After a header,
the first line decides that is no record or defines a variable again; then the lowest variable
without a definition; then a cycle of gates; then a variable with more consumers than can be
counted; and if there is none of these a graph comes out. Only a symbol line without a first
character of one byte breaks the reader off, and no variable is ever reported to be out of range. -/
theorem load_outcome (bytes : List UInt8) :
    (∀ e, readHeader (Aiger.lines bytes) = .error e → load bytes = .error e.failure) ∧
      (∀ h lines, readHeader (Aiger.lines bytes) = .ok (h, lines) → h.maximum ≤ Node.maxIndex →
        Outcome h (recordLines lines) (load bytes)) ∧
      (∀ (h : Header) k line failure, h.readLine k line = .error failure →
        (∃ e : ReadError, failure = e.failure) ∨
          failure = .broken .unreadableSymbol ∧ h.part k = .symbols ∧
            ∃ cs, decodeLine line = some cs ∧ ∀ c ∈ cs.head?, c.utf8Size ≠ 1) ∧
      ∀ v maximum, load bytes ≠ .error (.rejected (.outOfRange v maximum)) := by
  refine ⟨fun e => load_of_readHeader, fun h lines => outcome_of_readHeader,
    fun h k line failure => readLine_eq_error, fun v maximum hload => ?_⟩
  cases hheader : readHeader (Aiger.lines bytes) with
  | error e =>
    rw [load_of_readHeader hheader] at hload
    cases hload
  | ok header =>
    obtain ⟨h, lines⟩ := header
    by_cases hmaximum : h.maximum ≤ Node.maxIndex
    · have houtcome := outcome_of_readHeader hheader hmaximum
      rw [hload] at houtcome
      cases houtcome with
      | broken hbreaks =>
        cases hbreaks with
        | unread hline hread =>
          rcases readLine_eq_error hread with ⟨e, he⟩ | ⟨he, -⟩ <;> cases he
    · rw [load, hheader] at hload
      simp [Nat.not_le.1 hmaximum] at hload

/-- The text of a gate that reads itself. -/
def selfLoop : List UInt8 :=
  [97, 97, 103, 32, 49, 32, 48, 32, 48, 32, 48, 32, 49, 10, 50, 32, 50, 32, 48, 10]

theorem load_outcome_selfLoop :
    load [] = .error ReadError.invalidHeader.failure ∧
      Outcome ⟨1, 0, 0, 0, 1⟩ (recordLines [[50, 32, 50, 32, 48]]) (load selfLoop) ∧
      ((∃ e : ReadError, LoadFailure.broken .unreadableSymbol = e.failure) ∨
        LoadFailure.broken .unreadableSymbol = .broken .unreadableSymbol ∧
          Header.part ⟨0, 0, 0, 0, 0⟩ 0 = .symbols ∧
          ∃ cs, decodeLine [] = some cs ∧ ∀ c ∈ cs.head?, c.utf8Size ≠ 1) :=
  ⟨(load_outcome []).1 _ rfl, (load_outcome selfLoop).2.1 _ _ (by decide +kernel) (by decide),
    (load_outcome []).2.2.1 ⟨0, 0, 0, 0, 0⟩ 0 [] _ (by decide +kernel)⟩

example : load selfLoop = .error (.rejected (.cycle 1)) := by decide +kernel

end FanoutCone.Aiger
