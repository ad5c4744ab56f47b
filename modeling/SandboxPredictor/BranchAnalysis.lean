import Mathlib.Algebra.Order.Field.Rat
import SandboxPredictor.BranchLog
import SandboxPredictor.Lib.Counter

/- The two passes of `analyze.py` over a prediction log.

   The first pass counts the mispredictions and picks the pc that has most of
   them, the second one follows that pc. The passes read ahead differently:

     `firstLoop`    parses the line it has, reads the next one at the end
     `secondLoop`   reads the next line at the start, and parses that one

   so that the second pass never parses the first record (`secondPass_eq`). What it
   reports is right if and only if that record is not of the pc it follows
   (`second_pass_reports_iff`).

   Plots and the other prints are left out. Pcs are integers: numpy keeps them so
   only up to 2 ^ 63. -/
namespace SandboxPredictor

namespace Analyze

/-- `pred != fact`. -/
def Record.mispredicted (r : Record) : Bool := r.pred != r.fact

/-! ## The passes -/

section
variable {σ : Type} (body : σ → Record → Except PyException σ)

/-- The loop of the first pass over a `line` and the `rest` of the file. Only a
`ValueError` is caught; the body raises none. -/
def firstLoop (line : List Char) (rest : List (List Char)) (s : σ) : Except PyException σ :=
  if line = [] then .ok s
  else match parseLine line with
    | .error .valueError => .ok s
    | .error e => .error e
    | .ok r =>
      match body s r, rest with
      | .error e, _ => .error e
      -- at the end of the file `readline` returns the empty line
      | .ok s, [] => .ok s
      | .ok s, next :: rest => firstLoop (Text.strip next) rest s

/-- The loop of the second pass. -/
def secondLoop (line : List Char) (rest : List (List Char)) (s : σ) : Except PyException σ :=
  if line = [] then .ok s
  else match rest with
    -- the empty line at the end of the file is no record: `parse_line` raises a `ValueError`
    | [] => .ok s
    | next :: rest =>
      match parseLine (Text.strip next) with
      | .error .valueError => .ok s
      | .error e => .error e
      | .ok r =>
        match body s r with
        | .error e => .error e
        | .ok s => secondLoop (Text.strip next) rest s

/-- The first pass: the header is skipped, and the first line read before the loop. -/
def firstPass (s : σ) (text : List Char) : Except PyException σ :=
  match (Text.lines text).tail with
  | [] => .ok s
  | line :: rest => firstLoop body line rest s

/-- The second pass starts in the same way. -/
def secondPass (s : σ) (text : List Char) : Except PyException σ :=
  match (Text.lines text).tail with
  | [] => .ok s
  | line :: rest => secondLoop body line rest s

end

/-- What the first pass counts; `tmp` holds the pc of every misprediction. -/
structure Totals where
  bcount : Nat
  tmp : List Int
  deriving DecidableEq, Repr

/-- The body of the first loop. -/
def recordMiss (t : Totals) (r : Record) : Except PyException Totals :=
  .ok { bcount := t.bcount + 1
        tmp := if r.mispredicted then t.tmp ++ [r.pc] else t.tmp }

/-- What the second pass keeps; `mispredctions` is the part of the array already written. -/
structure Instances where
  mispredctions : List Nat
  localId : Nat
  idx : Nat
  outLog : List Char
  deriving DecidableEq, Repr

def csvHeader : List Char := "Global History,Local History,Prediction,Fact\n".toList

/-- Before the second loop. -/
def noInstances : Instances where
  mispredctions := []
  localId := 0
  idx := 0
  outLog := csvHeader

/-- The body of the second loop, with the branch of `targetPc` and an array of
`numMispred` entries for its mispredictions. -/
def recordBranch (targetPc : Int) (numMispred : Nat) (s : Instances) (r : Record) :
    Except PyException Instances :=
  if r.pc = targetPc then
    if r.mispredicted then
      if s.idx < numMispred then
        .ok { mispredctions := s.mispredctions ++ [s.localId]
              localId := s.localId + 1
              idx := s.idx + 1
              outLog := s.outLog ++ logEntry r }
      else .error .indexError
    else .ok { s with localId := s.localId + 1, outLog := s.outLog ++ logEntry r }
  else .ok s

/-- `(local_id - idx) / local_id`. -/
def Instances.accuracy (s : Instances) : Except PyException ℚ :=
  if s.localId = 0 then .error .zeroDivisionError
  else .ok (((s.localId : ℚ) - s.idx) / s.localId)

/-- The variables of the script when it is done with the log. -/
structure Analysis where
  totals : Totals
  targetPc : Int
  numMispred : Nat
  instances : Instances
  deriving DecidableEq, Repr

/-- The script, up to the plot of the second pass. -/
def analyze (text : List Char) : Except PyException Analysis :=
  match firstPass recordMiss { bcount := 0, tmp := [] } text with
  | .error e => .error e
  | .ok totals =>
    if totals.bcount = 0 then .error .zeroDivisionError
    else match Counter.mostCommon (Counter.count totals.tmp) with
      | none => .error .indexError
      | some (targetPc, numMispred) =>
        match secondPass (recordBranch targetPc numMispred) noInstances text with
        | .error e => .error e
        | .ok instances => .ok { totals, targetPc, numMispred, instances }

/-! ## What is to be counted -/

/-- The lines behind the header are records, of pcs below `2 ^ 63`. -/
structure WellFormed (text : List Char) (records : List Record) : Prop where
  nonempty : records ≠ []
  lines : ∃ header rest, Text.lines text = header :: rest ∧
    rest.map parseLine = records.map Except.ok
  pc : ∀ r ∈ records, 0 ≤ r.pc ∧ r.pc < 2 ^ 63

/-- The pcs of the mispredictions. -/
def missPcs (records : List Record) : List Int := (records.filter Record.mispredicted).map Record.pc

/-- The records of the branch at `pc`. -/
def ofPc (pc : Int) (records : List Record) : List Record :=
  records.filter (fun r => r.pc == pc)

/-- The records a pass hands to its body. -/
def visit (seen : List Record) (r : Record) : Except PyException (List Record) :=
  .ok (seen ++ [r])

/-- The second pass counted the events of all `records` of the branch at `pc`. -/
structure Analysis.Reports (a : Analysis) (records : List Record) (pc : Int) : Prop where
  idx : a.instances.idx = a.numMispred
  localId : a.instances.localId = (ofPc pc records).length
  outLog : a.instances.outLog = csvHeader ++ (ofPc pc records).flatMap logEntry
  accuracy : a.instances.accuracy =
    .ok ((((ofPc pc records).length : ℚ) - (missPcs records).count pc) /
      (ofPc pc records).length)

/-! ## The records of each pass -/

theorem parseLine_nil : parseLine [] = .error .valueError := rfl

theorem ne_nil_of_parseLine {line : List Char} {r : Record} (h : parseLine line = .ok r) :
    line ≠ [] := by
  rintro rfl
  rw [parseLine_nil] at h
  cases h

section
variable {σ : Type} (body : σ → Record → Except PyException σ)

theorem firstLoop_eq {line : List Char} {rest : List (List Char)} {r : Record}
    {rs : List Record} (hline : parseLine line = .ok r)
    (hrest : rest.map parseLine = rs.map Except.ok) (s : σ) :
    firstLoop body line rest s = (r :: rs).foldlM body s := by
  induction rest generalizing line r rs s with
  | nil =>
    obtain rfl : rs = [] := by simpa [eq_comm] using hrest
    rw [firstLoop, if_neg (ne_nil_of_parseLine hline), List.foldlM_cons]
    simp only [hline]
    cases body s r <;> rfl
  | cons next rest ih =>
    cases rs with
    | nil => cases hrest
    | cons r' rs =>
      rw [List.map_cons, List.map_cons, List.cons.injEq] at hrest
      rw [firstLoop, if_neg (ne_nil_of_parseLine hline), List.foldlM_cons]
      simp only [hline]
      cases body s r with
      | error e => rfl
      | ok s' => exact ih ((parseLine_strip next).trans hrest.1) hrest.2 s'

theorem secondLoop_eq {line : List Char} {rest : List (List Char)} {rs : List Record}
    (hline : line ≠ []) (hrest : rest.map parseLine = rs.map Except.ok) (s : σ) :
    secondLoop body line rest s = rs.foldlM body s := by
  induction rest generalizing line rs s with
  | nil =>
    obtain rfl : rs = [] := by simpa [eq_comm] using hrest
    rw [secondLoop, if_neg hline]
    rfl
  | cons next rest ih =>
    cases rs with
    | nil => cases hrest
    | cons r rs =>
      rw [List.map_cons, List.map_cons, List.cons.injEq] at hrest
      have hnext := (parseLine_strip next).trans hrest.1
      rw [secondLoop, if_neg hline, List.foldlM_cons]
      simp only [hnext]
      cases body s r with
      | error e => rfl
      | ok s' => exact ih (ne_nil_of_parseLine hnext) hrest.2 s'

end

/-- The lines that the passes start from. -/
theorem WellFormed.tail_lines {text : List Char} {records : List Record}
    (h : WellFormed text records) : ∃ line rest r rs, (Text.lines text).tail = line :: rest ∧
      records = r :: rs ∧ parseLine line = .ok r ∧ rest.map parseLine = rs.map Except.ok := by
  obtain ⟨header, lines, hlines, hparse⟩ := h.lines
  obtain ⟨r, rs, rfl⟩ := List.exists_cons_of_ne_nil h.nonempty
  cases lines with
  | nil => cases hparse
  | cons line rest =>
    rw [List.map_cons, List.map_cons, List.cons.injEq] at hparse
    exact ⟨line, rest, r, rs, by rw [hlines, List.tail_cons], rfl, hparse.1, hparse.2⟩

section
variable {σ : Type} (body : σ → Record → Except PyException σ) {text : List Char}
  {records : List Record}

/-- The first pass reads every record. -/
theorem firstPass_eq (h : WellFormed text records) (s : σ) :
    firstPass body s text = records.foldlM body s := by
  obtain ⟨line, rest, r, rs, hlines, rfl, hline, hrest⟩ := h.tail_lines
  unfold firstPass
  rw [hlines]
  exact firstLoop_eq body hline hrest s

/-- The second pass reads every record but the first. -/
theorem secondPass_eq (h : WellFormed text records) (s : σ) :
    secondPass body s text = records.tail.foldlM body s := by
  obtain ⟨line, rest, r, rs, hlines, rfl, hline, hrest⟩ := h.tail_lines
  unfold secondPass
  rw [hlines]
  exact secondLoop_eq body (ne_nil_of_parseLine hline) hrest s

end

theorem foldlM_visit (rs seen : List Record) : rs.foldlM visit seen = .ok (seen ++ rs) := by
  induction rs generalizing seen with
  | nil => rw [List.append_nil]; rfl
  | cons r rs ih =>
    rw [List.foldlM_cons, List.append_cons]
    exact ih (seen ++ [r])

/-! ## The counts -/

theorem foldlM_recordMiss (rs : List Record) (t : Totals) : rs.foldlM recordMiss t =
    .ok { bcount := t.bcount + rs.length, tmp := t.tmp ++ missPcs rs } := by
  induction rs generalizing t with
  | nil => simp [missPcs]; rfl
  | cons r rs ih =>
    rw [List.foldlM_cons]
    refine (ih _).trans ?_
    by_cases hr : r.mispredicted = true
    · simp [missPcs, hr, Nat.add_comm, Nat.add_left_comm]
    · simp [missPcs, hr, Nat.add_comm, Nat.add_left_comm]

/-- The mispredictions of a branch. -/
theorem count_missPcs (pc : Int) (rs : List Record) :
    (missPcs rs).count pc = (ofPc pc rs).countP Record.mispredicted := by
  unfold missPcs ofPc
  rw [List.count_eq_countP, List.countP_map, List.countP_filter, List.countP_filter]
  apply List.countP_congr
  intro r _
  simp [and_comm]

theorem ofPc_cons (pc : Int) (r : Record) (rs : List Record) :
    ofPc pc (r :: rs) = if r.pc = pc then r :: ofPc pc rs else ofPc pc rs := by
  unfold ofPc
  rw [List.filter_cons]
  by_cases h : r.pc = pc <;> simp [h]

/-- One record of the branch, when the array has room for it. -/
theorem recordBranch_ofPc {pc : Int} {s : Instances} {r : Record} (numMispred : Nat)
    (hpc : r.pc = pc)
    (hroom : s.idx + (if r.mispredicted = true then 1 else 0) ≤ numMispred) :
    ∃ s', recordBranch pc numMispred s r = .ok s' ∧
      s'.idx = s.idx + (if r.mispredicted = true then 1 else 0) ∧
      s'.localId = s.localId + 1 ∧ s'.outLog = s.outLog ++ logEntry r := by
  rw [recordBranch, if_pos hpc]
  by_cases hr : r.mispredicted = true
  · rw [if_pos hr] at hroom ⊢
    rw [if_pos hr, if_pos (Nat.lt_of_succ_le hroom)]
    exact ⟨_, rfl, rfl, rfl, rfl⟩
  · rw [if_neg hr, if_neg hr]
    exact ⟨_, rfl, rfl, rfl, rfl⟩

/-- The loop counts the records of the branch. -/
theorem foldlM_recordBranch {pc : Int} {numMispred : Nat} (rs : List Record) (s : Instances)
    (hroom : s.idx + (ofPc pc rs).countP Record.mispredicted ≤ numMispred) :
    ∃ s', rs.foldlM (recordBranch pc numMispred) s = .ok s' ∧
      s'.idx = s.idx + (ofPc pc rs).countP Record.mispredicted ∧
      s'.localId = s.localId + (ofPc pc rs).length ∧
      s'.outLog = s.outLog ++ (ofPc pc rs).flatMap logEntry := by
  induction rs generalizing s with
  | nil => exact ⟨s, rfl, by simp [ofPc], by simp [ofPc], by simp [ofPc]⟩
  | cons r rs ih =>
    rw [List.foldlM_cons]
    rw [ofPc_cons] at hroom ⊢
    by_cases hpc : r.pc = pc
    · rw [if_pos hpc, List.countP_cons] at hroom
      obtain ⟨s₁, hstep, hidx₁, hlocal₁, hlog₁⟩ := recordBranch_ofPc (s := s) numMispred hpc (by omega)
      obtain ⟨s', hfold, hidx, hlocal, hlog⟩ := ih s₁ (by omega)
      rw [if_pos hpc, hstep]
      refine ⟨s', hfold, ?_, ?_, ?_⟩
      · rw [hidx, hidx₁, List.countP_cons]
        omega
      · rw [hlocal, hlocal₁, List.length_cons]
        omega
      · rw [hlog, hlog₁, List.flatMap_cons, List.append_assoc]
    · rw [if_neg hpc] at hroom ⊢
      rw [recordBranch, if_neg hpc]
      exact ih s hroom

/-! ## What the script reports -/

/-- Every log of `bplog.bpred` is well formed, if its ips are below `2 ^ 63`. -/
theorem log_wellFormed {bs : List LoggedBranch} (hbs : bs ≠ [])
    (hip : ∀ b ∈ bs, b.ip.toNat < 2 ^ 63) :
    WellFormed (BPLog.log bs) (BPLog.records bs) := by
  have hpcs := BPLog.map_pc_records bs
  refine ⟨?_, ⟨_, _, BPLog.lines_log bs, BPLog.map_parseLine_outputs bs⟩, ?_⟩
  · intro hnil
    rw [hnil, List.map_nil, eq_comm, List.map_eq_nil_iff] at hpcs
    exact hbs hpcs
  · intro r hr
    have hpc : r.pc ∈ bs.map (fun b => (b.ip.toNat : Int)) := hpcs ▸ List.mem_map_of_mem hr
    obtain ⟨b, hb, hrb⟩ := List.mem_map.1 hpc
    have hlt := hip b hb
    omega

/-- A log with a misprediction: the first pass finds the mode of the mispredictions, and the
second one counts the records behind the first. -/
theorem analyze_eq {text : List Char} {records : List Record} (h : WellFormed text records)
    (hmiss : ∃ r ∈ records, r.mispredicted = true) :
    ∃ a, analyze text = .ok a ∧ Counter.IsMode (missPcs records) a.targetPc ∧
      a.numMispred = (missPcs records).count a.targetPc ∧
      a.instances.idx = (ofPc a.targetPc records.tail).countP Record.mispredicted ∧
      a.instances.localId = (ofPc a.targetPc records.tail).length ∧
      a.instances.outLog = csvHeader ++ (ofPc a.targetPc records.tail).flatMap logEntry := by
  have hne : missPcs records ≠ [] := by
    obtain ⟨r, hr, hm⟩ := hmiss
    exact List.ne_nil_of_mem (List.mem_map_of_mem (List.mem_filter.2 ⟨hr, hm⟩))
  obtain ⟨pc, hmode, hcommon⟩ := Counter.exists_mostCommon hne
  have htail : (ofPc pc records.tail).countP Record.mispredicted ≤ (missPcs records).count pc := by
    rw [count_missPcs]
    exact ((List.tail_sublist records).filter _).countP_le
  obtain ⟨s', hfold, hidx, hlocal, hlog⟩ :=
    foldlM_recordBranch records.tail noInstances (by simpa [noInstances] using htail)
  have hlength : records.length ≠ 0 := by
    rw [Ne, List.length_eq_zero_iff]
    exact h.nonempty
  refine ⟨⟨⟨records.length, missPcs records⟩, pc, (missPcs records).count pc, s'⟩, ?_, hmode, rfl,
    ?_, ?_, hlog⟩
  · rw [analyze, firstPass_eq recordMiss h, foldlM_recordMiss]
    simp only [Nat.zero_add, List.nil_append, if_neg hlength, hcommon,
      secondPass_eq (recordBranch pc _) h, hfold]
  · rw [hidx]
    exact Nat.zero_add _
  · rw [hlocal]
    exact Nat.zero_add _

/-- **The first record is dropped.** The first pass reads all records of a log, the second one
all but the first. So what it reports about the branch with most mispredictions is right if
and only if the first record is of another branch. -/
theorem second_pass_reports_iff {text : List Char} {records : List Record}
    (h : WellFormed text records) (hmiss : ∃ r ∈ records, r.mispredicted = true) :
    firstPass visit [] text = .ok records ∧
    secondPass visit [] text = .ok records.tail ∧ records.tail ≠ records ∧
    ∃ a, analyze text = .ok a ∧ Counter.IsMode (missPcs records) a.targetPc ∧
      a.numMispred = (missPcs records).count a.targetPc ∧
      ∀ pc, Counter.IsMode (missPcs records) pc →
        (a.Reports records pc ↔ ∀ r, records.head? = some r → r.pc ≠ pc) := by
  obtain ⟨a, ha, hmode, hnum, hidx, hlocal, hlog⟩ := analyze_eq h hmiss
  obtain ⟨r, rs, rfl⟩ := List.exists_cons_of_ne_nil h.nonempty
  refine ⟨?_, ?_, List.ne_cons_self, a, ha, hmode, hnum, ?_⟩
  · rw [firstPass_eq visit h, foldlM_visit, List.nil_append]
  · rw [secondPass_eq visit h, foldlM_visit, List.nil_append]
  · intro pc hpc
    obtain rfl := hpc.unique hmode
    rw [List.tail_cons] at hidx hlocal hlog
    refine ⟨?_, ?_⟩
    · intro hreports r' hr' hpc
      obtain rfl : r = r' := Option.some.inj hr'
      have hright := hreports.localId
      rw [hlocal, ofPc_cons, if_pos hpc, List.length_cons] at hright
      omega
    · intro hfirst
      have hrs : ofPc a.targetPc (r :: rs) = ofPc a.targetPc rs := by
        rw [ofPc_cons, if_neg (hfirst r rfl)]
      have hcount := count_missPcs a.targetPc (r :: rs)
      rw [hrs] at hcount
      have hpos : 0 < (missPcs (r :: rs)).count a.targetPc := List.count_pos_iff.2 hmode.mem
      have hle := List.countP_le_length (p := Record.mispredicted) (l := ofPc a.targetPc rs)
      refine ⟨by rw [hidx, hnum, hcount], by rw [hlocal, hrs], by rw [hlog, hrs], ?_⟩
      rw [Instances.accuracy, hlocal, hidx, hrs, hcount, if_neg (by omega)]

/-- A log of one branch, mispredicted. -/
def onlyMissed : List LoggedBranch := [⟨0x400a10, false, true⟩]

/-- The second pass reads no record of it, and divides by their number. -/
theorem first_record_dropped :
    WellFormed (BPLog.log onlyMissed) (BPLog.records onlyMissed) ∧
    missPcs (BPLog.records onlyMissed) = [0x400a10] ∧
    secondPass visit [] (BPLog.log onlyMissed) = .ok [] ∧
    ∃ a, analyze (BPLog.log onlyMissed) = .ok a ∧ a.targetPc = 0x400a10 ∧ a.numMispred = 1 ∧
      a.instances.idx = 0 ∧ a.instances.localId = 0 ∧ a.instances.outLog = csvHeader ∧
      a.instances.accuracy = .error .zeroDivisionError ∧
      ¬ a.Reports (BPLog.records onlyMissed) 0x400a10 := by
  refine ⟨log_wellFormed (by decide) (by decide), rfl, rfl,
    ⟨⟨1, [0x400a10]⟩, 0x400a10, 1, noInstances⟩, rfl, rfl, rfl, rfl, rfl, rfl, rfl, ?_⟩
  intro hreports
  exact absurd hreports.idx (by decide)

/-- A log of two branches, with a misprediction of the second. -/
def secondMissed : List LoggedBranch := [⟨0x400a10, true, true⟩, ⟨0x400a20, false, true⟩]

theorem second_pass_reports_iff_two :
    ∃ a, analyze (BPLog.log secondMissed) = .ok a ∧
      a.Reports (BPLog.records secondMissed) 0x400a20 := by
  have hlog : WellFormed (BPLog.log secondMissed) (BPLog.records secondMissed) :=
    log_wellFormed (by decide) (by decide)
  have hmiss : ∃ r ∈ BPLog.records secondMissed, r.mispredicted = true := by decide
  obtain ⟨_, _, _, a, ha, hmode, _, hreports⟩ := second_pass_reports_iff hlog hmiss
  have hpc : a.targetPc = 0x400a20 := List.mem_singleton.1 hmode.mem
  refine ⟨a, ha, (hreports 0x400a20 (hpc ▸ hmode)).2 ?_⟩
  intro r hr
  obtain rfl := Option.some.inj hr
  decide

end Analyze

end SandboxPredictor
