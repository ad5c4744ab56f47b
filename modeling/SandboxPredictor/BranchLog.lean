import SandboxPredictor.Lib.Mealy
import SandboxPredictor.Lib.Text
import SandboxPredictor.Word

/- The prediction log and its readers.

   `bplog.bpred` writes a line for each branch (`lastBranchResult`), with the pc
   and the histories in hexadecimal. `analyze.py` parses it, and writes the
   branches of one pc to a csv in binary (`logEntry`), which `singlebp.py` parses.
   Both readers get back what was written (`log_survives_readers`), also through
   the `strip` they put around most lines. -/
namespace SandboxPredictor

/-! ## `bplog.bpred` -/

/-- The variables of the log: the histories, the prediction of the current branch and the
number of branches. -/
structure BPLog where
  globalHistory : Word
  /-- One history for each of the `NUM_BINS` remainders. -/
  localHistory : Fin 64 → Word
  predicted : Bool
  branchCount : BitVec 32

/-- A branch: its ip, what is predicted and its outcome. -/
structure LoggedBranch where
  ip : Word
  prediction : Bool
  taken : Bool
  deriving DecidableEq, Repr

namespace BPLog

/-- `initialize_branch_predictor`, as far as it concerns the log. -/
def initializeBranchPredictor : BPLog where
  globalHistory := 0
  localHistory := fun _ => 0
  predicted := false
  branchCount := 0

def header : List Char := "ID,PC,Predicted,Actual,Global History,Local History\n".toList

/-- `predict_branch`, for what the predictor returns. -/
def predictBranch (s : BPLog) (prediction : Bool) : BPLog := { s with predicted := prediction }

def int2hex (pc : Word) : List Char := Nat.toDigits 16 pc.toNat

/-- A `bool` on an output stream. -/
def flag (b : Bool) : List Char := if b then ['1'] else ['0']

/-- `instr.ip % NUM_BINS`. -/
def bin (ip : Word) : Fin 64 := ⟨ip.toNat % 64, Nat.mod_lt _ (by decide)⟩

/-- `last_branch_result`: the line is written before the histories are updated. -/
def lastBranchResult (s : BPLog) (ip : Word) (taken : Bool) : List Char × BPLog :=
  let idx := bin ip
  let line := (Nat.toDigits 10 s.branchCount.toNat ++ [',']) ++ (int2hex ip ++ [',']) ++
    (flag s.predicted ++ [',']) ++ (flag taken ++ [',']) ++ (int2hex s.globalHistory ++ [',']) ++
    (int2hex (s.localHistory idx) ++ ['\n'])
  let bit : Word := if taken then 1 else 0
  (line, { s with
    branchCount := s.branchCount + 1
    globalHistory := s.globalHistory <<< 1 ||| bit
    localHistory := Function.update s.localHistory idx (s.localHistory idx <<< 1 ||| bit) })

/-- One branch of the simulated program. -/
def branch (s : BPLog) (b : LoggedBranch) : List Char × BPLog :=
  (s.predictBranch b.prediction).lastBranchResult b.ip b.taken

/-- The log of a run. -/
def log (bs : List LoggedBranch) : List Char :=
  (header :: Mealy.outputs branch initializeBranchPredictor bs).flatten

end BPLog

/-! ## The readers -/

/-- The exceptions that the readers raise. -/
inductive PyException where
  | valueError
  | indexError
  | zeroDivisionError
  deriving DecidableEq, Repr

/-- `int(fields[i], base)`. -/
def intItem (base : Nat) (fields : List (List Char)) (i : Nat) : Except PyException Int :=
  match fields[i]? with
  | none => .error .indexError
  | some field =>
    match Text.readInt base field with
    | none => .error .valueError
    | some value => .ok value

namespace Analyze

/-- What `parse_line` returns. -/
structure Record where
  id : Int
  pc : Int
  pred : Int
  fact : Int
  ghist : Int
  lhist : Int
  deriving DecidableEq, Repr

/-- `parse_line` of `analyze.py`. -/
def parseLine (line : List Char) : Except PyException Record := do
  let lineArray := line.splitOn ','
  let id ← intItem 10 lineArray 0
  let pc ← intItem 16 lineArray 1
  let pred ← intItem 10 lineArray 2
  let fact ← intItem 10 lineArray 3
  let ghist ← intItem 16 lineArray 4
  let lhist ← intItem 16 lineArray 5
  return { id, pc, pred, fact, ghist, lhist }

/-- `log_entry`: the line of the per-branch csv. -/
def logEntry (r : Record) : List Char :=
  (Text.showInt 2 r.ghist ++ [',']) ++ (Text.showInt 2 r.lhist ++ [',']) ++
    (Text.showInt 10 r.pred ++ [',']) ++ (Text.showInt 10 r.fact ++ ['\n'])

end Analyze

namespace SingleBP

structure Entry where
  ghist : Int
  lhist : Int
  pred : Bool
  fact : Bool
  deriving DecidableEq, Repr

/-- `parse_line` of `singlebp.py`. -/
def parseLine (line : List Char) : Except PyException Entry := do
  let lineArray := line.splitOn ','
  let ghist ← intItem 2 lineArray 0
  let lhist ← intItem 2 lineArray 1
  let pred ← intItem 10 lineArray 2
  let fact ← intItem 10 lineArray 3
  return { ghist, lhist, pred := pred != 0, fact := fact != 0 }

end SingleBP

/-! ## White space around a line -/

theorem comma_not_space : Text.isSpace ',' = false := rfl

theorem intItem_congr {xs ys : List (List Char)} (h : xs.map Text.strip = ys.map Text.strip)
    (base i : Nat) : intItem base xs i = intItem base ys i := by
  have hi : xs[i]?.map Text.strip = ys[i]?.map Text.strip := by
    rw [← List.getElem?_map, ← List.getElem?_map, h]
  unfold intItem
  cases hx : xs[i]? with
  | none =>
    rw [hx, Option.map_none, eq_comm, Option.map_eq_none_iff] at hi
    rw [hi]
  | some x =>
    rw [hx, Option.map_some, eq_comm, Option.map_eq_some_iff] at hi
    obtain ⟨y, hy, hstrip⟩ := hi
    have hread : Text.readInt base x = Text.readInt base y := by
      rw [← Text.readInt_strip, ← hstrip, Text.readInt_strip]
    rw [hy]
    simp only [hread]

theorem Analyze.parseLine_strip (line : List Char) :
    parseLine (Text.strip line) = parseLine line := by
  have hstrip := Text.map_strip_splitOn comma_not_space line
  unfold parseLine
  simp only [intItem_congr hstrip]

theorem SingleBP.parseLine_strip (line : List Char) :
    parseLine (Text.strip line) = parseLine line := by
  have hstrip := Text.map_strip_splitOn comma_not_space line
  unfold parseLine
  simp only [intItem_congr hstrip]

/-! ## Reading back -/

/-- The fields of a line that is made of fields. -/
theorem intItem_splitOn {fields : List (List Char)} (hne : fields ≠ [])
    (hcomma : ∀ f ∈ fields, ',' ∉ f) (base i : Nat) :
    intItem base ((List.intercalate [','] fields ++ ['\n']).splitOn ',') i =
      intItem base fields i := by
  have hend : ∀ c ∈ ['\n'], Text.isSpace c = true := by
    intro c hc
    rw [List.mem_singleton.1 hc]
    rfl
  have hstrip := Text.map_strip_splitOn_append hend comma_not_space
    (List.intercalate [','] fields)
  rw [List.splitOn_intercalate ',' hcomma hne] at hstrip
  exact intItem_congr hstrip base i

theorem comma_not_mem {base : Nat} (hbase : 1 < base) (hle : base ≤ 16) (n : Nat) :
    ',' ∉ Nat.toDigits base n := Text.not_mem_toDigits hbase hle rfl n

namespace BPLog

theorem flag_eq (b : Bool) : flag b = Nat.toDigits 10 b.toNat := by
  cases b <;> rfl

/-- What `analyze.py` is to read for a branch. -/
def record (s : BPLog) (ip : Word) (taken : Bool) : Analyze.Record where
  id := s.branchCount.toNat
  pc := ip.toNat
  pred := s.predicted.toNat
  fact := taken.toNat
  ghist := s.globalHistory.toNat
  lhist := (s.localHistory (bin ip)).toNat

/-- The fields of the line of a branch. -/
def fields (s : BPLog) (ip : Word) (taken : Bool) : List (List Char) :=
  [Nat.toDigits 10 s.branchCount.toNat, Nat.toDigits 16 ip.toNat,
    Nat.toDigits 10 s.predicted.toNat, Nat.toDigits 10 taken.toNat,
    Nat.toDigits 16 s.globalHistory.toNat, Nat.toDigits 16 (s.localHistory (bin ip)).toNat]

theorem lastBranchResult_fields (s : BPLog) (ip : Word) (taken : Bool) :
    (s.lastBranchResult ip taken).1 = List.intercalate [','] (s.fields ip taken) ++ ['\n'] := by
  simp [lastBranchResult, fields, int2hex, flag_eq, List.intercalate]

theorem comma_not_mem_fields (s : BPLog) (ip : Word) (taken : Bool) :
    ∀ f ∈ s.fields ip taken, ',' ∉ f := by
  simp [fields, comma_not_mem]

theorem parseLine_lastBranchResult (s : BPLog) (ip : Word) (taken : Bool) :
    Analyze.parseLine (s.lastBranchResult ip taken).1 = .ok (s.record ip taken) := by
  have hne : s.fields ip taken ≠ [] := List.cons_ne_nil _ _
  have hitem := intItem_splitOn hne (s.comma_not_mem_fields ip taken)
  rw [lastBranchResult_fields, Analyze.parseLine]
  simp only [hitem]
  simp [intItem, fields, record, Text.readInt_toDigits, bind, Except.bind, pure, Except.pure]

end BPLog

namespace Analyze

/-- The fields of the line of the csv. -/
def entryFields (r : Record) : List (List Char) :=
  [Text.showInt 2 r.ghist, Text.showInt 2 r.lhist, Text.showInt 10 r.pred, Text.showInt 10 r.fact]

theorem comma_not_mem_entryFields (r : Record) : ∀ f ∈ entryFields r, ',' ∉ f := by
  have hshow : ∀ base i, 1 < base → base ≤ 16 → ',' ∉ Text.showInt base i := by
    intro base i hbase hle
    unfold Text.showInt
    split <;> simp [comma_not_mem hbase hle]
  simp [entryFields, hshow]

theorem logEntry_fields (r : Record) :
    logEntry r = List.intercalate [','] (entryFields r) ++ ['\n'] := by
  simp [logEntry, entryFields, List.intercalate]

/-- The csv keeps the histories and, as truth values, the flags of a record. -/
theorem parseLine_logEntry (r : Record) : SingleBP.parseLine (logEntry r) =
    .ok { ghist := r.ghist, lhist := r.lhist, pred := r.pred != 0, fact := r.fact != 0 } := by
  have hne : entryFields r ≠ [] := List.cons_ne_nil _ _
  have hitem := intItem_splitOn hne (comma_not_mem_entryFields r)
  rw [logEntry_fields, SingleBP.parseLine]
  simp only [hitem]
  simp [intItem, entryFields, Text.readInt_showInt, bind, Except.bind, pure, Except.pure]

end Analyze

/-! ## Whole logs -/

namespace BPLog

/-- The records that the log of a run is to hold. -/
def records (bs : List LoggedBranch) : List Analyze.Record :=
  Mealy.observe branch (fun s b => (s.predictBranch b.prediction).record b.ip b.taken)
    initializeBranchPredictor bs

theorem branch_line (s : BPLog) (b : LoggedBranch) :
    ∃ l, (s.branch b).1 = l ++ ['\n'] ∧ '\n' ∉ l := by
  refine ⟨_, lastBranchResult_fields _ _ _, ?_⟩
  have hdec : ∀ n, '\n' ∉ Nat.toDigits 10 n := fun n =>
    Text.not_mem_toDigits (by decide) (by decide) rfl n
  have hhex : ∀ n, '\n' ∉ Nat.toDigits 16 n := fun n =>
    Text.not_mem_toDigits (by decide) (by decide) rfl n
  simp [fields, List.intercalate, hdec, hhex]

theorem lines_log (bs : List LoggedBranch) :
    Text.lines (log bs) = header :: Mealy.outputs branch initializeBranchPredictor bs := by
  apply Text.lines_flatten
  intro l hl
  rcases List.mem_cons.1 hl with rfl | hl
  · exact ⟨header.dropLast, by decide, by decide⟩
  · refine Mealy.forall_outputs (C := fun _ => True) (I := fun _ => True)
      (G := fun l => ∃ l', l = l' ++ ['\n'] ∧ '\n' ∉ l') ?_ (fun _ _ => trivial) trivial l hl
    intro s b _ _
    exact ⟨s.branch_line b, trivial⟩

/-- `analyze.py` reads every record of the log. -/
theorem map_parseLine_outputs (bs : List LoggedBranch) :
    (Mealy.outputs branch initializeBranchPredictor bs).map Analyze.parseLine =
      (records bs).map Except.ok := by
  unfold records
  generalize initializeBranchPredictor = s
  induction bs generalizing s with
  | nil => rfl
  | cons b bs ih =>
    rw [Mealy.outputs, List.map_cons, ih]
    rw [branch, parseLine_lastBranchResult]
    rfl

theorem map_pc_records (bs : List LoggedBranch) :
    (records bs).map Analyze.Record.pc = bs.map (fun b => (b.ip.toNat : Int)) := by
  unfold records
  generalize initializeBranchPredictor = s
  induction bs generalizing s with
  | nil => rfl
  | cons b bs ih =>
    rw [List.map_cons, ← ih (s.branch b).2]
    rfl

end BPLog

/-- **The log survives its readers.** Whatever the histories, the branch number and the
prediction, the line that is written for a branch is parsed into exactly these values, and the
line of the csv written for it into the same histories, prediction and outcome. -/
theorem log_survives_readers (s : BPLog) (ip : Word) (taken : Bool) :
    let line := (s.lastBranchResult ip taken).1
    let entry := Analyze.logEntry (s.record ip taken)
    let read : SingleBP.Entry := {
      ghist := s.globalHistory.toNat
      lhist := (s.localHistory (BPLog.bin ip)).toNat
      pred := s.predicted
      fact := taken }
    Analyze.parseLine line = .ok (s.record ip taken) ∧
    Analyze.parseLine (Text.strip line) = .ok (s.record ip taken) ∧
    SingleBP.parseLine entry = .ok read ∧
    SingleBP.parseLine (Text.strip entry) = .ok read := by
  intro line entry read
  have hline : Analyze.parseLine line = .ok (s.record ip taken) :=
    s.parseLine_lastBranchResult ip taken
  have hflag : ∀ b : Bool, ((b.toNat : Int) != 0) = b := by decide
  have hentry : SingleBP.parseLine entry = .ok read := by
    rw [Analyze.parseLine_logEntry]
    simp only [BPLog.record, hflag, read]
  refine ⟨hline, ?_, hentry, ?_⟩
  · rw [Analyze.parseLine_strip, hline]
  · rw [SingleBP.parseLine_strip, hentry]

end SandboxPredictor
