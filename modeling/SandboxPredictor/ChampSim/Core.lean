import SandboxPredictor.ChampSim.Instr
import SandboxPredictor.Lib.RingScan
import SandboxPredictor.Predictor

/- The core of `src/ooo_cpu.cc`, with a branch predictor plugged in.

   Instructions are read from the trace into the fetch buffer, predicted as they are
   read, sent to the decode buffer once their lines have arrived, and dispatched to
   the reorder buffer. There they are scheduled in order, wait for the instructions
   that produce their registers, are executed when those are complete, and retire in
   order.

   The load and store queues and the caches are left outside: what they do to an
   instruction of the reorder buffer are operations of their own, and whether they
   have room is given. -/
namespace SandboxPredictor

def FETCH_WIDTH : Nat := 6
def DECODE_WIDTH : Nat := 6
def EXEC_WIDTH : Nat := 6
def RETIRE_WIDTH : Nat := 4
def SCHEDULER_SIZE : Nat := 128
def BRANCH_MISPREDICT_PENALTY : Nat := 1

/-- A place in the reorder buffer, of `ROB_SIZE` places. -/
abbrev RobIndex : Type := Fin (351 + 1)

/-- The place as a member of a `fastset`. -/
def asMember (i : RobIndex) : SetValue := Fin.castLE (by decide) i

/-- A value taken from a `fastset` as a place. -/
def ofMember (v : SetValue) : RobIndex := Ring.cell Ring.first v.val

/-! ## Buffers -/

/-- `CORE_BUFFER` of `n + 1` places. -/
structure CoreBuffer (n : Nat) where
  head : Fin (n + 1) := Ring.first
  tail : Fin (n + 1) := Ring.first
  occupancy : Nat := 0
  nextFetch : Fin (n + 1) := Ring.first
  nextSchedule : Fin (n + 1) := Ring.first
  entry : Fin (n + 1) → OooModelInstr := fun _ => OooModelInstr.empty

namespace CoreBuffer

variable {n : Nat}

/-- An entry changed where it is. -/
def modify (b : CoreBuffer n) (i : Fin (n + 1)) (f : OooModelInstr → OooModelInstr) :
    CoreBuffer n :=
  { b with entry := Function.update b.entry i (f (b.entry i)) }

/-- The entries with a property changed, those of empty places too. -/
def modifyAll (b : CoreBuffer n) (p : OooModelInstr → Bool) (f : OooModelInstr → OooModelInstr) :
    CoreBuffer n :=
  { b with entry := fun i => if p (b.entry i) then f (b.entry i) else b.entry i }

/-- An instruction put at the tail. -/
def append (b : CoreBuffer n) (now : Nat) (x : OooModelInstr) : CoreBuffer n :=
  { b with
    entry := Function.update b.entry b.tail { x with eventCycle := now },
    occupancy := b.occupancy + 1, tail := Ring.next b.tail }

/-- What the three `add_to` functions have in common; `none` is a failed assertion. -/
def push (b : CoreBuffer n) (now : Nat) (x : OooModelInstr) : Option (CoreBuffer n) :=
  if (b.entry b.tail).instrId ≠ 0 then none else some (b.append now x)

/-- The oldest instruction taken out. -/
def drop (b : CoreBuffer n) : CoreBuffer n :=
  { b with entry := Function.update b.entry b.head OooModelInstr.empty,
           occupancy := b.occupancy - 1, head := Ring.next b.head }

/-- `add_to_rob`. -/
def addToRob (b : CoreBuffer n) (now : Nat) (x : OooModelInstr) : Option (CoreBuffer n) :=
  (b.push now x).bind fun b' => if x.ip = 0#64 then none else some b'

/-- `add_to_ifetch_buffer`; the instruction is translated at once. -/
def addToIfetchBuffer (b : CoreBuffer n) (now : Nat) (x : OooModelInstr) : Option (CoreBuffer n) :=
  b.push now { x with translated := COMPLETED, fetched := 0 }

/-- `add_to_decode_buffer`. -/
def addToDecodeBuffer (b : CoreBuffer n) (now : Nat) (x : OooModelInstr) : Option (CoreBuffer n) :=
  b.push now x

end CoreBuffer

/-- A Ready-To-Execute array; `none` is `ROB_SIZE`. -/
structure ReadyQueue where
  head : RobIndex := Ring.first
  tail : RobIndex := Ring.first
  entry : RobIndex → Option RobIndex := fun _ => none

def ReadyQueue.append (q : ReadyQueue) (i : RobIndex) : ReadyQueue :=
  { q with entry := Function.update q.entry q.tail (some i), tail := Ring.next q.tail }

/-- `none` is a failed assertion. -/
def ReadyQueue.push (q : ReadyQueue) (i : RobIndex) : Option ReadyQueue :=
  if (q.entry q.tail).isSome then none else some (q.append i)

def ReadyQueue.pop (q : ReadyQueue) : ReadyQueue :=
  { q with entry := Function.update q.entry q.head none, head := Ring.next q.head }

/-! ## The core -/

/-- The trace, as the sequence of the records read when it is repeated without end, what
the predictor draws for each branch, and the latencies. -/
structure CoreConfig (ρ : Type) where
  trace : Nat → InputInstr
  draw : Nat → ρ
  SCHEDULING_LATENCY : Nat := 0
  EXEC_LATENCY : Nat := 0
  DECODE_LATENCY : Nat := 0

/-- `O3_CPU`. -/
structure Core (σ : Type) where
  predictor : σ
  instrUniqueId : Nat := 0
  currentInstr : InputInstr := {}
  nextInstr : InputInstr := {}
  IFETCH_BUFFER : CoreBuffer 11 := {}
  DECODE_BUFFER : CoreBuffer 17 := {}
  ROB : CoreBuffer 351 := {}
  RTE0 : ReadyQueue := {}
  RTE1 : ReadyQueue := {}
  fetchStall : Bool := false
  fetchResumeCycle : Nat := 0
  numBranch : Nat := 0
  branchMispredictions : Nat := 0
  totalRobOccupancyAtBranchMispredict : Nat := 0
  totalBranchTypes : BranchType → Nat := fun _ => 0
  inflightRegExecutions : Nat := 0
  inflightMemExecutions : Nat := 0
  completedExecutions : Nat := 0
  numRetired : Nat := 0

namespace Core

variable {σ ρ : Type}

/-! ## Reading the trace -/

section read

variable [Predictor σ ρ] (cfg : CoreConfig ρ) (warm : Bool) (now : Nat)

/-- A branch predicted and the predictor told its outcome, at the place `i` of the fetch
buffer. The flag says that no more is read in this cycle. -/
def predictBranch (i : Fin (11 + 1)) (x : OooModelInstr) (c : Core σ) : Bool × Core σ :=
  let (prediction, predictor) := execute c.predictor ⟨x.ip, x.branchTaken, cfg.draw c.numBranch⟩
  let c₁ := { c with predictor := predictor, numBranch := c.numBranch + 1 }
  if x.branchTaken ≠ prediction.taken then
    let c₂ := { c₁ with
      branchMispredictions := c.branchMispredictions + 1,
      totalRobOccupancyAtBranchMispredict :=
        c.totalRobOccupancyAtBranchMispredict + c.ROB.occupancy }
    if warm then
      (true, { c₂ with
        fetchStall := true,
        IFETCH_BUFFER := c.IFETCH_BUFFER.modify i ({ · with branchMispredicted := true }) })
    else (false, c₂)
  else (prediction.taken, c₁)

/-- What is left to do when the instruction `x` is in the fetch buffer, `buffer` now. -/
def enter (current next : InputInstr) (x : OooModelInstr) (buffer : CoreBuffer 11)
    (c : Core σ) : Bool × Core σ :=
  let c₁ := { c with
    currentInstr := current, nextInstr := next, IFETCH_BUFFER := buffer,
    totalBranchTypes := Function.update c.totalBranchTypes x.branchType
      (c.totalBranchTypes x.branchType + 1),
    instrUniqueId := c.instrUniqueId + 1 }
  if x.isBranch then c₁.predictBranch cfg warm c.IFETCH_BUFFER.tail x else (false, c₁)

/-- The loop body of `read_from_trace`. -/
def readInstr (c : Core σ) : Option (Bool × Core σ) :=
  let traceReadInstr := cfg.trace c.instrUniqueId
  let current := if c.instrUniqueId = 0 then traceReadInstr else c.nextInstr
  let x := current.archInstr c.instrUniqueId traceReadInstr
  (c.IFETCH_BUFFER.addToIfetchBuffer now x).map fun buffer =>
    c.enter cfg warm current traceReadInstr x buffer

/-- `read_from_trace`, with as many reads left as are allowed in the cycle. -/
def readLoop : Nat → Core σ → Option (Core σ)
  | 0, c => some c
  | reads + 1, c =>
    (c.readInstr cfg warm now).bind fun (stop, c') =>
      if stop || c'.IFETCH_BUFFER.occupancy = 12 then some c' else readLoop reads c'

/-- `read_from_trace`, called when there is room and fetching is not stalled. -/
def readFromTrace (c : Core σ) : Option (Core σ) :=
  if c.IFETCH_BUFFER.occupancy < 12 ∧ c.fetchStall = false then
    c.readLoop cfg warm now FETCH_WIDTH
  else some c

end read

/-! ## Fetching and decoding -/

section fetch

variable {n : Nat} (now : Nat)

/-- The requests of `fetch_instruction` for the entry `i`; `itlb` and `l1i` say whether
they are accepted. -/
def requestLine (itlb l1i : Bool) (i : Fin (n + 1)) (b : CoreBuffer n) : CoreBuffer n :=
  let ip := (b.entry i).ip
  let b₁ :=
    if (b.entry i).translated = 0 ∧ itlb then
      b.modifyAll (fun e => e.ip >>> 12 = ip >>> 12 && e.translated = 0)
        ({ · with translated := INFLIGHT, fetched := 0 })
    else b
  if (b₁.entry i).translated = COMPLETED ∧ (b₁.entry i).fetched = 0 ∧ l1i then
    b₁.modifyAll (fun e => e.ip >>> 6 = ip >>> 6)
      ({ · with translated := COMPLETED, fetched := INFLIGHT })
  else b₁

/-- The scan for instructions to be fetched, up to the first empty place. -/
def requestLoop (itlb l1i : Fin (n + 1) → Bool) : List (Fin (n + 1)) → CoreBuffer n → CoreBuffer n
  | [], b => b
  | i :: l, b =>
    if (b.entry i).ip = 0#64 then b
    else requestLoop itlb l1i l (requestLine (itlb i) (l1i i) i b)

/-- Sending to the decode stage. -/
def sendLoop : Nat → Core σ → Option (Core σ)
  | 0, c => some c
  | k + 1, c =>
    let x := c.IFETCH_BUFFER.entry c.IFETCH_BUFFER.head
    if x.ip = 0#64 then some c
    else if x.translated = COMPLETED ∧ x.fetched = COMPLETED then
      if c.DECODE_BUFFER.occupancy < 18 then
        (c.DECODE_BUFFER.addToDecodeBuffer now x).bind fun buffer =>
          sendLoop k { c with
            DECODE_BUFFER := buffer.modify c.DECODE_BUFFER.tail ({ · with eventCycle := 0 }),
            IFETCH_BUFFER := c.IFETCH_BUFFER.drop }
      else some c
    else sendLoop k c

/-- `fetch_instruction`. -/
def fetchInstruction (itlb l1i : Fin (11 + 1) → Bool) (c : Core σ) : Option (Core σ) :=
  let c₁ := if c.fetchStall ∧ now ≥ c.fetchResumeCycle ∧ c.fetchResumeCycle ≠ 0
    then { c with fetchStall := false, fetchResumeCycle := 0 } else c
  if c₁.IFETCH_BUFFER.occupancy = 0 then some c₁
  else
    let places := (List.range 12).map (Ring.cell c₁.IFETCH_BUFFER.head)
    sendLoop now DECODE_WIDTH
      { c₁ with IFETCH_BUFFER := requestLoop itlb l1i places c₁.IFETCH_BUFFER }

/-- `complete_instr_fetch`, for the address that the TLB or the L1 cache is done with. -/
def completeInstrFetch (isItTlb : Bool) (ip : Word) (c : Core σ) : Core σ :=
  { c with
    IFETCH_BUFFER :=
      if isItTlb then
        c.IFETCH_BUFFER.modifyAll (fun e => e.ip >>> 12 = ip >>> 12)
          ({ · with translated := COMPLETED, fetched := 0 })
      else
        c.IFETCH_BUFFER.modifyAll (fun e => e.ip >>> 6 = ip >>> 6)
          ({ · with translated := COMPLETED, fetched := COMPLETED }) }

/-- The dispatch of decoded instructions to the reorder buffer. -/
def dispatchLoop (warm : Bool) : Nat → Nat → Core σ → Option (Core σ)
  | 0, _, c => some c
  | k + 1, countDispatches, c =>
    let x := c.DECODE_BUFFER.entry c.DECODE_BUFFER.head
    if x.ip = 0#64 then some c
    else if (warm = false ∧ c.ROB.occupancy < 352)
        ∨ (x.eventCycle ≠ 0 ∧ x.eventCycle < now ∧ c.ROB.occupancy < 352) then
      (c.ROB.addToRob now x).bind fun rob =>
        let c' := { c with ROB := rob, DECODE_BUFFER := c.DECODE_BUFFER.drop }
        if countDispatches + 1 ≥ DECODE_WIDTH then some c'
        else dispatchLoop warm k (countDispatches + 1) c'
    else some c

/-- New instructions pay the decode latency. -/
def decodeLoop (latency : Nat) : Nat → Fin (n + 1) → Nat → CoreBuffer n → CoreBuffer n
  | 0, _, _, b => b
  | k + 1, i, countDecodes, b =>
    if (b.entry b.head).ip = 0#64 then b
    else
      let isNew : Bool := (b.entry i).eventCycle = 0
      let b' := if isNew then b.modify i ({ · with eventCycle := now + latency }) else b
      let count := if isNew then countDecodes + 1 else countDecodes
      if i = b.tail ∨ count ≥ DECODE_WIDTH then b'
      else decodeLoop latency k (Ring.next i) count b'

/-- `decode_and_dispatch`. -/
def decodeAndDispatch (cfg : CoreConfig ρ) (warm : Bool) (c : Core σ) : Option (Core σ) :=
  (dispatchLoop now warm 18 0 c).map fun c' =>
    { c' with DECODE_BUFFER :=
        decodeLoop now cfg.DECODE_LATENCY 18 c'.DECODE_BUFFER.head 0 c'.DECODE_BUFFER }

end fetch

/-! ## Scheduling -/

section schedule

variable (cfg : CoreConfig ρ) (now : Nat)

/-- A latency added to the event cycle of an instruction. -/
def addLatency (latency : Nat) (x : OooModelInstr) : OooModelInstr :=
  { x with eventCycle := if x.eventCycle < now then now + latency else x.eventCycle + latency }

/-- `reg_RAW_dependency`: the source `j` of `current` is to wait for `prior`, if that
writes it. -/
def regRAWDependency (prior current : RobIndex) (b : CoreBuffer 351)
    (j : Fin NUM_INSTR_SOURCES) : CoreBuffer 351 :=
  if (b.entry prior).arch.writes ((b.entry current).sourceRegisters j) then
    (b.modify prior fun p =>
      { p with
        registersInstrsDependOnMe := p.registersInstrsDependOnMe.insert (asMember current),
        registersIndexDependOnMe := Function.update p.registersIndexDependOnMe j
          ((p.registersIndexDependOnMe j).insert (asMember current)),
        regRAWProducer := true }).modify current fun x =>
      { x with
        regReady := false, producerId := (b.entry prior).instrId,
        numRegDependent := x.numRegDependent + 1,
        regRAWChecked := Function.update x.regRAWChecked j true }
  else b

/-- The sources of `current` looked for in one older instruction. -/
def checkPrior (current : RobIndex) (b : CoreBuffer 351) (prior : RobIndex) : CoreBuffer 351 :=
  if (b.entry prior).executed ≠ COMPLETED then
    (List.finRange NUM_INSTR_SOURCES).foldl
      (fun b' j =>
        if (b'.entry current).sourceRegisters j ≠ 0#8
            ∧ (b'.entry current).regRAWChecked j = false then
          regRAWDependency prior current b' j
        else b') b
  else b

/-- `reg_dependency`: the older instructions from the youngest to the oldest, in one
stretch or in two. -/
def regDependency (b : CoreBuffer 351) (i : RobIndex) : CoreBuffer 351 :=
  if i ≠ b.head then (Ring.scan b.head i).reverse.foldl (checkPrior i) b else b

/-- `do_scheduling`; `none` is a failed assertion. -/
def doScheduling (i : RobIndex) (c : Core σ) : Option (Core σ) :=
  let b := regDependency (c.ROB.modify i ({ · with regReady := true })) i
  let b := { b with nextSchedule := Ring.next i }
  if (b.entry i).isMemory then
    some { c with ROB := b.modify i ({ · with scheduled := INFLIGHT }) }
  else
    let c' := { c with
      ROB := b.modify i (fun x =>
        addLatency now cfg.SCHEDULING_LATENCY { x with scheduled := COMPLETED }) }
    if (b.entry i).regReady then (c.RTE1.push i).map fun q => { c' with RTE1 := q }
    else some c'

def scheduleLoop : List RobIndex → Nat → Core σ → Option (Core σ)
  | [], _, c => some c
  | i :: l, numSearched, c =>
    let x := c.ROB.entry i
    if x.fetched ≠ COMPLETED ∨ x.eventCycle > now ∨ numSearched ≥ SCHEDULER_SIZE then some c
    else
      (if x.scheduled = 0 then c.doScheduling cfg now i else some c).bind
        (scheduleLoop l (numSearched + 1))

/-- `schedule_instruction`. `next_fetch[1]` stays 0, so that no more is scheduled than
what lies between the head and the end of the array. -/
def scheduleInstruction (c : Core σ) : Option (Core σ) :=
  if c.ROB.head = c.ROB.tail ∧ c.ROB.occupancy = 0 then some c
  else c.scheduleLoop cfg now (Ring.scan c.ROB.head c.ROB.nextFetch) 0

end schedule

/-! ## Execution -/

section execute

variable (cfg : CoreConfig ρ) (now : Nat)

/-- `do_execution`. -/
def doExecution (i : RobIndex) (c : Core σ) : Core σ :=
  { c with
    ROB := c.ROB.modify i (fun x => addLatency now cfg.EXEC_LATENCY { x with executed := INFLIGHT }),
    inflightRegExecutions := c.inflightRegExecutions + 1 }

/-- The two loops of `execute_instruction`, with what is left of `EXEC_WIDTH`. -/
def execLoop0 : Nat → Core σ → Nat × Core σ
  | 0, c => (0, c)
  | k + 1, c =>
    match c.RTE0.entry c.RTE0.head with
    | none => (k + 1, c)
    | some i =>
      if (c.ROB.entry i).eventCycle ≤ now then
        execLoop0 k { c.doExecution cfg now i with RTE0 := c.RTE0.pop }
      else (k + 1, c)

def execLoop1 : Nat → Core σ → Core σ
  | 0, c => c
  | k + 1, c =>
    match c.RTE1.entry c.RTE1.head with
    | none => c
    | some i =>
      if (c.ROB.entry i).eventCycle ≤ now then
        execLoop1 k { c.doExecution cfg now i with RTE1 := c.RTE1.pop }
      else c

/-- `execute_instruction`. -/
def executeInstruction (c : Core σ) : Core σ :=
  if c.ROB.head = c.ROB.tail ∧ c.ROB.occupancy = 0 then c
  else
    let (left, c') := c.execLoop0 cfg now EXEC_WIDTH
    c'.execLoop1 cfg now left

/-- An instruction whose last producer is complete. -/
def wake (i : RobIndex) (c : Core σ) : Option (Core σ) :=
  if (c.ROB.entry i).isMemory then
    some { c with ROB := c.ROB.modify i ({ · with regReady := true, scheduled := INFLIGHT }) }
  else
    (c.RTE0.push i).map fun q =>
      { c with
        ROB := c.ROB.modify i ({ · with regReady := true, scheduled := COMPLETED }), RTE0 := q }

/-- One source of the instruction `i` that waits for `p` no longer. -/
def releaseSource (p i : RobIndex) (c : Core σ) (j : Fin NUM_INSTR_SOURCES) : Option (Core σ) :=
  if ((c.ROB.entry p).registersIndexDependOnMe j).search (asMember i) = some true then
    let c' := { c with
      ROB := c.ROB.modify i ({ · with numRegDependent := (c.ROB.entry i).numRegDependent - 1 }) }
    if (c'.ROB.entry i).numRegDependent = 0 then c'.wake i else some c'
  else some c

/-- `reg_RAW_release`. -/
def regRAWRelease (p : RobIndex) (c : Core σ) : Option (Core σ) :=
  ((c.ROB.entry p).registersInstrsDependOnMe.expand 352).foldlM
    (fun c v => (List.finRange NUM_INSTR_SOURCES).foldlM (releaseSource p (ofMember v)) c) c

/-- The part of `complete_execution` that the two kinds of instructions share. -/
def complete (i : RobIndex) (c : Core σ) : Option (Core σ) :=
  let x := c.ROB.entry i
  let c₁ := { c with
    ROB := c.ROB.modify i ({ · with executed := COMPLETED }),
    completedExecutions := c.completedExecutions + 1 }
  (if x.regRAWProducer then c₁.regRAWRelease i else some c₁).map fun c₂ =>
    if x.branchMispredicted then { c₂ with fetchResumeCycle := now + BRANCH_MISPREDICT_PENALTY }
    else c₂

/-- `complete_execution`. -/
def completeExecution (c : Core σ) (i : RobIndex) : Option (Core σ) :=
  let x := c.ROB.entry i
  if x.isMemory = false then
    if x.executed = INFLIGHT ∧ x.eventCycle ≤ now then
      complete now i { c with inflightRegExecutions := c.inflightRegExecutions - 1 }
    else some c
  else if x.numMemOps = 0 then
    if x.executed = INFLIGHT ∧ x.eventCycle ≤ now then
      complete now i { c with inflightMemExecutions := c.inflightMemExecutions - 1 }
    else some c
  else some c

/-- The end of `update_rob`. -/
def updateRob (c : Core σ) : Option (Core σ) :=
  if c.inflightRegExecutions > 0 ∨ c.inflightMemExecutions > 0 then
    (Ring.scan c.ROB.head c.ROB.tail).foldlM (completeExecution now) c
  else some c

/-! ## Memory instructions and retirement -/

/-- `do_memory_scheduling`, when the load and the store queue have room. -/
def doMemoryScheduling (i : RobIndex) (c : Core σ) : Core σ :=
  let x := c.ROB.entry i
  if x.isMemory ∧ x.regReady ∧ x.scheduled = INFLIGHT then
    { c with
      ROB := c.ROB.modify i ({ · with
        scheduled := COMPLETED, executed := if x.executed = 0 then INFLIGHT else x.executed }) }
  else c

/-- One memory operation of the instruction `i` is done; `none` is a failed assertion. -/
def memOpDone (i : RobIndex) (cycle : Nat) (c : Core σ) : Option (Core σ) :=
  let numMemOps := (c.ROB.entry i).numMemOps - 1
  if numMemOps < 0 then none
  else some { c with
    ROB := c.ROB.modify i (fun x => { x with numMemOps := numMemOps, eventCycle := cycle }),
    inflightMemExecutions :=
      if numMemOps = 0 then c.inflightMemExecutions + 1 else c.inflightMemExecutions }

/-- Its translation has arrived. -/
def setEventCycle (i : RobIndex) (cycle : Nat) (c : Core σ) : Core σ :=
  { c with ROB := c.ROB.modify i ({ · with eventCycle := cycle }) }

/-- `retire_rob`, with what is left of `RETIRE_WIDTH`: the instructions retired. `room`
says whether the write queue of the L1 data cache takes the stores. -/
def retireLoop (room : Nat → Bool) : Nat → Core σ → List OooModelInstr × Core σ
  | 0, c => ([], c)
  | k + 1, c =>
    let x := c.ROB.entry c.ROB.head
    if x.ip = 0#64 then ([], c)
    else if x.executed ≠ COMPLETED then ([], c)
    else if InputInstr.count (fun i => x.destinationMemory i ≠ 0#64) ≠ 0 ∧ room k = false then
      ([], c)
    else
      let (retired, c') := retireLoop room k
        { c with ROB := c.ROB.drop, completedExecutions := c.completedExecutions - 1,
                 numRetired := c.numRetired + 1 }
      (x :: retired, c')

def retireRob (room : Nat → Bool) (c : Core σ) : List OooModelInstr × Core σ :=
  c.retireLoop room RETIRE_WIDTH

end execute

end Core

/-! ## The core as a machine -/

/-- The calls of the main loop, and what the memory system does to the instructions. A run
lies between two resets of the statistics: `finish_warmup` is not among the calls. -/
inductive CoreOp where
  | readFromTrace (warm : Bool) (now : Nat)
  | fetchInstruction (itlb l1i : Fin (11 + 1) → Bool) (now : Nat)
  | completeInstrFetch (isItTlb : Bool) (ip : Word)
  | decodeAndDispatch (warm : Bool) (now : Nat)
  | scheduleInstruction (now : Nat)
  | executeInstruction (now : Nat)
  | updateRob (now : Nat)
  | doMemoryScheduling (i : RobIndex)
  | memOpDone (i : RobIndex) (cycle : Nat)
  | setEventCycle (i : RobIndex) (cycle : Nat)
  | retireRob (room : Nat → Bool)

namespace Core

variable {σ ρ : Type} [Predictor σ ρ]

/-- One call: the instructions it retires, or `none` when an assertion fails. -/
def step (cfg : CoreConfig ρ) (c : Core σ) : CoreOp → Option (List OooModelInstr) × Core σ
  | .readFromTrace warm now => still (c.readFromTrace cfg warm now)
  | .fetchInstruction itlb l1i now => still (c.fetchInstruction now itlb l1i)
  | .completeInstrFetch isItTlb ip => (some [], c.completeInstrFetch isItTlb ip)
  | .decodeAndDispatch warm now => still (c.decodeAndDispatch now cfg warm)
  | .scheduleInstruction now => still (c.scheduleInstruction cfg now)
  | .executeInstruction now => (some [], c.executeInstruction cfg now)
  | .updateRob now => still (c.updateRob now)
  | .doMemoryScheduling i => (some [], c.doMemoryScheduling i)
  | .memOpDone i cycle => still (c.memOpDone i cycle)
  | .setEventCycle i cycle => (some [], c.setEventCycle i cycle)
  | .retireRob room => ((c.retireRob room).1, (c.retireRob room).2)
where
  still : Option (Core σ) → Option (List OooModelInstr) × Core σ
    | some c' => (some [], c')
    | none => (none, c)

end Core

end SandboxPredictor
