import SandboxPredictor.ChampSim.CacheQueues
import SandboxPredictor.Lib.Balance
import SandboxPredictor.Lib.FirstMin
import SandboxPredictor.Lib.KeyTable

/- The memory controller of `src/dram_controller.cc`, for the one channel with one rank
   of eight banks that `inc/champsim.h` sets up.

   Reads and writes wait in two tables. The controller serves the reads, and now and
   then a burst of the writes; it hands requests to idle banks, the oldest that finds
   its row open first, and moves their data over one bus. -/
namespace SandboxPredictor

def DRAM_BANKS : Nat := 8
def DRAM_ROWS : Nat := 65536
def LOG2_DRAM_BANKS : Nat := 3
def LOG2_DRAM_COLUMNS : Nat := 7
def CPU_FREQ : Nat := 4000
def DRAM_DBUS_TURN_AROUND_TIME : Nat := 15 * CPU_FREQ / 2000
def UINT32_MAX : Nat := 2 ^ 32 - 1

/-- The latencies that `main` works out. -/
structure DramConfig where
  tRP : Nat
  tRCD : Nat
  tCAS : Nat
  DRAM_DBUS_RETURN_TIME : Nat

def dramGetBank (address : Word) : Fin DRAM_BANKS :=
  ⟨address.toNat % DRAM_BANKS, Nat.mod_lt _ (by decide)⟩

def dramGetRow (address : Word) : Nat :=
  (address >>> (LOG2_DRAM_COLUMNS + LOG2_DRAM_BANKS)).toNat % 2 ^ 32 % DRAM_ROWS

/-- The two queues; `is_WQ` tells them apart. -/
inductive DramQueue where
  | RQ
  | WQ
  deriving DecidableEq, Repr

def DramQueue.other : DramQueue → DramQueue
  | RQ => WQ
  | WQ => RQ

/-- `BANK_REQUEST`; a `request_index` of -1 is `none`. -/
structure BankRequest where
  cycleAvailable : Nat := 0
  openRow : Nat := UINT32_MAX
  working : Bool := false
  workingType : AccessType := .LOAD
  rowBufferHit : Bool := false
  isWrite : Bool := false
  isRead : Bool := false
  requestIndex : Option Nat := none

/-- The channel, with queues of `n + 1` places. `hit` and `access` are those of type 1,
the only ones counted; `none` stands for `NUM_TYPES` in `dbus_congested`. -/
structure Dram (n : Nat) where
  queue : DramQueue → PacketQueue n
  bank : Fin DRAM_BANKS → BankRequest := fun _ => {}
  dbusCycleAvailable : Nat := 0
  dbusCycleCongested : Nat := 0
  dbusCongested : Option AccessType → Option AccessType → Nat := fun _ _ => 0
  writeMode : Bool := false
  scheduled : DramQueue → Nat := fun _ => 0
  access : Nat := 0
  hit : Nat := 0

/-- `MEMORY_CONTROLLER()`. -/
def Dram.init (n : Nat) : Dram n where
  queue
    | .RQ => { name := "DRAM_RQ0" }
    | .WQ => { name := "DRAM_WQ0" }

namespace PacketQueue

variable {n : Nat}

/-- `check_dram_queue`; `none` is -1. -/
def checkDramQueue (q : PacketQueue n) (p : Packet) : Option (Fin (n + 1)) :=
  KeyTable.find Packet.address q.entry p.address

def waits (q : PacketQueue n) (i : Fin (n + 1)) : Bool :=
  (q.entry i).address ≠ 0#64 && !(q.entry i).scheduled

/-- `update_schedule_cycle`. -/
def updateScheduleCycle (q : PacketQueue n) : PacketQueue n :=
  let next := FirstMin.firstMin q.waits (fun i => (q.entry i).eventCycle) UINT64_MAX
  { q with nextScheduleCycle := next.2, nextScheduleIndex := next.1 }

/-- `update_process_cycle`. -/
def updateProcessCycle (q : PacketQueue n) : PacketQueue n :=
  let next := FirstMin.firstMin (fun i => (q.entry i).scheduled)
    (fun i => (q.entry i).eventCycle) UINT64_MAX
  { q with nextProcessCycle := next.2, nextProcessIndex := next.1 }

/-- `ROW_BUFFER_HIT++` or `ROW_BUFFER_MISS++`. -/
def countRow (q : PacketQueue n) (hit : Bool) : PacketQueue n :=
  if hit then { q with rowBufferHit := q.rowBufferHit + 1 }
  else { q with rowBufferMiss := q.rowBufferMiss + 1 }

/-- The packet put in the first free place. -/
def fill (q : PacketQueue n) (p : Packet) : PacketQueue n :=
  match KeyTable.find Packet.address q.entry 0#64 with
  | some i => { q with entry := Function.update q.entry i p, occupancy := q.occupancy + 1 }
  | none => q

end PacketQueue

/-- What comes of an operation of the controller. -/
inductive DramEvent where
  | added (k : DramQueue) (address : Word)
  | merged (index : Nat)
  | answered (l : List (Port × Packet))
  | dropped
  | served (k : DramQueue) (cycle : Nat) (p : Packet)
  | idle
  | failed

/-- A request that waits again, and one that its bank is busy with. -/
def Packet.putBack (cycle : Nat) (e : Packet) : Packet :=
  { e with scheduled := false, eventCycle := cycle }

def Packet.handOut (cycle : Nat) (e : Packet) : Packet :=
  { e with scheduled := true, eventCycle := cycle }

/-- The bank left free, in `reset_remain_requests` and in `process`. -/
def BankRequest.release (b : BankRequest) : BankRequest :=
  { b with requestIndex := none, rowBufferHit := false, working := false }

namespace Dram

variable {n : Nat} (cfg : DramConfig) (now : Nat → Nat)

/-- The bank that the entry `i` of a queue goes to. -/
def bankOf (d : Dram n) (k : DramQueue) (i : Fin (n + 1)) : BankRequest :=
  d.bank (dramGetBank ((d.queue k).entry i).address)

/-- The loop body of `reset_remain_requests`. -/
def resetEntry (k : DramQueue) (d : Dram n) (i : Fin (n + 1)) : Dram n :=
  let e := (d.queue k).entry i
  let b := d.bankOf k i
  if e.scheduled then
    { d with
      bank := Function.update d.bank (dramGetBank e.address)
        { b.release with
          openRow := if (b.cycleAvailable + 2 ^ 64 - cfg.tCAS) % 2 ^ 64 ≤ now e.cpu
            then dramGetRow e.address else UINT32_MAX,
          cycleAvailable := now e.cpu, isWrite := false, isRead := b.isWrite && b.isRead },
      scheduled :=
        if b.isWrite then Function.update d.scheduled .WQ (d.scheduled .WQ - 1)
        else if b.isRead then Function.update d.scheduled .RQ (d.scheduled .RQ - 1)
        else d.scheduled,
      queue := Function.update d.queue k ((d.queue k).setEntry i (e.putBack (now e.cpu))) }
  else d

/-- Both queues brought up to date. -/
def updateCycles (d : Dram n) : Dram n :=
  { d with queue := fun k => (d.queue k).updateScheduleCycle.updateProcessCycle }

/-- `reset_remain_requests`; `none` is a failed assertion. -/
def resetRemainRequests (k : DramQueue) (d : Dram n) : Option (Dram n) :=
  let d' := (List.finRange (n + 1)).foldl (resetEntry cfg now k) d
  if d'.scheduled k ≠ 0 then none else some d'.updateCycles

/-- The queue that is served. -/
def mode (d : Dram n) : DramQueue := if d.writeMode then .WQ else .RQ

/-- The bus turned around, to serve the queue `k` after the other. -/
def turn (k : DramQueue) (d : Dram n) : Option (Dram n) :=
  (resetRemainRequests cfg now k.other { d with writeMode := k = .WQ }).map fun d' =>
    { d' with dbusCycleAvailable := d'.dbusCycleAvailable + DRAM_DBUS_TURN_AROUND_TIME }

/-- The first part of `operate`. -/
def switchMode (d : Dram n) : Option (Dram n) :=
  let writes := (d.queue .WQ).occupancy
  let reads := (d.queue .RQ).occupancy
  if d.writeMode = false ∧ (writes ≥ (n + 1) * 7 / 8 ∨ (reads = 0 ∧ writes > 0)) then
    d.turn cfg now .WQ
  else if d.writeMode = true ∧ (writes = 0 ∨ (reads ≠ 0 ∧ writes < (n + 1) * 3 / 4)) then
    d.turn cfg now .RQ
  else some d

/-- A request waits for a bank that is free. -/
def ready (d : Dram n) (k : DramQueue) (i : Fin (n + 1)) : Bool :=
  (d.queue k).waits i && !(d.bankOf k i).working

/-- And finds its row open. -/
def readyHit (d : Dram n) (k : DramQueue) (i : Fin (n + 1)) : Bool :=
  d.ready k i && (d.bankOf k i).openRow = dramGetRow ((d.queue k).entry i).address

def oldest (d : Dram n) (k : DramQueue) (p : Fin (n + 1) → Bool) : Option (Fin (n + 1)) :=
  (FirstMin.firstMin p (fun i => ((d.queue k).entry i).eventCycle) UINT64_MAX).1

/-- The two searches of `schedule`: the request chosen, and whether its row is open. -/
def pick (d : Dram n) (k : DramQueue) : Option (Fin (n + 1) × Bool) :=
  match d.oldest k (d.readyHit k) with
  | some i => some (i, true)
  | none => (d.oldest k (d.ready k)).map fun i => (i, false)

def latency (rowBufferHit : Bool) : Nat :=
  if rowBufferHit then cfg.tCAS else cfg.tRP + cfg.tRCD + cfg.tCAS

/-- The rest of `schedule`: the bank of the request `i` is now busy with it. -/
def start (k : DramQueue) (d : Dram n) (i : Fin (n + 1)) (rowBufferHit : Bool) : Dram n :=
  let e := (d.queue k).entry i
  let cycle := now e.cpu + latency cfg rowBufferHit
  { d with
    bank := Function.update d.bank (dramGetBank e.address)
      { d.bankOf k i with
        working := true, workingType := e.type, cycleAvailable := cycle,
        requestIndex := some i.val, rowBufferHit := rowBufferHit, isWrite := k = .WQ,
        isRead := k = .RQ, openRow := dramGetRow e.address },
    scheduled := Function.update d.scheduled k (d.scheduled k + 1),
    queue := Function.update d.queue k
      ((d.queue k).setEntry i (e.handOut cycle) |>.updateScheduleCycle.updateProcessCycle) }

/-- `schedule`. -/
def schedule (k : DramQueue) (d : Dram n) : Dram n :=
  match d.pick k with
  | some (i, rowBufferHit) => d.start cfg now k i rowBufferHit
  | none => d

/-- The packet whose data goes over the bus; a read is given the cycle it arrives at. -/
def transferred (k : DramQueue) (d : Dram n) (i : Fin (n + 1)) : Packet :=
  let e := (d.queue k).entry i
  if k = .RQ then { e with eventCycle := now e.cpu + cfg.DRAM_DBUS_RETURN_TIME } else e

/-- The end of a request in `process`: `none` is the failed assertion of `remove_queue`. -/
def finish (k : DramQueue) (d : Dram n) (i : Fin (n + 1)) : Option (Dram n) :=
  let e := (d.queue k).entry i
  let b := d.bankOf k i
  (((d.queue k).countRow b.rowBufferHit).removeQueue i).map fun q' =>
    { d with
      dbusCycleAvailable := now e.cpu + cfg.DRAM_DBUS_RETURN_TIME,
      bank := Function.update d.bank (dramGetBank e.address)
        { b.release with isWrite := false, isRead := false },
      scheduled := Function.update d.scheduled k (d.scheduled k - 1),
      queue := Function.update d.queue k q'.updateProcessCycle }

/-- The bus is busy: the bank has to wait for it. -/
def congest (k : DramQueue) (d : Dram n) (i : Fin (n + 1)) : Dram n :=
  let e := (d.queue k).entry i
  let b := d.bankOf k i
  { d with
    dbusCycleCongested := d.dbusCycleCongested + (d.dbusCycleAvailable - now e.cpu),
    bank := Function.update d.bank (dramGetBank e.address)
      { b with cycleAvailable := d.dbusCycleAvailable },
    dbusCongested := fun s t => d.dbusCongested s t
      + if (s = none ∨ s = some b.workingType) ∧ (t = none ∨ t = some e.type) then 1 else 0 }

/-- `process`. -/
def process (k : DramQueue) (d : Dram n) : DramEvent × Dram n :=
  match (d.queue k).nextProcessIndex with
  | none => (.failed, d)
  | some i =>
    let e := (d.queue k).entry i
    let b := d.bankOf k i
    if b.requestIndex ≠ some i.val then (.failed, d)
    else if b.cycleAvailable ≤ now e.cpu then
      if d.dbusCycleAvailable ≤ now e.cpu then
        match d.finish cfg now k i with
        | some d' => (.served k (now e.cpu) (d.transferred cfg now k i), d')
        | none => (.failed, d)
      else (.idle, d.congest now k i)
    else (.idle, d)

/-- Whether the cycle of the next entry of a queue has come. -/
def reached (q : PacketQueue n) (index : Option (Fin (n + 1))) (cycle : Nat) : Bool :=
  index.any fun i => cycle ≤ now (q.entry i).cpu

/-- A new entry of the queue scheduled. -/
def scheduleNext (k : DramQueue) (d : Dram n) : Dram n :=
  if reached now (d.queue k) (d.queue k).nextScheduleIndex (d.queue k).nextScheduleCycle then
    d.schedule cfg now k
  else d

/-- And one processed. -/
def processNext (k : DramQueue) (d : Dram n) : DramEvent × Dram n :=
  if reached now (d.queue k) (d.queue k).nextProcessIndex (d.queue k).nextProcessCycle then
    d.process cfg now k
  else (.idle, d)

/-- `operate`. -/
def operate (d : Dram n) : DramEvent × Dram n :=
  match d.switchMode cfg now with
  | none => (.failed, d)
  | some d' => (d'.scheduleNext cfg now d'.mode).processNext cfg now d'.mode

/-- A request that is answered at once. -/
def answer (p : Packet) : List (Port × Packet) :=
  (if p.instruction then [(.icache, p)] else []) ++ (if p.isData then [(.dcache, p)] else [])

/-- The packet added to the queue `k`, unless it has a request for the block. -/
def add (d : Dram n) (k : DramQueue) (p : Packet) : DramEvent × Dram n :=
  match (d.queue k).checkDramQueue p with
  | some i => (.merged i.val, d)
  | none =>
    (.added k p.address,
      { d with queue := Function.update d.queue k ((d.queue k).fill p).updateScheduleCycle })

/-- The counters of a read that is answered from the write queue. -/
def countForward (d : Dram n) : Dram n :=
  { d with
    access := d.access + 1, hit := d.hit + 1,
    queue
      | .WQ => { d.queue .WQ with forward := (d.queue .WQ).forward + 1 }
      | .RQ => { d.queue .RQ with access := (d.queue .RQ).access + 1 } }

/-- `add_rq`. -/
def addRq (d : Dram n) (warm : Bool) (p : Packet) : DramEvent × Dram n :=
  if warm then
    match (d.queue .WQ).checkDramQueue p with
    | some i =>
      (.answered (answer { p with data := ((d.queue .WQ).entry i).data }), d.countForward)
    | none => d.add .RQ p
  else (.answered (answer p), d)

/-- `add_wq`. -/
def addWq (d : Dram n) (warm : Bool) (p : Packet) : DramEvent × Dram n :=
  if warm then d.add .WQ p else (.dropped, d)

end Dram

/-- A request as the caches send it. -/
structure Packet.Sendable (p : Packet) : Prop where
  address : p.address ≠ 0#64
  cpu : p.cpu < NUM_CPUS
  unscheduled : p.scheduled = false
  cycle : p.eventCycle < UINT64_MAX

/-- The calls that the rest of the simulator makes. `warm` says that the warmup of every
core is complete. -/
inductive DramOp where
  | addRq (warm : Bool) (p : Packet)
  | addWq (warm : Bool) (p : Packet)
  | operate (now : Nat → Nat)

namespace Dram

variable {n : Nat}

def step (cfg : DramConfig) (d : Dram n) : DramOp → DramEvent × Dram n
  | .addRq warm p => d.addRq warm p
  | .addWq warm p => d.addWq warm p
  | .operate now => d.operate cfg now

/-- What the callers promise: a packet has an address and a core, has not been scheduled,
and is only sent when its queue has room; and the clock has not run out. -/
def Allowed (cfg : DramConfig) (d : Dram n) : DramOp → Prop
  | .addRq _ p => p.Sendable ∧ (d.queue .RQ).occupancy < n + 1
  | .addWq _ p => p.Sendable ∧ (d.queue .WQ).occupancy < n + 1
  | .operate now => ∀ c, now c + (cfg.tRP + cfg.tRCD + cfg.tCAS) < UINT64_MAX

end Dram

end SandboxPredictor
