import SandboxPredictor.ChampSim.CacheQueues
import SandboxPredictor.Lib.Balance
import SandboxPredictor.Lib.FirstMin
import SandboxPredictor.Lib.KeyTable

/- The miss status registers of a `CACHE`: the table `MSHR` of `src/cache.cc`, with
   `check_mshr`, `add_mshr`, `return_data`, `update_fill_cycle`, and what
   `handle_read`, `handle_writeback`, `handle_prefetch` and `handle_fill` do to it.

   A request that misses takes an entry, is merged with the entry of its block, or
   waits; the lower level returns the block; and the fill gives the entry up. Over
   every such run each entry taken is filled exactly once (`filled_once`), always
   the earliest one that has been returned (`fill_earliest`). -/
namespace SandboxPredictor

def ROB_SIZE : Nat := 352
def LQ_SIZE : Nat := 128
def SQ_SIZE : Nat := 72

/-- The packet as it enters the registers. -/
def Packet.inflight (now : Nat → Nat) (p : Packet) : Packet :=
  { p with cycleEnqueued := now p.cpu, returned := INFLIGHT }

/-- The entry `e` when its block comes back with the packet `p`. -/
def Packet.complete (cfg : CacheConfig) (now : Nat → Nat) (p e : Packet) : Packet :=
  { e with returned := COMPLETED, data := p.data, pfMetadata := p.pfMetadata,
           eventCycle := (if e.eventCycle < now p.cpu then now p.cpu else e.eventCycle)
                           + cfg.LATENCY }

/-- The block of the entry has come back. -/
def Packet.isCompleted (p : Packet) : Bool := p.returned = COMPLETED

namespace PacketQueue

variable {n : Nat}

/-- `check_mshr`; `none` is -1. -/
def checkMshr (q : PacketQueue n) (p : Packet) : Option (Fin (n + 1)) :=
  KeyTable.find Packet.address q.entry p.address

/-- `add_mshr`: the first free entry is taken. -/
def addMshr (q : PacketQueue n) (now : Nat → Nat) (p : Packet) : PacketQueue n :=
  match KeyTable.find Packet.address q.entry 0#64 with
  | some i =>
    { q with entry := Function.update q.entry i (p.inflight now), occupancy := q.occupancy + 1 }
  | none => q

/-- The entry that `update_fill_cycle` looks for, and its cycle. -/
def nextFill (q : PacketQueue n) : Option (Fin (n + 1)) × Nat :=
  FirstMin.firstMin (fun i => (q.entry i).isCompleted) (fun i => (q.entry i).eventCycle)
    UINT64_MAX

/-- `update_fill_cycle`. -/
def updateFillCycle (q : PacketQueue n) : PacketQueue n :=
  { q with nextFillIndex := q.nextFill.1, nextFillCycle := q.nextFill.2 }

/-- `return_data`; `none` is a failed assertion. -/
def returnData (q : PacketQueue n) (cfg : CacheConfig) (now : Nat → Nat) (p : Packet) :
    Option (PacketQueue n) :=
  (q.checkMshr p).map fun i =>
    updateFillCycle
      { q with numReturned := q.numReturned + 1,
               entry := Function.update q.entry i (p.complete cfg now (q.entry i)) }

/-- The entry that `handle_fill` works on: the next one, when it is due. -/
def fillDue (q : PacketQueue n) (now : Nat → Nat) : Option (Fin (n + 1)) :=
  q.nextFillIndex.filter fun i =>
    (q.entry i).cpu ≠ NUM_CPUS && decide (q.nextFillCycle ≤ now (q.entry i).cpu)

/-- The end of `handle_fill`: the entry is given up. -/
def finishFill (q : PacketQueue n) (i : Fin (n + 1)) : Option (PacketQueue n) :=
  (q.removeQueue i).map fun q' => updateFillCycle { q' with numReturned := q'.numReturned - 1 }

end PacketQueue

/-! ## Requests that meet an entry -/

/-- `mark merged consumer` of `handle_read`. -/
def markConsumer (p e : Packet) : Packet :=
  if p.type = .RFO then
    let e₁ : Packet :=
      if p.tlbAccess then
        { e with storeMerged := true,
                 sqIndexDependOnMe :=
                   (e.sqIndexDependOnMe.insert p.sqIndex).join p.sqIndexDependOnMe SQ_SIZE }
      else e
    if p.loadMerged then
      { e₁ with loadMerged := true,
                lqIndexDependOnMe := e₁.lqIndexDependOnMe.join p.lqIndexDependOnMe LQ_SIZE }
    else e₁
  else if p.instruction then
    let e₁ : Packet :=
      { e with instruction := true, instrMerged := true,
               robIndexDependOnMe := e.robIndexDependOnMe.insert p.robIndex }
    if p.instrMerged then
      { e₁ with robIndexDependOnMe := e₁.robIndexDependOnMe.join p.robIndexDependOnMe ROB_SIZE }
    else e₁
  else
    let e₁ : Packet :=
      { e with isData := true, loadMerged := true,
               lqIndexDependOnMe :=
                 (e.lqIndexDependOnMe.insert p.lqIndex).join p.lqIndexDependOnMe LQ_SIZE }
    if p.storeMerged then
      { e₁ with storeMerged := true,
                sqIndexDependOnMe := e₁.sqIndexDependOnMe.join p.sqIndexDependOnMe SQ_SIZE }
    else e₁

/-- `update fill_level`, which every handler does. -/
def lowerFillLevel (p e : Packet) : Packet :=
  { e with fillLevel := if p.fillLevel < e.fillLevel then p.fillLevel else e.fillLevel,
           fillL1i := p.fillL1i || e.fillL1i, fillL1d := p.fillL1d || e.fillL1d }

/-- `update request`: a demand takes the entry of a prefetch over, which stays returned
as far as it was. -/
def takeOver (p e : Packet) : Packet :=
  if e.type = .PREFETCH then { p with returned := e.returned, eventCycle := e.eventCycle } else e

/-- The handler that a request comes from. -/
inductive Handler where
  | read
  | writeback
  | prefetch
  deriving DecidableEq, Repr

/-- What a handler does to the entry of an in-flight miss. -/
def Handler.merge : Handler → Packet → Packet → Packet
  | read, p, e => takeOver p (lowerFillLevel p (markConsumer p e))
  | writeback, p, e => takeOver p (lowerFillLevel p e)
  | prefetch, p, e => lowerFillLevel p e

/-! ## The registers as a machine -/

/-- What happens to the registers. `room` says whether the lower level has room where the
handler asks: for the request, or for the dirty block that a fill drives out. -/
inductive MissOp where
  | request (handler : Handler) (room : Bool) (now : Nat → Nat) (p : Packet)
  | returnData (now : Nat → Nat) (p : Packet)
  | fill (room : Bool) (now : Nat → Nat)

/-- What comes of it. -/
inductive MissEvent where
  | taken (address : Word)
  | merged
  | passed
  | stalled
  | returned (address : Word)
  | filled (p : Packet)
  | idle
  | failed

/-- How often a block takes an entry, comes back, or is filled in an event. -/
def MissEvent.takes (x : Word) : MissEvent → Nat
  | taken a => if a = x then 1 else 0
  | _ => 0

def MissEvent.returns (x : Word) : MissEvent → Nat
  | returned a => if a = x then 1 else 0
  | _ => 0

def MissEvent.fills (x : Word) : MissEvent → Nat
  | filled p => if p.address = x then 1 else 0
  | _ => 0

namespace PacketQueue

variable {n : Nat}

/-- A request that misses in the cache. A prefetch to be filled into a lower level only
takes no entry. -/
def request (q : PacketQueue n) (cfg : CacheConfig) (h : Handler) (room : Bool)
    (now : Nat → Nat) (p : Packet) : MissEvent × PacketQueue n :=
  match q.checkMshr p with
  | some i => (.merged, q.setEntry i (h.merge p (q.entry i)))
  | none =>
    if q.occupancy < n + 1 then
      if room then
        if h = .prefetch ∧ ¬ p.fillLevel ≤ cfg.fillLevel then (.passed, q)
        else (.taken p.address, q.addMshr now p)
      else (.stalled, q)
    else (.stalled, q)

def missStep (cfg : CacheConfig) (q : PacketQueue n) : MissOp → MissEvent × PacketQueue n
  | .request h room now p => q.request cfg h room now p
  | .returnData now p =>
    match q.returnData cfg now p with
    | some q' => (.returned p.address, q')
    | none => (.failed, q)
  | .fill room now =>
    match q.fillDue now with
    | none => (.idle, q)
    | some i =>
      if room then
        match q.finishFill i with
        | some q' => (.filled (q.entry i), q')
        | none => (.failed, q)
      else (.stalled, q)

/-- What the callers promise: a request has an address and a core; the lower level returns
a block that is in flight, at a cycle there is; and the clock has not run out. -/
def MissAllowed (cfg : CacheConfig) (q : PacketQueue n) : MissOp → Prop
  | .request _ _ _ p => p.address ≠ 0#64 ∧ p.cpu < NUM_CPUS
  | .returnData now p => ∃ i, (q.entry i).address = p.address ∧ p.address ≠ 0#64
      ∧ (q.entry i).returned = INFLIGHT
      ∧ max (q.entry i).eventCycle (now p.cpu) + cfg.LATENCY < UINT64_MAX
  | .fill _ now => ∀ cpu, now cpu < UINT64_MAX

/-- What the registers keep. -/
structure MissInv (q : PacketQueue n) : Prop where
  keyed : KeyTable.Keyed Packet.address 0#64 q.entry q.occupancy
  free : ∀ i, (q.entry i).address = 0#64 → ¬ (q.entry i).isCompleted
  cpu : ∀ i, (q.entry i).address ≠ 0#64 → (q.entry i).cpu < NUM_CPUS
  counted : KeyTable.tally Packet.isCompleted q.entry = q.numReturned
  cycle : ∀ i, (q.entry i).isCompleted → (q.entry i).eventCycle < UINT64_MAX
  next : FirstMin.Cached (fun i => (q.entry i).isCompleted) (fun i => (q.entry i).eventCycle)
    UINT64_MAX q.nextFillIndex q.nextFillCycle

section fields

variable (h : Handler) (p e : Packet)

@[simp] theorem markConsumer_address : (markConsumer p e).address = e.address := by
  unfold markConsumer
  split_ifs <;> rfl

@[simp] theorem markConsumer_returned : (markConsumer p e).returned = e.returned := by
  unfold markConsumer
  split_ifs <;> rfl

@[simp] theorem markConsumer_eventCycle : (markConsumer p e).eventCycle = e.eventCycle := by
  unfold markConsumer
  split_ifs <;> rfl

@[simp] theorem markConsumer_cpu : (markConsumer p e).cpu = e.cpu := by
  unfold markConsumer
  split_ifs <;> rfl

theorem takeOver_address (hp : p.address = e.address) : (takeOver p e).address = e.address := by
  unfold takeOver
  split_ifs
  · exact hp
  · rfl

@[simp] theorem takeOver_returned : (takeOver p e).returned = e.returned := by
  unfold takeOver
  split_ifs <;> rfl

@[simp] theorem takeOver_eventCycle : (takeOver p e).eventCycle = e.eventCycle := by
  unfold takeOver
  split_ifs <;> rfl

theorem takeOver_cpu : (takeOver p e).cpu = p.cpu ∨ (takeOver p e).cpu = e.cpu := by
  unfold takeOver
  split_ifs
  · exact Or.inl rfl
  · exact Or.inr rfl

/-- A merge keeps the block, how far it has come and when it is due. -/
theorem merge_address (hp : p.address = e.address) : (h.merge p e).address = e.address := by
  cases h with
  | read => exact (takeOver_address p _ (by simp [lowerFillLevel, hp])).trans (by simp [lowerFillLevel])
  | writeback => exact (takeOver_address p _ (by simp [lowerFillLevel, hp])).trans rfl
  | prefetch => rfl

theorem merge_returned : (h.merge p e).returned = e.returned := by
  cases h <;> simp [Handler.merge, lowerFillLevel]

theorem merge_eventCycle : (h.merge p e).eventCycle = e.eventCycle := by
  cases h <;> simp [Handler.merge, lowerFillLevel]

theorem merge_cpu : (h.merge p e).cpu = p.cpu ∨ (h.merge p e).cpu = e.cpu := by
  cases h with
  | read =>
    have hcpu := takeOver_cpu p (lowerFillLevel p (markConsumer p e))
    simpa [Handler.merge, lowerFillLevel] using hcpu
  | writeback => exact takeOver_cpu p (lowerFillLevel p e)
  | prefetch => exact Or.inr rfl

end fields

namespace MissInv

variable {cfg : CacheConfig} {q : PacketQueue n} {now : Nat → Nat} {p : Packet}

theorem init (name : String) : MissInv ({ name := name } : PacketQueue n) := by
  have hret : ∀ i, (({ name := name } : PacketQueue n).entry i).isCompleted = false :=
    fun _ => rfl
  exact ⟨KeyTable.Keyed.empty rfl, fun _ _ => Bool.false_ne_true, fun i hi => absurd rfl hi,
    KeyTable.tally_eq_zero.2 hret, fun _ hi => absurd hi Bool.false_ne_true,
    FirstMin.Cached.init hret⟩

/-- `update_fill_cycle` brings the next entry up to date, whatever it was. -/
theorem updateFillCycle
    (keyed : KeyTable.Keyed Packet.address 0#64 q.entry q.occupancy)
    (free : ∀ i, (q.entry i).address = 0#64 → ¬ (q.entry i).isCompleted)
    (cpu : ∀ i, (q.entry i).address ≠ 0#64 → (q.entry i).cpu < NUM_CPUS)
    (counted : KeyTable.tally Packet.isCompleted q.entry = q.numReturned)
    (cycle : ∀ i, (q.entry i).isCompleted → (q.entry i).eventCycle < UINT64_MAX) :
    q.updateFillCycle.MissInv :=
  ⟨keyed, free, cpu, counted, cycle, FirstMin.Cached.fresh _ _ _⟩

/-- A change of one entry that leaves open what has come back and when it is due. -/
theorem setEntry (h : q.MissInv) {i : Fin (n + 1)} {e : Packet} {occupancy : Nat}
    (keyed : KeyTable.Keyed Packet.address 0#64 (Function.update q.entry i e) occupancy)
    (hret : e.isCompleted = (q.entry i).isCompleted)
    (hcycle : (q.entry i).isCompleted → e.eventCycle = (q.entry i).eventCycle)
    (haddr : e.address ≠ 0#64) (hcpu : e.cpu < NUM_CPUS) :
    MissInv { q with entry := Function.update q.entry i e, occupancy := occupancy } := by
  have hrets : ∀ j, (Function.update q.entry i e j).isCompleted = (q.entry j).isCompleted := by
    intro j
    by_cases hji : j = i
    · rw [hji, Function.update_self, hret]
    · rw [Function.update_of_ne hji]
  have hcycles : ∀ j, (q.entry j).isCompleted →
      (Function.update q.entry i e j).eventCycle = (q.entry j).eventCycle := by
    intro j hj
    by_cases hji : j = i
    · subst hji
      rw [Function.update_self, hcycle hj]
    · rw [Function.update_of_ne hji]
  refine ⟨keyed, ?_, ?_, ?_, ?_, h.next.congr hrets hcycles⟩
  · intro j hj
    by_cases hji : j = i
    · subst hji
      simp only [Function.update_self] at hj
      exact absurd hj haddr
    · simp only [Function.update_of_ne hji] at hj ⊢
      exact h.free j hj
  · intro j hj
    by_cases hji : j = i
    · subst hji
      simpa only [Function.update_self] using hcpu
    · simp only [Function.update_of_ne hji] at hj ⊢
      exact h.cpu j hj
  · exact (KeyTable.tally_congr hrets).trans h.counted
  · intro j hj
    have hj' : (q.entry j).isCompleted := (hrets j).symm.trans hj
    exact lt_of_eq_of_lt (hcycles j hj') (h.cycle j hj')

theorem address_ne (h : q.MissInv) {i : Fin (n + 1)} (hi : (q.entry i).isCompleted) :
    (q.entry i).address ≠ 0#64 := fun hz => h.free i hz hi

theorem cpu_eq_zero (h : q.MissInv) {i : Fin (n + 1)} (hi : (q.entry i).isCompleted) :
    (q.entry i).cpu = 0 := Nat.lt_one_iff.1 (h.cpu i (h.address_ne hi))

theorem merge (h : q.MissInv) {i : Fin (n + 1)} (hi : (q.entry i).address = p.address)
    (hp : p.address ≠ 0#64) (hcpu : p.cpu < NUM_CPUS) (hd : Handler) :
    (q.setEntry i (hd.merge p (q.entry i))).MissInv := by
  have haddr := merge_address hd p (q.entry i) hi.symm
  refine h.setEntry (h.keyed.alter _ haddr) ?_ (fun _ => merge_eventCycle hd p _) ?_ ?_
  · rw [Packet.isCompleted, merge_returned, Packet.isCompleted]
  · rw [haddr, hi]
    exact hp
  · rcases merge_cpu hd p (q.entry i) with hc | hc
    · exact hc ▸ hcpu
    · exact hc ▸ h.cpu i (hi ▸ hp)

/-- A miss takes the first free entry, which there is while not all are counted. -/
theorem addMshr (h : q.MissInv) (hroom : q.occupancy < n + 1) (hnew : q.checkMshr p = none)
    (hp : p.address ≠ 0#64) (hcpu : p.cpu < NUM_CPUS) :
    ∃ i, (q.entry i).address = 0#64 ∧ (q.addMshr now p).MissInv
      ∧ (q.addMshr now p).entry = Function.update q.entry i (p.inflight now) := by
  obtain ⟨i, hi⟩ := h.keyed.exists_free hroom
  have hfree := KeyTable.key_of_find hi
  rw [PacketQueue.addMshr, hi]
  refine ⟨i, hfree, ?_, rfl⟩
  refine h.setEntry (h.keyed.put hfree hp (KeyTable.find_eq_none.1 hnew)) ?_ ?_ hp hcpu
  · rw [Bool.eq_false_iff.2 (h.free i hfree)]
    rfl
  · intro hc
    exact absurd hc (h.free i hfree)

/-- The block of an in-flight miss is returned to its entry. -/
theorem returnData (h : q.MissInv) {i : Fin (n + 1)} (hi : (q.entry i).address = p.address)
    (hp : p.address ≠ 0#64) (hfly : (q.entry i).returned = INFLIGHT)
    (hcycle : max (q.entry i).eventCycle (now p.cpu) + cfg.LATENCY < UINT64_MAX) :
    ∃ q', q.returnData cfg now p = some q' ∧ q'.MissInv
      ∧ q'.entry = Function.update q.entry i (p.complete cfg now (q.entry i)) := by
  have hfind : q.checkMshr p = some i := h.keyed.find_eq hi hp
  have hne : (q.entry i).address ≠ 0#64 := hi ▸ hp
  have hdone : (p.complete cfg now (q.entry i)).isCompleted = true := rfl
  have hnot : (q.entry i).isCompleted = false := by
    rw [Packet.isCompleted, hfly]
    rfl
  unfold PacketQueue.returnData
  rw [hfind, Option.map_some]
  refine ⟨_, rfl, ?_, rfl⟩
  refine updateFillCycle (h.keyed.alter _ rfl) ?_ ?_ ?_ ?_
  · intro j hj
    by_cases hji : j = i
    · subst hji
      simp only [Function.update_self] at hj
      exact absurd hj hne
    · simp only [Function.update_of_ne hji] at hj ⊢
      exact h.free j hj
  · intro j hj
    by_cases hji : j = i
    · subst hji
      simp only [Function.update_self]
      exact h.cpu j hne
    · simp only [Function.update_of_ne hji] at hj ⊢
      exact h.cpu j hj
  · have htally := KeyTable.tally_update Packet.isCompleted q.entry i
      (p.complete cfg now (q.entry i))
    rw [hdone, hnot, h.counted] at htally
    simpa using htally
  · intro j hj
    by_cases hji : j = i
    · subst hji
      simp only [Function.update_self, Packet.complete]
      split <;> omega
    · simp only [Function.update_of_ne hji] at hj ⊢
      exact h.cycle j hj

/-- What is due is the first of the earliest entries that have come back, once its cycle is
reached. -/
theorem fillDue_eq_some (h : q.MissInv) (hnow : ∀ c, now c < UINT64_MAX) {i : Fin (n + 1)} :
    q.fillDue now = some i ↔
      FirstMin.IsFirstMin (fun j => (q.entry j).isCompleted) (fun j => (q.entry j).eventCycle) i
        ∧ (q.entry i).eventCycle ≤ now 0 := by
  unfold PacketQueue.fillDue
  rw [Option.filter_eq_some_iff, Bool.and_eq_true, decide_eq_true_iff, decide_eq_true_iff]
  constructor
  · rintro ⟨hnext, -, hdue⟩
    obtain ⟨hmin, hcost⟩ := h.next.isFirstMin (lt_of_le_of_lt hdue (hnow _)) hnext
    rw [← hcost, h.cpu_eq_zero hmin.holds] at hdue
    exact ⟨hmin, hdue⟩
  · rintro ⟨hmin, hdue⟩
    obtain ⟨hnext, hcost⟩ := h.next.eq_some hmin (h.cycle i hmin.holds)
    rw [h.cpu_eq_zero hmin.holds, hcost]
    exact ⟨hnext, by decide, hdue⟩

/-- The entry of a returned miss is given up. -/
theorem finishFill (h : q.MissInv) {i : Fin (n + 1)} (hi : (q.entry i).isCompleted) :
    ∃ q', q.finishFill i = some q' ∧ q'.MissInv
      ∧ q'.entry = Function.update q.entry i Packet.empty := by
  have haddr := h.address_ne hi
  have hocc := h.keyed.pos haddr
  have hassert : ¬ (q.occupancy = 0 ∧ q.head = q.tail) := fun hc => by omega
  unfold PacketQueue.finishFill PacketQueue.removeQueue
  rw [if_neg hassert, Option.map_some]
  refine ⟨_, rfl, ?_, rfl⟩
  refine updateFillCycle (h.keyed.clear haddr rfl) ?_ ?_ ?_ ?_
  · intro j hj
    by_cases hji : j = i
    · subst hji
      simp only [release_entry, Function.update_self]
      exact Bool.false_ne_true
    · simp only [release_entry, Function.update_of_ne hji] at hj ⊢
      exact h.free j hj
  · intro j hj
    by_cases hji : j = i
    · subst hji
      simp only [release_entry, Function.update_self] at hj
      exact absurd rfl hj
    · simp only [release_entry, Function.update_of_ne hji] at hj ⊢
      exact h.cpu j hj
  · have htally := KeyTable.tally_update Packet.isCompleted q.entry i Packet.empty
    rw [hi, h.counted] at htally
    have hempty : Packet.empty.isCompleted = false := rfl
    rw [hempty] at htally
    have hsub := Nat.eq_sub_of_add_eq (by simpa using htally)
    exact hsub
  · intro j hj
    by_cases hji : j = i
    · subst hji
      simp only [release_entry, Function.update_self] at hj
      exact absurd hj Bool.false_ne_true
    · simp only [release_entry, Function.update_of_ne hji] at hj ⊢
      exact h.cycle j hj

end MissInv

/-! ## Every miss is filled once -/

/-- The entries for a block, and those of them that have come back. -/
def held (x : Word) (q : PacketQueue n) : Nat :=
  KeyTable.tally (fun e => decide (e.address = x)) q.entry

def arrived (x : Word) (q : PacketQueue n) : Nat :=
  KeyTable.tally (fun e => decide (e.address = x) && e.isCompleted) q.entry

/-- What a run step does for one block. -/
structure StepSpec (q : PacketQueue n) (r : MissEvent × PacketQueue n) : Prop where
  inv : r.2.MissInv
  ok : r.1 ≠ .failed
  held : ∀ x, x ≠ 0#64 → r.2.held x + r.1.fills x = q.held x + r.1.takes x
  arrived : ∀ x, x ≠ 0#64 → r.2.arrived x + r.1.fills x = q.arrived x + r.1.returns x

variable {cfg : CacheConfig} {q : PacketQueue n} {now : Nat → Nat} {p : Packet} {x : Word}

/-- A step after which the registers are as they were. -/
theorem StepSpec.same (h : q.MissInv) {e : MissEvent} (hok : e ≠ .failed)
    (hzero : ∀ x, e.takes x = 0 ∧ e.fills x = 0 ∧ e.returns x = 0) : StepSpec q (e, q) := by
  refine ⟨h, hok, ?_, ?_⟩
  · intro x _
    rw [(hzero x).1, (hzero x).2.1]
  · intro x _
    rw [(hzero x).2.1, (hzero x).2.2]

/-- A step that changes one entry: what is counted of the entry before and after it makes
up for what the step takes, returns and fills. -/
theorem StepSpec.update {q' : PacketQueue n} (h : q'.MissInv) {i : Fin (n + 1)} {a : Packet}
    (hentry : q'.entry = Function.update q.entry i a) {e : MissEvent} (hok : e ≠ .failed)
    (held : ∀ x, x ≠ 0#64 → (if a.address = x then 1 else 0) + e.fills x
      = (if (q.entry i).address = x then 1 else 0) + e.takes x)
    (arrived : ∀ x, x ≠ 0#64 → (if a.address = x ∧ a.isCompleted then 1 else 0) + e.fills x
      = (if (q.entry i).address = x ∧ (q.entry i).isCompleted then 1 else 0) + e.returns x) :
    StepSpec q (e, q') := by
  refine ⟨h, hok, ?_, ?_⟩
  · intro x hx
    have hcount := KeyTable.tally_update (fun e => decide (e.address = x)) q.entry i a
    have hstep := held x hx
    simp only [decide_eq_true_eq] at hcount
    simp only [PacketQueue.held, hentry]
    omega
  · intro x hx
    have hcount := KeyTable.tally_update (fun e => decide (e.address = x) && e.isCompleted)
      q.entry i a
    have hstep := arrived x hx
    simp only [Bool.and_eq_true, decide_eq_true_eq] at hcount
    simp only [PacketQueue.arrived, hentry]
    omega

theorem request_spec (h : q.MissInv) (hp : p.address ≠ 0#64) (hcpu : p.cpu < NUM_CPUS)
    (hd : Handler) (room : Bool) : StepSpec q (q.request cfg hd room now p) := by
  have hsame : ∀ e, e = MissEvent.passed ∨ e = .stalled → StepSpec q (e, q) := by
    rintro e (rfl | rfl)
    · exact StepSpec.same h (by simp) (fun x => ⟨rfl, rfl, rfl⟩)
    · exact StepSpec.same h (by simp) (fun x => ⟨rfl, rfl, rfl⟩)
  unfold request
  split
  · next i hfind =>
    have hi : (q.entry i).address = p.address := KeyTable.key_of_find hfind
    refine StepSpec.update (h.merge hi hp hcpu hd) rfl (by simp) ?_ ?_
    · intro x _
      rw [merge_address hd p _ hi.symm]
      rfl
    · intro x _
      rw [merge_address hd p _ hi.symm, Packet.isCompleted, merge_returned]
      rfl
  · next hnew =>
    split_ifs with hocc hroom hlow
    · exact hsame _ (Or.inl rfl)
    · obtain ⟨i, hfree, hinv, hentry⟩ := h.addMshr hocc hnew hp hcpu
      have hfly : (p.inflight now).isCompleted = false := rfl
      refine StepSpec.update hinv hentry (by simp) ?_ ?_
      · intro x hx
        rw [hfree, if_neg hx.symm]
        exact Nat.add_comm _ _
      · intro x hx
        simp only [hfree, hfly, hx.symm, false_and, Bool.false_eq_true, and_false, if_false]
        rfl
    · exact hsame _ (Or.inr rfl)
    · exact hsame _ (Or.inr rfl)

/-- One step keeps the registers, and their books, in order. -/
theorem missStep_spec (h : q.MissInv) {op : MissOp} (hop : q.MissAllowed cfg op) :
    StepSpec q (q.missStep cfg op) := by
  cases op with
  | request hd room now p => exact request_spec h hop.1 hop.2 hd room
  | returnData now p =>
    obtain ⟨i, hi, hp, hfly, hcycle⟩ := hop
    obtain ⟨q', hret, hinv, hentry⟩ := h.returnData hi hp hfly hcycle
    rw [missStep, hret]
    have hnot : ¬ (q.entry i).isCompleted := by
      rw [Packet.isCompleted, hfly]
      exact Bool.false_ne_true
    refine StepSpec.update hinv hentry (by simp) (fun x _ => rfl) ?_
    intro x _
    have hdone : (p.complete cfg now (q.entry i)).isCompleted = true := rfl
    have haddr : (p.complete cfg now (q.entry i)).address = p.address := hi
    simp only [hdone, haddr, hnot, Bool.false_eq_true, and_true, and_false, if_false, Nat.zero_add]
    rfl
  | fill room now =>
    rw [missStep]
    split
    · exact StepSpec.same h (by simp) (fun x => ⟨rfl, rfl, rfl⟩)
    · next i hi =>
      obtain ⟨hmin, -⟩ := (h.fillDue_eq_some hop).1 hi
      obtain ⟨q', hfill, hinv, hentry⟩ := h.finishFill hmin.holds
      cases room with
      | false => exact StepSpec.same h (by simp) (fun x => ⟨rfl, rfl, rfl⟩)
      | true =>
        rw [if_pos rfl, hfill]
        refine StepSpec.update hinv hentry (by simp) ?_ ?_
        · intro x hx
          rw [if_neg (fun hc => hx hc.symm), Nat.add_comm]
          rfl
        · intro x hx
          rw [if_neg (fun hc => hx hc.1.symm), Nat.add_comm]
          simp only [hmin.holds, and_true]
          rfl

/-- The registers after the operations `tr`, from the empty ones. -/
def missRun (cfg : CacheConfig) (n : Nat) (tr : List MissOp) : PacketQueue n :=
  Mealy.run (missStep cfg) { name := cfg.name ++ "_MSHR" } tr

def missEvents (cfg : CacheConfig) (n : Nat) (tr : List MissOp) : List MissEvent :=
  Mealy.outputs (missStep (n := n) cfg) { name := cfg.name ++ "_MSHR" } tr

/-- A run whose every operation is one the callers make. -/
def MissRunAllowed (cfg : CacheConfig) (n : Nat) (tr : List MissOp) : Prop :=
  Mealy.Along (missStep cfg) (MissAllowed cfg)
    ({ name := cfg.name ++ "_MSHR" } : PacketQueue n) tr

theorem missRun_inv {tr : List MissOp} (h : MissRunAllowed cfg n tr) :
    (missRun cfg n tr).MissInv := by
  refine Mealy.run_invariant_along ?_ (MissInv.init _) h
  intro s i hI hC
  exact (missStep_spec hI hC).inv

/-- The books of one block. -/
theorem missRun_held (hx : x ≠ 0#64) {tr : List MissOp} (h : MissRunAllowed cfg n tr) :
    (missRun cfg n tr).held x + ((missEvents cfg n tr).map (MissEvent.fills x)).sum
      = ((missEvents cfg n tr).map (MissEvent.takes x)).sum := by
  have hzero : ({ name := cfg.name ++ "_MSHR" } : PacketQueue n).held x = 0 :=
    KeyTable.tally_eq_zero.2 fun _ => decide_eq_false hx.symm
  rw [← Nat.zero_add ((missEvents cfg n tr).map (MissEvent.takes x)).sum, ← hzero]
  refine Mealy.balance (I := MissInv) ?_ (MissInv.init _) h
  intro s i hI hC
  exact ⟨(missStep_spec hI hC).inv, (missStep_spec hI hC).held x hx⟩

theorem missRun_arrived (hx : x ≠ 0#64) {tr : List MissOp} (h : MissRunAllowed cfg n tr) :
    (missRun cfg n tr).arrived x + ((missEvents cfg n tr).map (MissEvent.fills x)).sum
      = ((missEvents cfg n tr).map (MissEvent.returns x)).sum := by
  have hzero : ({ name := cfg.name ++ "_MSHR" } : PacketQueue n).arrived x = 0 :=
    KeyTable.tally_eq_zero.2 fun _ => Bool.and_false _
  rw [← Nat.zero_add ((missEvents cfg n tr).map (MissEvent.returns x)).sum, ← hzero]
  refine Mealy.balance (I := MissInv) ?_ (MissInv.init _) h
  intro s i hI hC
  exact ⟨(missStep_spec hI hC).inv, (missStep_spec hI hC).arrived x hx⟩

/-- **Every miss is filled once.** Over any run, as often as a block was given an entry, it
was filled, up to one entry that is still there; as often as it was returned, it was
filled, up to one that has come back; and no assertion fails. -/
theorem filled_once {tr : List MissOp} (h : MissRunAllowed cfg n tr) :
    (∀ e ∈ missEvents cfg n tr, e ≠ .failed)
      ∧ ∀ x, x ≠ 0#64 →
        (missRun cfg n tr).held x ≤ 1
          ∧ (missRun cfg n tr).held x + ((missEvents cfg n tr).map (MissEvent.fills x)).sum
            = ((missEvents cfg n tr).map (MissEvent.takes x)).sum
          ∧ (missRun cfg n tr).arrived x + ((missEvents cfg n tr).map (MissEvent.fills x)).sum
            = ((missEvents cfg n tr).map (MissEvent.returns x)).sum := by
  refine ⟨?_, ?_⟩
  · refine Mealy.forall_outputs_along (I := MissInv) ?_ (MissInv.init _) h
    intro s i hI hC
    exact ⟨(missStep_spec hI hC).inv, (missStep_spec hI hC).ok⟩
  · intro x hx
    exact ⟨(missRun_inv h).keyed.tally_le_one hx, missRun_held hx h, missRun_arrived hx h⟩

/-- **The next fill.** After any run, what `handle_fill` fills is the first of the earliest
entries that have come back: it does as soon as its cycle is reached, if the lower level has
room for what the fill drives out. -/
theorem fill_earliest {tr : List MissOp} (h : MissRunAllowed cfg n tr)
    (hnow : ∀ c, now c < UINT64_MAX) (room : Bool) (p : Packet) :
    ((missRun cfg n tr).missStep cfg (.fill room now)).1 = .filled p ↔
      room = true ∧ ∃ i, (missRun cfg n tr).entry i = p
        ∧ FirstMin.IsFirstMin (fun j => ((missRun cfg n tr).entry j).isCompleted)
            (fun j => ((missRun cfg n tr).entry j).eventCycle) i
        ∧ p.eventCycle ≤ now 0 := by
  have hinv := missRun_inv h
  generalize missRun cfg n tr = q at hinv ⊢
  rw [missStep]
  constructor
  · intro he
    split at he
    · cases he
    · next i hi =>
      obtain ⟨hmin, hdue⟩ := (hinv.fillDue_eq_some hnow).1 hi
      obtain ⟨q', hfill, -, -⟩ := hinv.finishFill hmin.holds
      cases room with
      | false => cases he
      | true =>
        rw [if_pos rfl, hfill] at he
        cases he
        exact ⟨rfl, i, rfl, hmin, hdue⟩
  · rintro ⟨rfl, i, rfl, hmin, hdue⟩
    obtain ⟨q', hfill, -, -⟩ := hinv.finishFill hmin.holds
    rw [(hinv.fillDue_eq_some hnow).2 ⟨hmin, hdue⟩]
    simp only [if_true, hfill]

/-- A prefetch and two reads take the three entries of a small L2 cache, a read is merged with
the prefetch and one is stalled. The blocks come back, the one with the latest cycle
first. -/
def threeMisses : List MissOp :=
  [.request .prefetch true (fun _ => 5)
      { cpu := 0, address := 64#64, type := .PREFETCH, eventCycle := 5 },
    .request .read true (fun _ => 5) { cpu := 0, address := 128#64, eventCycle := 5 },
    .request .read true (fun _ => 6) { cpu := 0, address := 64#64, eventCycle := 6 },
    .request .read true (fun _ => 6) { cpu := 0, address := 192#64, eventCycle := 30 },
    .request .read true (fun _ => 6) { cpu := 0, address := 256#64, eventCycle := 6 },
    .returnData (fun _ => 7) { cpu := 0, address := 192#64 },
    .returnData (fun _ => 8) { cpu := 0, address := 128#64 },
    .returnData (fun _ => 9) { cpu := 0, address := 64#64 }]

/-- The first fill has to wait for room. -/
def fills : List MissOp :=
  [.fill false fun _ => 40, .fill true fun _ => 41, .fill true fun _ => 42,
    .request .read true (fun _ => 43) { cpu := 0, address := 256#64, eventCycle := 43 }]

theorem threeMisses_allowed : MissRunAllowed L2C 2 threeMisses :=
  ⟨⟨by decide, by decide⟩, ⟨by decide, by decide⟩, ⟨by decide, by decide⟩,
    ⟨by decide, by decide⟩, ⟨by decide, by decide⟩, ⟨2, rfl, by decide, rfl, by decide⟩,
    ⟨1, rfl, by decide, rfl, by decide⟩, ⟨0, rfl, by decide, rfl, by decide⟩, trivial⟩

theorem fills_allowed : MissRunAllowed L2C 2 (threeMisses ++ fills) :=
  (Mealy.along_append _ _).2 ⟨threeMisses_allowed, fun _ => (by decide : 40 < UINT64_MAX),
    fun _ => (by decide : 41 < UINT64_MAX), fun _ => (by decide : 42 < UINT64_MAX),
    ⟨by decide, by decide⟩, trivial⟩

/-- Two of the blocks have been filled. -/
theorem filled_once_instance :
    let tr := threeMisses ++ fills
    ((∀ e ∈ missEvents L2C 2 tr, e ≠ .failed)
      ∧ ∀ x, x ≠ 0#64 →
        (missRun L2C 2 tr).held x ≤ 1
          ∧ (missRun L2C 2 tr).held x + ((missEvents L2C 2 tr).map (MissEvent.fills x)).sum
            = ((missEvents L2C 2 tr).map (MissEvent.takes x)).sum
          ∧ (missRun L2C 2 tr).arrived x + ((missEvents L2C 2 tr).map (MissEvent.fills x)).sum
            = ((missEvents L2C 2 tr).map (MissEvent.returns x)).sum)
      ∧ ([64#64, 128#64, 192#64, 256#64].map fun x =>
          ((missEvents L2C 2 tr).map (MissEvent.fills x)).sum) = [1, 1, 0, 0]
      ∧ ([64#64, 128#64, 192#64, 256#64].map fun x => (missRun L2C 2 tr).held x) = [0, 0, 1, 1] :=
  ⟨filled_once fills_allowed, by decide +kernel, by decide +kernel⟩

/-- Of the three the second is filled first. -/
theorem fill_earliest_instance :
    let q := missRun L2C 2 threeMisses
    ((q.missStep L2C (.fill true fun _ => 40)).1 = .filled (q.entry 1) ↔
      true = true ∧ ∃ i, q.entry i = q.entry 1
        ∧ FirstMin.IsFirstMin (fun j => (q.entry j).isCompleted)
            (fun j => (q.entry j).eventCycle) i
        ∧ (q.entry 1).eventCycle ≤ 40)
      ∧ (List.finRange 3).map (fun j => (q.entry j).isCompleted) = [true, true, true]
      ∧ (List.finRange 3).map (fun j => (q.entry j).eventCycle) = [19, 18, 40]
      ∧ q.fillDue (fun _ => 40) = some 1 :=
  ⟨fill_earliest threeMisses_allowed (fun _ => by decide) true _, by decide +kernel,
    by decide +kernel, by decide +kernel⟩

end PacketQueue

end SandboxPredictor
