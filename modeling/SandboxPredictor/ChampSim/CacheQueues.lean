import SandboxPredictor.ChampSim.PacketQueue
import SandboxPredictor.Lib.Mealy

/- How a `CACHE` takes requests (`add_rq`, `add_wq`, `add_pq` of `src/cache.cc`):
   a request that finds its block in the write queue is answered from there, one
   that finds itself in its own queue is merged with it, and any other is appended
   while there is room.

   `Waiting` is what this is meant to be: four lists of packets. The rings of the
   cache refine the lists over every run of calls and removals, and none of the
   assertions of the code fails in such a run (`run_queues`). -/
namespace SandboxPredictor

/-- `cache_type`. -/
inductive CacheType where
  | ITLB
  | DTLB
  | STLB
  | L1I
  | L1D
  | L2C
  | LLC
  deriving DecidableEq, Repr

def FILL_L1 : Int := 1
def FILL_L2 : Int := 2
def FILL_LLC : Int := 4

/-- `upper_level_icache` and `upper_level_dcache`. -/
inductive Port where
  | icache
  | dcache
  deriving DecidableEq, Repr

/-- What a cache is set up with. -/
structure CacheConfig where
  name : String
  cacheType : CacheType
  fillLevel : Int
  LATENCY : Nat

/-- The caches that are never written to. -/
def CacheConfig.readOnly (cfg : CacheConfig) : Bool :=
  cfg.cacheType = .ITLB || cfg.cacheType = .DTLB || cfg.cacheType = .L1I

/-- The queues of a `CACHE` and its counters of hits and accesses. -/
structure CacheQueues (w r q d : Nat) where
  WQ : PacketQueue w
  RQ : PacketQueue r
  PQ : PacketQueue q
  PROCESSED : PacketQueue d
  hit : AccessType → Nat := fun _ => 0
  access : AccessType → Nat := fun _ => 0

/-- The queues as the constructor names them. -/
def CacheConfig.queues (cfg : CacheConfig) (w r q d : Nat) : CacheQueues w r q d :=
  { WQ := { name := cfg.name ++ "_WQ" }, RQ := { name := cfg.name ++ "_RQ" },
    PQ := { name := cfg.name ++ "_PQ" }, PROCESSED := { name := cfg.name ++ "_PROCESSED" } }

/-- The `return_data` calls for a packet that is answered. -/
def CacheConfig.answer (cfg : CacheConfig) (p : Packet) : List (Port × Packet) :=
  if p.fillLevel < cfg.fillLevel then
    if cfg.fillLevel = FILL_L2 then
      (if p.fillL1i then [(.icache, p)] else []) ++ (if p.fillL1d then [(.dcache, p)] else [])
    else
      (if p.instruction then [(.icache, p)] else []) ++ (if p.isData then [(.dcache, p)] else [])
  else []

/-- A packet that is answered from the write queue takes the data there. -/
def CacheConfig.forwarded (cfg : CacheConfig) (p e : Packet) : Packet :=
  if p.fillLevel < cfg.fillLevel then { p with data := e.data } else p

/-- `ADD LATENCY`. -/
def CacheConfig.delayed (cfg : CacheConfig) (now : Nat → Nat) (p : Packet) : Packet :=
  { p with eventCycle := (if p.eventCycle < now p.cpu then now p.cpu else p.eventCycle)
                           + cfg.LATENCY }

/-- A read that meets `e` in the read queue. -/
def mergeRead (p e : Packet) : Packet :=
  let e' : Packet :=
    if p.instruction then
      { e with robIndexDependOnMe := e.robIndexDependOnMe.insert p.robIndex,
               instruction := true, instrMerged := true }
    else if p.type = .RFO then
      { e with sqIndexDependOnMe := e.sqIndexDependOnMe.insert p.sqIndex,
               storeMerged := true, isData := true }
    else
      { e with lqIndexDependOnMe := e.lqIndexDependOnMe.insert p.lqIndex,
               loadMerged := true, isData := true }
  { e' with fillL1i := p.fillL1i || e.fillL1i, fillL1d := p.fillL1d || e.fillL1d }

/-- A prefetch that meets `e` in the prefetch queue. -/
def mergePrefetch (p e : Packet) : Packet :=
  { e with fillLevel := if p.fillLevel < e.fillLevel then p.fillLevel else e.fillLevel,
           instruction := p.instruction || e.instruction, isData := p.isData || e.isData,
           fillL1i := p.fillL1i || e.fillL1i, fillL1d := p.fillL1d || e.fillL1d }

namespace CacheQueues

variable {w r q d : Nat}

/-- `HIT[type]++` and `ACCESS[type]++`. -/
def countHit (c : CacheQueues w r q d) (t : AccessType) : CacheQueues w r q d :=
  { c with hit := Function.update c.hit t (c.hit t + 1),
           access := Function.update c.access t (c.access t + 1) }

/-- The packet added to the processed ones, when it is a demand access to the L1 data
cache and there is room. -/
def process (c : CacheQueues w r q d) (cfg : CacheConfig) (p : Packet) :
    Option (PacketQueue d) :=
  if cfg.cacheType = .L1D ∧ p.type ≠ .PREFETCH ∧ c.PROCESSED.occupancy < d + 1 then
    c.PROCESSED.addQueue p
  else some c.PROCESSED

/-- `add_rq`: what is returned, the queues after it, and the answers given to the upper
level; `none` is a failed assertion. -/
def addRq (c : CacheQueues w r q d) (cfg : CacheConfig) (now : Nat → Nat) (p : Packet) :
    Option ((Int × List (Port × Packet)) × CacheQueues w r q d) :=
  match c.WQ.checkQueue p with
  | some wqIndex =>
    let p' := cfg.forwarded p (c.WQ.entry wqIndex)
    if cfg.readOnly then none
    else
      (c.process cfg p').map fun processed =>
        ((-1, cfg.answer p'),
          { c.countHit p.type with
            PROCESSED := processed,
            WQ := { c.WQ with forward := c.WQ.forward + 1 },
            RQ := { c.RQ with access := c.RQ.access + 1 } })
  | none =>
    match c.RQ.checkQueue p with
    | some index =>
      let RQ := c.RQ.setEntry index (mergeRead p (c.RQ.entry index))
      some ((index.val, []),
        { c with RQ := { RQ with merged := RQ.merged + 1, access := RQ.access + 1 } })
    | none =>
      if c.RQ.occupancy = r + 1 then
        some ((-2, []), { c with RQ := { c.RQ with full := c.RQ.full + 1 } })
      else if (c.RQ.entry c.RQ.tail).address ≠ 0#64 ∨ p.address = 0#64 then none
      else
        let RQ := c.RQ.append (cfg.delayed now p)
        some ((-1, []),
          { c with RQ := { RQ with toCache := RQ.toCache + 1, access := RQ.access + 1 } })

/-- `add_wq`. -/
def addWq (c : CacheQueues w r q d) (cfg : CacheConfig) (now : Nat → Nat) (p : Packet) :
    Option ((Int × List (Port × Packet)) × CacheQueues w r q d) :=
  match c.WQ.checkQueue p with
  | some index =>
    some ((index.val, []),
      { c with WQ := { c.WQ with merged := c.WQ.merged + 1, access := c.WQ.access + 1 } })
  | none =>
    if c.WQ.occupancy ≥ w + 1 ∨ (c.WQ.entry c.WQ.tail).address ≠ 0#64 then none
    else
      let WQ := c.WQ.append (cfg.delayed now p)
      some ((-1, []),
        { c with WQ := { WQ with toCache := WQ.toCache + 1, access := WQ.access + 1 } })

/-- `add_pq`. -/
def addPq (c : CacheQueues w r q d) (cfg : CacheConfig) (now : Nat → Nat) (p : Packet) :
    Option ((Int × List (Port × Packet)) × CacheQueues w r q d) :=
  match c.WQ.checkQueue p with
  | some wqIndex =>
    some ((-1, cfg.answer (cfg.forwarded p (c.WQ.entry wqIndex))),
      { c.countHit p.type with
        WQ := { c.WQ with forward := c.WQ.forward + 1 },
        PQ := { c.PQ with access := c.PQ.access + 1 } })
  | none =>
    match c.PQ.checkQueue p with
    | some index =>
      let PQ := c.PQ.setEntry index (mergePrefetch p (c.PQ.entry index))
      some ((index.val, []),
        { c with PQ := { PQ with merged := PQ.merged + 1, access := PQ.access + 1 } })
    | none =>
      if c.PQ.occupancy = q + 1 then
        some ((-2, []), { c with PQ := { c.PQ with full := c.PQ.full + 1 } })
      else if (c.PQ.entry c.PQ.tail).address ≠ 0#64 ∨ p.address = 0#64 then none
      else
        let PQ := c.PQ.append (cfg.delayed now p)
        some ((-1, []),
          { c with PQ := { PQ with toCache := PQ.toCache + 1, access := PQ.access + 1 } })

/-- The oldest packet taken out by the handler of its queue. -/
def takeRq (c : CacheQueues w r q d) : Option (CacheQueues w r q d) :=
  (c.RQ.removeQueue c.RQ.head).map fun RQ => { c with RQ := RQ }

def takeWq (c : CacheQueues w r q d) : Option (CacheQueues w r q d) :=
  (c.WQ.removeQueue c.WQ.head).map fun WQ => { c with WQ := WQ }

def takePq (c : CacheQueues w r q d) : Option (CacheQueues w r q d) :=
  (c.PQ.removeQueue c.PQ.head).map fun PQ => { c with PQ := PQ }

def takeProcessed (c : CacheQueues w r q d) : Option (CacheQueues w r q d) :=
  (c.PROCESSED.removeQueue c.PROCESSED.head).map fun PROCESSED => { c with PROCESSED := PROCESSED }

end CacheQueues

/-! ## The queues as lists -/

/-- The packets that wait in a cache, oldest first. -/
structure Waiting where
  wq : List Packet := []
  rq : List Packet := []
  pq : List Packet := []
  processed : List Packet := []

/-- What a caller learns from the number returned. -/
inductive Reply where
  | accepted
  | full
  | merged
  deriving DecidableEq, Repr

def Reply.of (ret : Int) : Reply :=
  if ret = -1 then accepted else if ret = -2 then full else merged

@[simp] theorem Reply.of_nat (i : Nat) : Reply.of i = merged := by
  unfold Reply.of
  rw [if_neg (by omega), if_neg (by omega)]

/-- Merge with the packet taken for the same one, or wait behind the others. -/
def enqueue (name : String) (size : Nat) (merge : Packet → Packet → Packet) (p late : Packet)
    (L : List Packet) : Reply × List Packet :=
  match L.findIdx? (Packet.sameIn name p) with
  | some i => (.merged, L.modify i (merge p))
  | none => if L.length = size then (.full, L) else (.accepted, L ++ [late])

namespace Waiting

variable (cfg : CacheConfig)

def addRq (r d : Nat) (now : Nat → Nat) (p : Packet) (a : Waiting) :
    (Reply × List (Port × Packet)) × Waiting :=
  match a.wq.find? (Packet.sameIn (cfg.name ++ "_WQ") p) with
  | some e =>
    let p' := cfg.forwarded p e
    ((.accepted, cfg.answer p'),
      if cfg.cacheType = .L1D ∧ p'.type ≠ .PREFETCH ∧ a.processed.length < d + 1 then
        { a with processed := a.processed ++ [p'] }
      else a)
  | none =>
    let (reply, rq) := enqueue (cfg.name ++ "_RQ") (r + 1) mergeRead p (cfg.delayed now p) a.rq
    ((reply, []), { a with rq := rq })

def addWq (w : Nat) (now : Nat → Nat) (p : Packet) (a : Waiting) :
    (Reply × List (Port × Packet)) × Waiting :=
  let (reply, wq) := enqueue (cfg.name ++ "_WQ") (w + 1) (fun _ e => e) p (cfg.delayed now p) a.wq
  ((reply, []), { a with wq := wq })

def addPq (q : Nat) (now : Nat → Nat) (p : Packet) (a : Waiting) :
    (Reply × List (Port × Packet)) × Waiting :=
  match a.wq.find? (Packet.sameIn (cfg.name ++ "_WQ") p) with
  | some e => ((.accepted, cfg.answer (cfg.forwarded p e)), a)
  | none =>
    let (reply, pq) := enqueue (cfg.name ++ "_PQ") (q + 1) mergePrefetch p (cfg.delayed now p) a.pq
    ((reply, []), { a with pq := pq })

end Waiting

/-- The rings hold what waits, and every access was forwarded, merged or queued. -/
structure Refines {w r q d : Nat} (cfg : CacheConfig) (c : CacheQueues w r q d) (a : Waiting) :
    Prop where
  wq : c.WQ.Wf a.wq
  rq : c.RQ.Wf a.rq
  pq : c.PQ.Wf a.pq
  processed : c.PROCESSED.Wf a.processed
  wqName : c.WQ.name = cfg.name ++ "_WQ"
  rqName : c.RQ.name = cfg.name ++ "_RQ"
  pqName : c.PQ.name = cfg.name ++ "_PQ"
  reads : c.RQ.access + c.PQ.access
    = c.WQ.forward + (c.RQ.merged + c.RQ.toCache) + (c.PQ.merged + c.PQ.toCache)
  writes : c.WQ.access = c.WQ.merged + c.WQ.toCache

section refines

variable {w r q d : Nat} {cfg : CacheConfig} {c : CacheQueues w r q d} {a : Waiting}
  {now : Nat → Nat} {p : Packet}

theorem Refines.addRq (h : Refines cfg c a) (hwrite : cfg.readOnly = true → a.wq = [])
    (hp : p.address ≠ 0#64) :
    ∃ ret c', c.addRq cfg now p = some ((ret, (a.addRq cfg r d now p).1.2), c')
      ∧ Reply.of ret = (a.addRq cfg r d now p).1.1 ∧ Refines cfg c' (a.addRq cfg r d now p).2 := by
  have hsameW : c.WQ.same p = Packet.sameIn (cfg.name ++ "_WQ") p := by
    funext e
    rw [PacketQueue.same, h.wqName]
  have hsameR : c.RQ.same p = Packet.sameIn (cfg.name ++ "_RQ") p := by
    funext e
    rw [PacketQueue.same, h.rqName]
  have hreads := h.reads
  unfold CacheQueues.addRq Waiting.addRq
  rw [← hsameW]
  rcases h.wq.checkQueue_cases p with ⟨i, e, hcheck, hi, -, hfind, hentry⟩ | ⟨hcheck, -, hfind⟩
  · -- answered from the write queue
    have hro : cfg.readOnly = false := by
      cases hcase : cfg.readOnly with
      | false => rfl
      | true =>
        rw [hwrite hcase] at hi
        exact absurd hi (Nat.not_lt_zero i)
    rw [hcheck, hfind]
    simp only [hentry, hro, Bool.false_eq_true, if_false]
    unfold CacheQueues.process
    rw [h.processed.occupancy]
    split
    · next hroom =>
      rw [h.processed.addQueue hroom.2.2]
      refine ⟨-1, _, rfl, rfl, ?_⟩
      exact ⟨⟨h.wq.ring, h.wq.occupancy⟩, ⟨h.rq.ring, h.rq.occupancy⟩, h.pq,
        h.processed.append hroom.2.2 _, h.wqName, h.rqName, h.pqName,
        by simp only [CacheQueues.countHit]; omega, h.writes⟩
    · refine ⟨-1, _, rfl, rfl, ?_⟩
      exact ⟨⟨h.wq.ring, h.wq.occupancy⟩, ⟨h.rq.ring, h.rq.occupancy⟩, h.pq,
        h.processed, h.wqName, h.rqName, h.pqName,
        by simp only [CacheQueues.countHit]; omega, h.writes⟩
  · rw [hcheck, hfind]
    simp only [enqueue]
    rw [← hsameR]
    rcases h.rq.checkQueue_cases p with ⟨i, e, hcheck', hi, hidx, -, hentry⟩ | ⟨hcheck', hidx, -⟩
    · -- merged with a read that waits
      rw [hcheck', hidx]
      refine ⟨_, _, rfl, by simp, ?_⟩
      have hset := h.rq.setEntry hi (mergeRead p)
      exact ⟨h.wq, ⟨hset.ring, hset.occupancy⟩, h.pq, h.processed, h.wqName, h.rqName, h.pqName,
        by simp only [PacketQueue.setEntry]; omega, h.writes⟩
    · rw [hcheck', hidx]
      by_cases hfull : a.rq.length = r + 1
      · rw [if_pos (h.rq.occupancy.trans hfull), if_pos hfull]
        refine ⟨-2, _, rfl, rfl, ?_⟩
        exact ⟨h.wq, ⟨h.rq.ring, h.rq.occupancy⟩, h.pq, h.processed, h.wqName, h.rqName, h.pqName,
          hreads, h.writes⟩
      · have hroom : a.rq.length < r + 1 := lt_of_le_of_ne h.rq.length_le hfull
        have hfull' : ¬ c.RQ.occupancy = r + 1 := by
          rw [h.rq.occupancy]
          exact hfull
        have hassert : ¬ ((c.RQ.entry c.RQ.tail).address ≠ 0#64 ∨ p.address = 0#64) := by
          rintro (hfree | hzero)
          · exact hfree (h.rq.tail_address hroom)
          · exact hp hzero
        rw [if_neg hfull', if_neg hfull, if_neg hassert]
        refine ⟨-1, _, rfl, rfl, ?_⟩
        have happend := h.rq.append hroom (cfg.delayed now p)
        exact ⟨h.wq, ⟨happend.ring, happend.occupancy⟩, h.pq, h.processed, h.wqName, h.rqName,
          h.pqName, by simp only [PacketQueue.append]; omega, h.writes⟩

theorem Refines.addWq (h : Refines cfg c a)
    (hroom : a.wq.length < w + 1 ∨ (a.wq.find? (Packet.sameIn (cfg.name ++ "_WQ") p)).isSome) :
    ∃ ret c', c.addWq cfg now p = some ((ret, (a.addWq cfg w now p).1.2), c')
      ∧ Reply.of ret = (a.addWq cfg w now p).1.1 ∧ Refines cfg c' (a.addWq cfg w now p).2 := by
  have hsame : c.WQ.same p = Packet.sameIn (cfg.name ++ "_WQ") p := by
    funext e
    rw [PacketQueue.same, h.wqName]
  have hwrites := h.writes
  unfold CacheQueues.addWq Waiting.addWq
  simp only [enqueue]
  rw [← hsame] at hroom ⊢
  rcases h.wq.checkQueue_cases p with ⟨i, e, hcheck, hi, hidx, -, -⟩ | ⟨hcheck, hidx, hfind⟩
  · rw [hcheck, hidx]
    refine ⟨_, _, rfl, by simp, ?_⟩
    have hsame : a.wq.modify i (fun e => e) = a.wq := List.modify_id i a.wq
    exact ⟨by simp only [hsame]; exact ⟨h.wq.ring, h.wq.occupancy⟩, h.rq, h.pq, h.processed,
      h.wqName, h.rqName, h.pqName, h.reads, by simp only; omega⟩
  · rw [hcheck, hidx]
    have hlen : a.wq.length < w + 1 := by
      rcases hroom with hlen | hsome
      · exact hlen
      · simp [hfind] at hsome
    have hassert : ¬ (c.WQ.occupancy ≥ w + 1 ∨ (c.WQ.entry c.WQ.tail).address ≠ 0#64) := by
      rintro (hocc | hfree)
      · rw [h.wq.occupancy] at hocc
        omega
      · exact hfree (h.wq.tail_address hlen)
    simp only
    rw [if_neg hassert, if_neg (Nat.ne_of_lt hlen)]
    refine ⟨-1, _, rfl, rfl, ?_⟩
    have happend := h.wq.append hlen (cfg.delayed now p)
    exact ⟨⟨happend.ring, happend.occupancy⟩, h.rq, h.pq, h.processed, h.wqName, h.rqName,
      h.pqName, by simp only [PacketQueue.append]; exact h.reads,
      by simp only [PacketQueue.append]; omega⟩

theorem Refines.addPq (h : Refines cfg c a) (hp : p.address ≠ 0#64) :
    ∃ ret c', c.addPq cfg now p = some ((ret, (a.addPq cfg q now p).1.2), c')
      ∧ Reply.of ret = (a.addPq cfg q now p).1.1 ∧ Refines cfg c' (a.addPq cfg q now p).2 := by
  have hsameW : c.WQ.same p = Packet.sameIn (cfg.name ++ "_WQ") p := by
    funext e
    rw [PacketQueue.same, h.wqName]
  have hsameP : c.PQ.same p = Packet.sameIn (cfg.name ++ "_PQ") p := by
    funext e
    rw [PacketQueue.same, h.pqName]
  have hreads := h.reads
  unfold CacheQueues.addPq Waiting.addPq
  rw [← hsameW]
  rcases h.wq.checkQueue_cases p with ⟨i, e, hcheck, hi, -, hfind, hentry⟩ | ⟨hcheck, -, hfind⟩
  · rw [hcheck, hfind]
    simp only [hentry]
    refine ⟨-1, _, rfl, rfl, ?_⟩
    exact ⟨⟨h.wq.ring, h.wq.occupancy⟩, h.rq, ⟨h.pq.ring, h.pq.occupancy⟩,
      h.processed, h.wqName, h.rqName, h.pqName,
      by simp only [CacheQueues.countHit]; omega, h.writes⟩
  · rw [hcheck, hfind]
    simp only [enqueue]
    rw [← hsameP]
    rcases h.pq.checkQueue_cases p with ⟨i, e, hcheck', hi, hidx, -, hentry⟩ | ⟨hcheck', hidx, -⟩
    · rw [hcheck', hidx]
      refine ⟨_, _, rfl, by simp, ?_⟩
      have hset := h.pq.setEntry hi (mergePrefetch p)
      exact ⟨h.wq, h.rq, ⟨hset.ring, hset.occupancy⟩, h.processed, h.wqName, h.rqName, h.pqName,
        by simp only [PacketQueue.setEntry]; omega, h.writes⟩
    · rw [hcheck', hidx]
      by_cases hfull : a.pq.length = q + 1
      · rw [if_pos (h.pq.occupancy.trans hfull), if_pos hfull]
        refine ⟨-2, _, rfl, rfl, ?_⟩
        exact ⟨h.wq, h.rq, ⟨h.pq.ring, h.pq.occupancy⟩, h.processed, h.wqName, h.rqName, h.pqName,
          hreads, h.writes⟩
      · have hroom : a.pq.length < q + 1 := lt_of_le_of_ne h.pq.length_le hfull
        have hfull' : ¬ c.PQ.occupancy = q + 1 := by
          rw [h.pq.occupancy]
          exact hfull
        have hassert : ¬ ((c.PQ.entry c.PQ.tail).address ≠ 0#64 ∨ p.address = 0#64) := by
          rintro (hfree | hzero)
          · exact hfree (h.pq.tail_address hroom)
          · exact hp hzero
        rw [if_neg hfull', if_neg hfull, if_neg hassert]
        refine ⟨-1, _, rfl, rfl, ?_⟩
        have happend := h.pq.append hroom (cfg.delayed now p)
        exact ⟨h.wq, h.rq, ⟨happend.ring, happend.occupancy⟩, h.processed, h.wqName, h.rqName,
          h.pqName, by simp only [PacketQueue.append]; omega, h.writes⟩

end refines

/-! ## Runs -/

/-- What happens to the queues of a cache. -/
inductive QueueOp where
  | addRq (now : Nat → Nat) (p : Packet)
  | addWq (now : Nat → Nat) (p : Packet)
  | addPq (now : Nat → Nat) (p : Packet)
  | takeRq
  | takeWq
  | takePq
  | takeProcessed

section run

variable {w r q d : Nat} (cfg : CacheConfig)

def CacheQueues.step (c : CacheQueues w r q d) :
    QueueOp → Option ((Reply × List (Port × Packet)) × CacheQueues w r q d)
  | .addRq now p => (c.addRq cfg now p).map (Prod.map (Prod.map Reply.of id) id)
  | .addWq now p => (c.addWq cfg now p).map (Prod.map (Prod.map Reply.of id) id)
  | .addPq now p => (c.addPq cfg now p).map (Prod.map (Prod.map Reply.of id) id)
  | .takeRq => c.takeRq.map (fun c' => ((.accepted, []), c'))
  | .takeWq => c.takeWq.map (fun c' => ((.accepted, []), c'))
  | .takePq => c.takePq.map (fun c' => ((.accepted, []), c'))
  | .takeProcessed => c.takeProcessed.map (fun c' => ((.accepted, []), c'))

/-- The replies of a run and the queues after it; `none` when an assertion fails. -/
def CacheQueues.runOps (c : CacheQueues w r q d) :
    List QueueOp → Option (List (Reply × List (Port × Packet)) × CacheQueues w r q d)
  | [] => some ([], c)
  | op :: ops =>
    (c.step cfg op).bind fun (o, c') =>
      (c'.runOps ops).map fun (os, c'') => (o :: os, c'')

def Waiting.step (w r q d : Nat) (a : Waiting) :
    QueueOp → (Reply × List (Port × Packet)) × Waiting
  | .addRq now p => a.addRq cfg r d now p
  | .addWq now p => a.addWq cfg w now p
  | .addPq now p => a.addPq cfg q now p
  | .takeRq => ((.accepted, []), { a with rq := a.rq.tail })
  | .takeWq => ((.accepted, []), { a with wq := a.wq.tail })
  | .takePq => ((.accepted, []), { a with pq := a.pq.tail })
  | .takeProcessed => ((.accepted, []), { a with processed := a.processed.tail })

/-- What the callers promise: a request has an address, a write goes to a cache that is
written to and finds room or its own block waiting, and a handler takes from a queue
that is not empty. -/
def Waiting.Allowed (w : Nat) (a : Waiting) : QueueOp → Prop
  | .addRq _ p => p.address ≠ 0#64
  | .addWq _ p => cfg.readOnly = false
      ∧ (a.wq.length < w + 1 ∨ (a.wq.find? (Packet.sameIn (cfg.name ++ "_WQ") p)).isSome)
  | .addPq _ p => p.address ≠ 0#64
  | .takeRq => a.rq ≠ []
  | .takeWq => a.wq ≠ []
  | .takePq => a.pq ≠ []
  | .takeProcessed => a.processed ≠ []

instance (w : Nat) (a : Waiting) : ∀ op, Decidable (a.Allowed cfg w op)
  | .addRq _ p => inferInstanceAs (Decidable (p.address ≠ 0#64))
  | .addWq _ p => inferInstanceAs (Decidable (cfg.readOnly = false
      ∧ (a.wq.length < w + 1 ∨ (a.wq.find? (Packet.sameIn (cfg.name ++ "_WQ") p)).isSome)))
  | .addPq _ p => inferInstanceAs (Decidable (p.address ≠ 0#64))
  | .takeRq => inferInstanceAs (Decidable (a.rq ≠ []))
  | .takeWq => inferInstanceAs (Decidable (a.wq ≠ []))
  | .takePq => inferInstanceAs (Decidable (a.pq ≠ []))
  | .takeProcessed => inferInstanceAs (Decidable (a.processed ≠ []))

/-- No packet waits twice, and nothing waits to be written in a read-only cache. -/
structure Waiting.Ok (a : Waiting) : Prop where
  readOnly : cfg.readOnly = true → a.wq = []
  wq : (a.wq.map (Packet.key (cfg.name ++ "_WQ"))).Nodup
  rq : (a.rq.map (Packet.key (cfg.name ++ "_RQ"))).Nodup
  pq : (a.pq.map (Packet.key (cfg.name ++ "_PQ"))).Nodup

end run

section invariant

variable {w r q d : Nat} {cfg : CacheConfig} {c : CacheQueues w r q d} {a : Waiting}

theorem key_delayed (name : String) (now : Nat → Nat) (p : Packet) :
    (cfg.delayed now p).key name = p.key name := rfl

theorem key_mergeRead (name : String) (p e : Packet) : (mergeRead p e).key name = e.key name := by
  unfold mergeRead Packet.key
  split_ifs <;> rfl

theorem key_mergePrefetch (name : String) (p e : Packet) :
    (mergePrefetch p e).key name = e.key name := rfl

/-- Enqueuing keeps the packets apart: it merges with the one that is the same. -/
theorem nodup_enqueue {name : String} {size : Nat} {merge : Packet → Packet → Packet}
    {p late : Packet} {L : List Packet} (hmerge : ∀ e, (merge p e).key name = e.key name)
    (hlate : late.key name = p.key name) (h : (L.map (Packet.key name)).Nodup) :
    ((enqueue name size merge p late L).2.map (Packet.key name)).Nodup := by
  unfold enqueue
  split
  · next i _ =>
    have hkeys : (L.modify i (merge p)).map (Packet.key name) = L.map (Packet.key name) := by
      apply List.ext_getElem?
      intro j
      rw [List.getElem?_map, List.getElem?_map, List.getElem?_modify]
      cases L[j]? with
      | none => rfl
      | some e => by_cases hij : i = j <;> simp [hij, hmerge]
    rw [hkeys]
    exact h
  · next hnone =>
    split
    · exact h
    · rw [List.map_append, List.map_singleton, hlate]
      refine List.Nodup.append h (List.nodup_singleton _) ?_
      rw [List.disjoint_singleton]
      intro hmem
      obtain ⟨e, he, hkey⟩ := List.mem_map.1 hmem
      have hno := List.findIdx?_eq_none_iff.1 hnone e he
      simp [Packet.sameIn, hkey] at hno

theorem Waiting.Ok.step (h : a.Ok cfg) (op : QueueOp) (hop : a.Allowed cfg w op) :
    (a.step cfg w r q d op).2.Ok cfg := by
  cases op with
  | addRq now p =>
    simp only [Waiting.step, Waiting.addRq]
    split
    · split
      · exact ⟨h.readOnly, h.wq, h.rq, h.pq⟩
      · exact h
    · exact ⟨h.readOnly, h.wq,
        nodup_enqueue (key_mergeRead _ p) (key_delayed _ now p) h.rq, h.pq⟩
  | addWq now p =>
    simp only [Waiting.step, Waiting.addWq]
    refine ⟨?_, nodup_enqueue (fun _ => rfl) (key_delayed _ now p) h.wq, h.rq, h.pq⟩
    intro hro
    rw [hop.1] at hro
    exact absurd hro Bool.false_ne_true
  | addPq now p =>
    simp only [Waiting.step, Waiting.addPq]
    split
    · exact h
    · exact ⟨h.readOnly, h.wq, h.rq,
        nodup_enqueue (key_mergePrefetch _ p) (key_delayed _ now p) h.pq⟩
  | takeRq => exact ⟨h.readOnly, h.wq, by simpa [Waiting.step] using h.rq.tail, h.pq⟩
  | takeWq =>
    refine ⟨?_, by simpa [Waiting.step] using h.wq.tail, h.rq, h.pq⟩
    intro hro
    rw [Waiting.step, h.readOnly hro, List.tail_nil]
  | takePq => exact ⟨h.readOnly, h.wq, h.rq, by simpa [Waiting.step] using h.pq.tail⟩
  | takeProcessed => exact ⟨h.readOnly, h.wq, h.rq, h.pq⟩

/-- An allowed call or removal does to the rings what it does to the lists. -/
theorem Refines.step (h : Refines cfg c a) (hok : a.Ok cfg) (op : QueueOp)
    (hop : a.Allowed cfg w op) :
    ∃ c', c.step cfg op = some ((a.step cfg w r q d op).1, c')
      ∧ Refines cfg c' (a.step cfg w r q d op).2 := by
  cases op with
  | addRq now p =>
    obtain ⟨ret, c', hadd, hret, href⟩ := h.addRq hok.readOnly hop
    refine ⟨c', ?_, href⟩
    simp only [CacheQueues.step, hadd, Option.map_some, Prod.map_apply, hret, Waiting.step, id]
  | addWq now p =>
    obtain ⟨ret, c', hadd, hret, href⟩ := h.addWq hop.2
    refine ⟨c', ?_, href⟩
    simp only [CacheQueues.step, hadd, Option.map_some, Prod.map_apply, hret, Waiting.step, id]
  | addPq now p =>
    obtain ⟨ret, c', hadd, hret, href⟩ := h.addPq hop
    refine ⟨c', ?_, href⟩
    simp only [CacheQueues.step, hadd, Option.map_some, Prod.map_apply, hret, Waiting.step, id]
  | takeRq =>
    have hwf := h.rq.release hop
    refine ⟨_, by simp only [CacheQueues.step, CacheQueues.takeRq, h.rq.removeQueue hop]; rfl, ?_⟩
    exact ⟨h.wq, hwf, h.pq, h.processed, h.wqName, h.rqName, h.pqName, h.reads, h.writes⟩
  | takeWq =>
    have hwf := h.wq.release hop
    refine ⟨_, by simp only [CacheQueues.step, CacheQueues.takeWq, h.wq.removeQueue hop]; rfl, ?_⟩
    exact ⟨hwf, h.rq, h.pq, h.processed, h.wqName, h.rqName, h.pqName, h.reads, h.writes⟩
  | takePq =>
    have hwf := h.pq.release hop
    refine ⟨_, by simp only [CacheQueues.step, CacheQueues.takePq, h.pq.removeQueue hop]; rfl, ?_⟩
    exact ⟨h.wq, h.rq, hwf, h.processed, h.wqName, h.rqName, h.pqName, h.reads, h.writes⟩
  | takeProcessed =>
    have hwf := h.processed.release hop
    refine ⟨_, by simp only [CacheQueues.step, CacheQueues.takeProcessed,
      h.processed.removeQueue hop]; rfl, ?_⟩
    exact ⟨h.wq, h.rq, h.pq, hwf, h.wqName, h.rqName, h.pqName, h.reads, h.writes⟩

theorem refines_runOps (ops : List QueueOp) (h : Refines cfg c a) (hok : a.Ok cfg)
    (hops : Mealy.Along (Waiting.step cfg w r q d) (Waiting.Allowed cfg w) a ops) :
    ∃ c', c.runOps cfg ops = some (Mealy.outputs (Waiting.step cfg w r q d) a ops, c')
      ∧ Refines cfg c' (Mealy.run (Waiting.step cfg w r q d) a ops)
      ∧ (Mealy.run (Waiting.step cfg w r q d) a ops).Ok cfg := by
  induction ops generalizing c a with
  | nil => exact ⟨c, rfl, h, hok⟩
  | cons op ops ih =>
    obtain ⟨hop, hrest⟩ := hops
    obtain ⟨c₁, hstep, href⟩ := h.step hok op hop
    obtain ⟨c', hrun, hfinal⟩ := ih href (hok.step op hop) hrest
    refine ⟨c', ?_, hfinal⟩
    simp only [CacheQueues.runOps, hstep, Option.bind_some, hrun, Option.map_some, Mealy.outputs]

end invariant

theorem refines_queues (cfg : CacheConfig) (w r q d : Nat) :
    Refines cfg (cfg.queues w r q d) {} :=
  have hempty : ∀ (n : Nat) (name : String), ({ name := name } : PacketQueue n).Wf [] :=
    fun _ _ => ⟨Ring.Clean.nil Packet.empty Ring.first, rfl⟩
  ⟨hempty w _, hempty r _, hempty q _, hempty d _, rfl, rfl, rfl, rfl, rfl⟩

/-- Over every run of requests and removals in which the callers keep their promises, no
assertion of `add_rq`, `add_wq`, `add_pq`, `add_queue` or `remove_queue` fails, the replies
and the rings are those of the lists, no packet waits twice, and every access to the read
and the prefetch queue was forwarded, merged or queued. -/
theorem run_queues (cfg : CacheConfig) (w r q d : Nat) (ops : List QueueOp)
    (hops : Mealy.Along (Waiting.step cfg w r q d) (Waiting.Allowed cfg w) {} ops) :
    ∃ c, (cfg.queues w r q d).runOps cfg ops
        = some (Mealy.outputs (Waiting.step cfg w r q d) {} ops, c)
      ∧ Refines cfg c (Mealy.run (Waiting.step cfg w r q d) {} ops)
      ∧ (Mealy.run (Waiting.step cfg w r q d) {} ops).Ok cfg :=
  refines_runOps ops (refines_queues cfg w r q d)
    ⟨fun _ => rfl, List.nodup_nil, List.nodup_nil, List.nodup_nil⟩ hops

/-- The L2 cache as the core sets it up. -/
def L2C : CacheConfig := ⟨"L2C", .L2C, FILL_L2, 10⟩

/-- A packet of the core for the block `address`. -/
def packetFor (cycle : Nat) (address : Word) : Packet :=
  { cpu := 0, address := address, eventCycle := cycle }

/-- A block is to be written. A read and a prefetch of it are answered from there; other reads
and prefetches wait or are merged, up to a full queue; and some are taken. -/
def writeReadPrefetch : List QueueOp :=
  [.addWq (fun _ => 1) { packetFor 1 64#64 with data := 7#64 },
    .addRq (fun _ => 2) { packetFor 2 64#64 with fillLevel := FILL_L1, fillL1d := true },
    .addPq (fun _ => 2) { packetFor 2 64#64 with type := .PREFETCH, fillLevel := FILL_L2 },
    .addRq (fun _ => 3) (packetFor 3 128#64),
    .addRq (fun _ => 4) { packetFor 4 128#64 with instruction := true, robIndex := 3 },
    .addRq (fun _ => 4) (packetFor 4 192#64), .addRq (fun _ => 5) (packetFor 5 256#64),
    .addPq (fun _ => 6) { packetFor 6 320#64 with type := .PREFETCH, fillLevel := FILL_LLC },
    .addPq (fun _ => 6) { packetFor 6 320#64 with type := .PREFETCH, fillLevel := FILL_L2 },
    .addWq (fun _ => 7) (packetFor 7 64#64), .addWq (fun _ => 7) (packetFor 7 384#64),
    .takeRq, .takeWq, .takePq, .addRq (fun _ => 9) (packetFor 9 256#64)]

theorem run_queues_L2C :
    let ops := writeReadPrefetch
    (∃ c, (L2C.queues 1 1 1 351).runOps L2C ops
        = some (Mealy.outputs (Waiting.step L2C 1 1 1 351) {} ops, c)
      ∧ Refines L2C c (Mealy.run (Waiting.step L2C 1 1 1 351) {} ops)
      ∧ (Mealy.run (Waiting.step L2C 1 1 1 351) {} ops).Ok L2C)
      ∧ (Mealy.outputs (Waiting.step L2C 1 1 1 351) {} ops).map (fun o => o.1)
        = [.accepted, .accepted, .accepted, .accepted, .merged, .accepted, .full, .accepted,
          .merged, .merged, .accepted, .accepted, .accepted, .accepted, .accepted]
      ∧ (Mealy.outputs (Waiting.step L2C 1 1 1 351) {} ops).map (fun o => o.2.length)
        = [0, 1, 0, 0, 0, 0, 0, 0, 0, 0, 0, 0, 0, 0, 0] :=
  ⟨run_queues L2C 1 1 1 351 writeReadPrefetch (by decide +kernel), by decide +kernel,
    by decide +kernel⟩

end SandboxPredictor
