import SandboxPredictor.ChampSim.Mshr
import SandboxPredictor.ChampSim.Replacement
import SandboxPredictor.ChampSim.PageTable

/- The block array of a `CACHE` and the handlers of `src/cache.cc` that work on it:
   `check_hit`, `fill_cache`, `invalidate_entry`, `handle_fill`, `handle_writeback`,
   `handle_read` and `handle_prefetch`, with any replacement policy.

   The packets come from the queues, in whatever order these give them, and the
   handlers run in any order; what the other levels do is given in each step. -/
namespace SandboxPredictor

/-- `BLOCK`. -/
structure Block where
  valid : Bool := false
  prefetch : Bool := false
  dirty : Bool := false
  used : Bool := false
  tag : Word := 0#64
  address : Word := 0#64
  fullAddr : Word := 0#64
  data : Word := 0#64

/-- A cache of `s + 1` sets of `w + 1` ways, with `n + 1` miss status registers. -/
structure Cache (ρ : Type) (s w n : Nat) where
  block : Fin (s + 1) → Fin (w + 1) → Block := fun _ _ => {}
  repl : ρ
  MSHR : PacketQueue n
  pfUseful : Nat := 0
  pfUseless : Nat := 0
  pfFill : Nat := 0

/-- What a handler finds around it: the cycle, and whether there is room in the queues of
the lower level and among the processed packets. -/
structure CacheEnv where
  now : Nat → Nat
  roomRq : Bool
  roomWq : Bool
  roomPq : Bool
  roomProcessed : Bool

/-- What a handler hands on: to the queues of the lower level, to `va_to_pa`, to
`return_data` of an upper level, and to the processed packets with the data of the block. -/
inductive Sent where
  | rq (p : Packet)
  | wq (p : Packet)
  | pq (p : Packet)
  | walk (p : Packet)
  | upper (port : Port) (p : Packet)
  | processed (p : Packet) (data : Word)

/-- How a packet was served. -/
inductive Served where
  | idle
  | stalled
  | hit
  | missed
  | filled (p : Packet)

structure CacheReply where
  served : Served
  sent : List Sent

/-- A step of the cache: a handler with the packet at the head of its queue, or a call. -/
inductive CacheOp where
  | fill (env : CacheEnv)
  | writeback (env : CacheEnv) (p : Packet)
  | read (env : CacheEnv) (p : Packet)
  | prefetch (env : CacheEnv) (p : Packet)
  | returnData (now : Nat → Nat) (p : Packet)
  | invalidate (address : Word)

/-- The packet that a handler takes from its queue. -/
def CacheOp.packet : CacheOp → Option Packet
  | .writeback _ p => some p
  | .read _ p => some p
  | .prefetch _ p => some p
  | _ => none

namespace CacheConfig

variable (cfg : CacheConfig)

/-- `lower_level`: only the STLB has none. -/
def hasLower : Bool := cfg.cacheType ≠ .STLB

def isTlb : Bool := cfg.cacheType = .ITLB || cfg.cacheType = .DTLB || cfg.cacheType = .STLB

def answers (p : Packet) : List Sent := (cfg.answer p).map fun (port, p) => .upper port p

/-- `update processed packets`. -/
def processes (env : CacheEnv) (p : Packet) (data : Word) : List Sent :=
  if (cfg.cacheType = .ITLB ∨ cfg.cacheType = .DTLB ∨ cfg.cacheType = .L1I
      ∨ cfg.cacheType = .L1D ∧ p.type ≠ .PREFETCH) ∧ env.roomProcessed then [.processed p data]
  else []

/-- The STLB returns the data of its block. -/
def translated (b : Block) (p : Packet) : Packet :=
  if cfg.cacheType = .STLB then { p with data := b.data } else p

end CacheConfig

/-- `writeback_packet` for a block that makes room for `p`. -/
def Block.writeback (cfg : CacheConfig) (env : CacheEnv) (p : Packet) (b : Block) : Packet :=
  { fillLevel := 2 * cfg.fillLevel, cpu := p.cpu, address := b.address, fullAddr := b.fullAddr,
    data := b.data, instrId := p.instrId, ip := 0#64, type := .WRITEBACK,
    eventCycle := env.now p.cpu }

/-- The packet as `add_mshr` leaves it. -/
def Packet.enqueued (env : CacheEnv) (p : Packet) : Packet :=
  { p with cycleEnqueued := env.now p.cpu }

/-- The block that `fill_cache` makes of `p`, marked dirty or not. -/
def Block.ofPacket (p : Packet) (dirty : Bool) : Block where
  valid := true
  prefetch := p.type = .PREFETCH
  dirty := dirty
  used := false
  tag := p.address
  address := p.address
  fullAddr := p.fullAddr
  data := p.data

theorem getSet_lt (s : Nat) (address : Word) : address.toNat % 2 ^ lg2 (s + 1) < s + 1 :=
  Nat.lt_of_lt_of_le (Nat.mod_lt _ (Nat.two_pow_pos _)) (Nat.log2_self_le (Nat.succ_ne_zero s))

/-- `get_set`: the low bits of the address, as many as `lg2(NUM_SET)`. -/
def getSet (s : Nat) (address : Word) : Fin (s + 1) := ⟨_, getSet_lt s address⟩

namespace Cache

variable {ρ : Type} {s w n : Nat}

/-- `check_hit`: the first way with the block. -/
def checkHit (c : Cache ρ s w n) (address : Word) : Option (Fin (w + 1)) :=
  KeyTable.find (fun b : Block => (b.valid, b.tag)) (c.block (getSet s address)) (true, address)

/-- One block replaced. -/
def setBlock (c : Cache ρ s w n) (set : Fin (s + 1)) (way : Fin (w + 1)) (b : Block) :
    Fin (s + 1) → Fin (w + 1) → Block :=
  Function.update c.block set (Function.update (c.block set) way b)

/-- `invalidate_entry`. -/
def invalidateEntry (address : Word) (c : Cache ρ s w n) : Cache ρ s w n :=
  match c.checkHit address with
  | none => c
  | some way =>
    { c with
      block := c.setBlock (getSet s address) way
        { c.block (getSet s address) way with valid := false } }

/-- `fill_cache`; `none` is a failed assertion: a translation without data. -/
def fillCache (cfg : CacheConfig) (p : Packet) (dirty : Bool) (set : Fin (s + 1))
    (way : Fin (w + 1)) (c : Cache ρ s w n) : Option (Cache ρ s w n) :=
  if cfg.isTlb ∧ p.data = 0#64 then none
  else some { c with
    block := c.setBlock set way (Block.ofPacket p dirty)
    pfUseless := c.pfUseless
      + if (c.block set way).prefetch ∧ (c.block set way).used = false then 1 else 0
    pfFill := c.pfFill + if p.type = .PREFETCH then 1 else 0 }

section handlers

variable [Replacement ρ s w] (cfg : CacheConfig)

/-- A victim replaced by the block of `p`, and what is written back for it; no list when the
victim is dirty and the lower level has no room for it. -/
def place (env : CacheEnv) (p : Packet) (dirty : Bool) (c : Cache ρ s w n) :
    Option (Option (List Sent) × Cache ρ s w n) :=
  let set := getSet s p.address
  (Replacement.victim c.repl set fun way => (c.block set way).valid).bind fun (way, repl) =>
    let old := c.block set way
    -- the search for a victim may have changed the state of the policy all the same
    if old.dirty ∧ cfg.hasLower ∧ env.roomWq = false then some (none, { c with repl := repl })
    else
      (Replacement.update repl set way ⟨p.cpu, p.fullAddr, p.ip, old.fullAddr, p.type, false⟩).bind
        fun repl' =>
          ({ c with repl := repl' }.fillCache cfg p dirty set way).map fun c' =>
            (some (if old.dirty ∧ cfg.hasLower then [.wq (old.writeback cfg env p)] else []), c')

/-- `handle_fill`. An RFO marks the line of the L1 data cache dirty. -/
def handleFill (env : CacheEnv) (c : Cache ρ s w n) : Option (CacheReply × Cache ρ s w n) :=
  match c.MSHR.fillDue env.now with
  | none => some (⟨.idle, []⟩, c)
  | some i =>
    let e := c.MSHR.entry i
    (c.place cfg env e (cfg.cacheType = .L1D && e.type = .RFO)).bind fun (back, c') =>
      match back with
      | none => some (⟨.stalled, []⟩, c')
      | some back =>
        (c'.MSHR.finishFill i).map fun MSHR =>
          (⟨.filled e, back ++ cfg.answers e ++ cfg.processes env e e.data⟩,
            { c' with MSHR := MSHR })

/-- A packet that misses goes to the registers; `sends` is what the lower level gets for a
new one. -/
def handleMiss (handler : Handler) (room : Bool) (env : CacheEnv) (p : Packet)
    (sends : MissEvent → List Sent) (c : Cache ρ s w n) : CacheReply × Cache ρ s w n :=
  match c.MSHR.request cfg handler room env.now p with
  | (.stalled, _) => (⟨.stalled, []⟩, c)
  | (e, MSHR) => (⟨.missed, sends e⟩, { c with MSHR := MSHR })

/-- What `handle_read` and the RFO miss of `handle_writeback` send for a new entry. -/
def demand (env : CacheEnv) (p : Packet) : MissEvent → List Sent
  | .taken _ => [if cfg.hasLower then .rq (p.enqueued env) else .walk (p.enqueued env)]
  | _ => []

/-- What `handle_prefetch` sends, also for a prefetch that takes no entry. -/
def speculation (env : CacheEnv) (p : Packet) : MissEvent → List Sent
  | .taken _ => [if cfg.cacheType = .LLC then .rq (p.enqueued env) else .pq (p.enqueued env)]
  | .passed => [if cfg.cacheType = .LLC then .rq p else .pq p]
  | _ => []

/-- `update_replacement_state` for a hit. -/
def touchHit (p : Packet) (set : Fin (s + 1)) (way : Fin (w + 1)) (c : Cache ρ s w n) :
    Option (Cache ρ s w n) :=
  (Replacement.update c.repl set way
    ⟨p.cpu, (c.block set way).fullAddr, p.ip, 0#64, p.type, true⟩).map
    fun repl => { c with repl := repl }

/-- `handle_writeback` for the packet at the head of the write queue. -/
def handleWriteback (env : CacheEnv) (p : Packet) (c : Cache ρ s w n) :
    Option (CacheReply × Cache ρ s w n) :=
  let set := getSet s p.address
  match c.checkHit p.address with
  | some way =>
    (c.touchHit p set way).map fun c' =>
      (⟨.hit, cfg.answers (cfg.translated (c.block set way) p)⟩,
        { c' with block := c'.setBlock set way { c.block set way with dirty := true } })
  | none =>
    -- only the L1 data cache fetches what is written; the others have all of the block
    if cfg.cacheType = .L1D then
      some (c.handleMiss cfg .writeback true env p (demand cfg env p))
    else
      (c.place cfg env p true).map fun (back, c') =>
        match back with
        | none => (⟨.stalled, []⟩, c')
        | some back => (⟨.filled p, back ++ cfg.answers p⟩, c')

/-- One round of `handle_read`. Only the last level looks for room below. -/
def handleRead (env : CacheEnv) (p : Packet) (c : Cache ρ s w n) :
    Option (CacheReply × Cache ρ s w n) :=
  let set := getSet s p.address
  match c.checkHit p.address with
  | some way =>
    let b := c.block set way
    (c.touchHit p set way).map fun c' =>
      (⟨.hit, cfg.processes env p b.data ++ cfg.answers (cfg.translated b p)⟩,
        { c' with
          block := c'.setBlock set way { b with prefetch := false, used := true }
          pfUseful := c'.pfUseful + if b.prefetch then 1 else 0 })
  | none =>
    some (c.handleMiss cfg .read (cfg.cacheType ≠ .LLC || env.roomRq) env p (demand cfg env p))

/-- One round of `handle_prefetch`. -/
def handlePrefetch (env : CacheEnv) (p : Packet) (c : Cache ρ s w n) :
    Option (CacheReply × Cache ρ s w n) :=
  let set := getSet s p.address
  match c.checkHit p.address with
  | some way => (c.touchHit p set way).map fun c' => (⟨.hit, cfg.answers p⟩, c')
  | none =>
    -- without a lower level a new prefetch is dropped
    if cfg.hasLower = false ∧ c.MSHR.checkMshr p = none ∧ c.MSHR.occupancy < n + 1 then
      some (⟨.missed, []⟩, c)
    else
      some (c.handleMiss cfg .prefetch
        (if cfg.cacheType = .LLC then env.roomRq else env.roomPq) env p (speculation cfg env p))

/-- `return_data` of the lower level. -/
def returnData (now : Nat → Nat) (p : Packet) (c : Cache ρ s w n) :
    Option (CacheReply × Cache ρ s w n) :=
  (c.MSHR.returnData cfg now p).map fun MSHR => (⟨.idle, []⟩, { c with MSHR := MSHR })

/-- A step; no reply is a failed assertion. -/
def step (c : Cache ρ s w n) : CacheOp → Option CacheReply × Cache ρ s w n
  | .fill env => commit c (c.handleFill cfg env)
  | .writeback env p => commit c (c.handleWriteback cfg env p)
  | .read env p => commit c (c.handleRead cfg env p)
  | .prefetch env p => commit c (c.handlePrefetch cfg env p)
  | .returnData now p => commit c (c.returnData cfg now p)
  | .invalidate address => (some ⟨.idle, []⟩, c.invalidateEntry address)
where
  commit (c : Cache ρ s w n) :
      Option (CacheReply × Cache ρ s w n) → Option CacheReply × Cache ρ s w n
    | none => (none, c)
    | some (reply, c') => (some reply, c')

end handlers

end Cache

/-! ## What a step can do -/

/-- The block that is written back to the lower level. -/
def Sent.back : Sent → Option Word
  | .wq p => some p.address
  | _ => none

def backs (l : List Sent) : List Word := l.filterMap Sent.back

@[simp] theorem backs_append (l l' : List Sent) : backs (l ++ l') = backs l ++ backs l' :=
  List.filterMap_append

@[simp] theorem backs_answers (cfg : CacheConfig) (p : Packet) : backs (cfg.answers p) = [] := by
  unfold CacheConfig.answers
  induction cfg.answer p with
  | nil => rfl
  | cons a l ih => exact ih

@[simp] theorem backs_processes (cfg : CacheConfig) (env : CacheEnv) (p : Packet) (x : Word) :
    backs (cfg.processes env p x) = [] := by
  unfold CacheConfig.processes
  split <;> rfl

namespace Cache

variable {ρ : Type} {s w n : Nat} {cfg : CacheConfig} {env : CacheEnv} {p : Packet}
  {c c' : Cache ρ s w n}

theorem backs_demand (e : MissEvent) : backs (demand cfg env p e) = [] := by
  unfold demand
  split
  · split <;> rfl
  · rfl

theorem backs_speculation (e : MissEvent) : backs (speculation cfg env p e) = [] := by
  unfold speculation
  split
  · split <;> rfl
  · split <;> rfl
  · rfl

/-- The block that a step writes, if it writes one. A request for ownership that was merged
with a load is filled as the load, and writes nothing. -/
def written (cfg : CacheConfig) : CacheOp → Served → Option Word
  | .writeback _ p, .hit => some p.address
  | .writeback _ p, .filled _ => some p.address
  | .fill _, .filled e => if cfg.cacheType = .L1D && e.type = .RFO then some e.address else none
  | _, _ => none

/-- The counters of the prefetched blocks stay. -/
def SameCounts (c c' : Cache ρ s w n) : Prop :=
  c'.pfUseful = c.pfUseful ∧ c'.pfUseless = c.pfUseless ∧ c'.pfFill = c.pfFill

/-- The block of `p` is put in the way. -/
structure Filled (c c' : Cache ρ s w n) (p : Packet) (dirty : Bool) (way : Fin (w + 1)) :
    Prop where
  block : c'.block = c.setBlock (getSet s p.address) way (Block.ofPacket p dirty)
  useful : c'.pfUseful = c.pfUseful
  useless : c'.pfUseless = c.pfUseless
    + if (c.block (getSet s p.address) way).prefetch
        ∧ (c.block (getSet s p.address) way).used = false then 1 else 0
  fill : c'.pfFill = c.pfFill + if p.type = .PREFETCH then 1 else 0

/-- What is written back for a victim. -/
def backOf (cfg : CacheConfig) (b : Block) : List Word :=
  if b.dirty ∧ cfg.hasLower then [b.address] else []

/-- Everything a step can do to the array and the registers, with the block it writes and
the blocks it writes back. -/
inductive Effect (cfg : CacheConfig) (op : CacheOp) (c c' : Cache ρ s w n) :
    Option Word → List Word → Prop
  | keep (hb : c'.block = c.block) (hp : SameCounts c c') (hm : c'.MSHR = c.MSHR) :
      Effect cfg op c c' none []
  | miss (handler : Handler) (room : Bool) (now : Nat → Nat) (p : Packet)
      (hop : op.packet = some p) (hnew : c.checkHit p.address = none) (hb : c'.block = c.block)
      (hp : SameCounts c c')
      (hm : c'.MSHR = (c.MSHR.request cfg handler room now p).2) : Effect cfg op c c' none []
  | returned (now : Nat → Nat) (p : Packet) (hop : op = .returnData now p)
      (hb : c'.block = c.block) (hp : SameCounts c c')
      (hm : c.MSHR.returnData cfg now p = some c'.MSHR) : Effect cfg op c c' none []
  | readHit (x : Word) (way : Fin (w + 1)) (hhit : c.checkHit x = some way)
      (hb : c'.block = c.setBlock (getSet s x) way
        { c.block (getSet s x) way with prefetch := false, used := true })
      (huseful : c'.pfUseful
        = c.pfUseful + if (c.block (getSet s x) way).prefetch then 1 else 0)
      (huseless : c'.pfUseless = c.pfUseless) (hfill : c'.pfFill = c.pfFill)
      (hm : c'.MSHR = c.MSHR) : Effect cfg op c c' none []
  | writeHit (x : Word) (way : Fin (w + 1)) (hhit : c.checkHit x = some way)
      (hb : c'.block = c.setBlock (getSet s x) way
        { c.block (getSet s x) way with dirty := true })
      (hp : SameCounts c c') (hm : c'.MSHR = c.MSHR) : Effect cfg op c c' (some x) []
  | dropped (x : Word) (way : Fin (w + 1)) (hop : op = .invalidate x)
      (hhit : c.checkHit x = some way)
      (hb : c'.block = c.setBlock (getSet s x) way
        { c.block (getSet s x) way with valid := false })
      (hp : SameCounts c c') (hm : c'.MSHR = c.MSHR) : Effect cfg op c c' none []
  | filled (p : Packet) (dirty : Bool) (way : Fin (w + 1)) (hf : Filled c c' p dirty way)
      (hm : ((∃ env, op = .writeback env p) ∧ cfg.cacheType ≠ .L1D ∧ c'.MSHR = c.MSHR
            ∧ c.checkHit p.address = none)
        ∨ ∃ env i, op = .fill env ∧ c.MSHR.fillDue env.now = some i ∧ c.MSHR.entry i = p
            ∧ c.MSHR.finishFill i = some c'.MSHR) :
      Effect cfg op c c' (if dirty then some p.address else none)
        (backOf cfg (c.block (getSet s p.address) way))

theorem SameCounts.refl (c : Cache ρ s w n) : SameCounts c c := ⟨rfl, rfl, rfl⟩

theorem fillCache_spec {set : Fin (s + 1)} {way : Fin (w + 1)} {dirty : Bool}
    (h : c.fillCache cfg p dirty set way = some c') (hset : set = getSet s p.address) :
    Filled c c' p dirty way ∧ c'.MSHR = c.MSHR := by
  subst hset
  unfold fillCache at h
  split at h
  · cases h
  · obtain rfl := Option.some.inj h
    exact ⟨⟨rfl, rfl, rfl, rfl⟩, rfl⟩

/-- A miss changes the registers only, and sends no block back. -/
theorem handleMiss_spec (cfg : CacheConfig) (env : CacheEnv) {op : CacheOp}
    (hop : op.packet = some p) (handler : Handler) (room : Bool)
    (sends : MissEvent → List Sent) (hsends : ∀ e, backs (sends e) = [])
    (hnew : c.checkHit p.address = none) :
    Effect cfg op c (c.handleMiss cfg handler room env p sends).2 none
        (backs (c.handleMiss cfg handler room env p sends).1.sent)
      ∧ ((c.handleMiss cfg handler room env p sends).1.served = .stalled
        ∨ (c.handleMiss cfg handler room env p sends).1.served = .missed) := by
  unfold handleMiss
  split
  · exact ⟨Effect.keep rfl (SameCounts.refl c) rfl, Or.inl rfl⟩
  · next e q _ hreq =>
    dsimp only
    rw [hsends]
    have hq : q = (c.MSHR.request cfg handler room env.now p).2 := by rw [hreq]
    exact ⟨Effect.miss handler room env.now p hop hnew rfl (SameCounts.refl c) hq, Or.inr rfl⟩

theorem commit_eq {r : Option (CacheReply × Cache ρ s w n)} {reply : CacheReply}
    (h : (step.commit c r).1 = some reply) : r = some (reply, (step.commit c r).2) := by
  cases r with
  | none => cases h
  | some x =>
    obtain ⟨y, d⟩ := x
    obtain rfl := Option.some.inj h
    rfl

theorem returnData_spec {now : Nat → Nat} {reply : CacheReply}
    (h : c.returnData cfg now p = some (reply, c')) :
    Effect cfg (.returnData now p) c c' (written cfg (.returnData now p) reply.served)
      (backs reply.sent) := by
  obtain ⟨q, hret, h⟩ := Option.map_eq_some_iff.1 h
  obtain ⟨rfl, rfl⟩ := Prod.mk.inj h
  exact Effect.returned now p rfl rfl (SameCounts.refl c) hret

section handlers

variable [Replacement ρ s w]

/-- A block finds its place, or nothing happens but to the replacement state. -/
theorem place_spec {dirty : Bool} {out : Option (List Sent)}
    (h : c.place cfg env p dirty = some (out, c')) :
    (out = none ∧ c'.block = c.block ∧ SameCounts c c' ∧ c'.MSHR = c.MSHR)
      ∨ ∃ way back, out = some back ∧ Filled c c' p dirty way ∧ c'.MSHR = c.MSHR
          ∧ backs back = backOf cfg (c.block (getSet s p.address) way) := by
  unfold place at h
  obtain ⟨⟨way, repl⟩, -, h⟩ := Option.bind_eq_some_iff.1 h
  dsimp only at h
  split at h
  · obtain ⟨rfl, rfl⟩ := Prod.mk.inj (Option.some.inj h)
    exact Or.inl ⟨rfl, rfl, SameCounts.refl c, rfl⟩
  · obtain ⟨repl', -, h⟩ := Option.bind_eq_some_iff.1 h
    obtain ⟨d, hfill, h⟩ := Option.map_eq_some_iff.1 h
    obtain ⟨rfl, rfl⟩ := Prod.mk.inj h
    obtain ⟨hf, hm⟩ := fillCache_spec hfill rfl
    refine Or.inr ⟨way, _, rfl, ⟨hf.block, hf.useful, hf.useless, hf.fill⟩, hm, ?_⟩
    unfold backOf
    split <;> rfl

theorem touchHit_spec {set : Fin (s + 1)} {way : Fin (w + 1)}
    (h : c.touchHit p set way = some c') : ∃ repl, c' = { c with repl := repl } := by
  obtain ⟨repl, -, rfl⟩ := Option.map_eq_some_iff.1 h
  exact ⟨repl, rfl⟩

theorem handleFill_spec {reply : CacheReply} (h : c.handleFill cfg env = some (reply, c')) :
    Effect cfg (.fill env) c c' (written cfg (.fill env) reply.served) (backs reply.sent) := by
  unfold handleFill at h
  split at h
  · obtain ⟨rfl, rfl⟩ := Prod.mk.inj (Option.some.inj h)
    exact Effect.keep rfl (SameCounts.refl c) rfl
  · next i hdue =>
    obtain ⟨⟨out, d⟩, hplace, h⟩ := Option.bind_eq_some_iff.1 h
    obtain ⟨rfl, hb, hp, hm⟩ | ⟨way, back, rfl, hf, hm, hback⟩ := place_spec hplace
    · obtain ⟨rfl, rfl⟩ := Prod.mk.inj (Option.some.inj h)
      exact Effect.keep hb hp hm
    · obtain ⟨q, hfin, h⟩ := Option.map_eq_some_iff.1 h
      obtain ⟨rfl, rfl⟩ := Prod.mk.inj h
      rw [hm] at hfin
      have hsent : backs (back ++ cfg.answers (c.MSHR.entry i)
          ++ cfg.processes env (c.MSHR.entry i) (c.MSHR.entry i).data) = backs back := by
        simp
      dsimp only
      rw [hsent, hback]
      exact Effect.filled _ _ way ⟨hf.block, hf.useful, hf.useless, hf.fill⟩
        (Or.inr ⟨env, i, rfl, hdue, rfl, hfin⟩)

theorem handleWriteback_spec {reply : CacheReply}
    (h : c.handleWriteback cfg env p = some (reply, c')) :
    Effect cfg (.writeback env p) c c' (written cfg (.writeback env p) reply.served)
      (backs reply.sent) := by
  unfold handleWriteback at h
  split at h
  · next way hhit =>
    obtain ⟨d, htouch, h⟩ := Option.map_eq_some_iff.1 h
    obtain ⟨repl, rfl⟩ := touchHit_spec htouch
    obtain ⟨rfl, rfl⟩ := Prod.mk.inj h
    dsimp only
    rw [backs_answers]
    exact Effect.writeHit p.address way hhit rfl (SameCounts.refl c) rfl
  · next hnew =>
    split at h
    · have hop : (CacheOp.writeback env p).packet = some p := rfl
      have heff := handleMiss_spec cfg env hop .writeback true (demand cfg env p) backs_demand hnew
      rw [Option.some.inj h] at heff
      obtain ⟨heff, hs | hs⟩ := heff
      · rw [hs]
        exact heff
      · rw [hs]
        exact heff
    · next hdata =>
      obtain ⟨⟨out, d⟩, hplace, h⟩ := Option.map_eq_some_iff.1 h
      obtain ⟨rfl, hb, hp, hm⟩ | ⟨way, back, rfl, hf, hm, hback⟩ := place_spec hplace
      · obtain ⟨rfl, rfl⟩ := Prod.mk.inj h
        exact Effect.keep hb hp hm
      · obtain ⟨rfl, rfl⟩ := Prod.mk.inj h
        dsimp only
        rw [backs_append, backs_answers, List.append_nil, hback]
        exact Effect.filled p true way hf (Or.inl ⟨⟨env, rfl⟩, hdata, hm, hnew⟩)

theorem handleRead_spec {reply : CacheReply} (h : c.handleRead cfg env p = some (reply, c')) :
    Effect cfg (.read env p) c c' (written cfg (.read env p) reply.served)
      (backs reply.sent) := by
  unfold handleRead at h
  split at h
  · next way hhit =>
    obtain ⟨d, htouch, h⟩ := Option.map_eq_some_iff.1 h
    obtain ⟨repl, rfl⟩ := touchHit_spec htouch
    obtain ⟨rfl, rfl⟩ := Prod.mk.inj h
    dsimp only
    rw [backs_append, backs_processes, backs_answers]
    exact Effect.readHit p.address way hhit rfl rfl rfl rfl rfl
  · next hnew =>
    have hop : (CacheOp.read env p).packet = some p := rfl
    have heff := (handleMiss_spec cfg env hop .read (cfg.cacheType ≠ .LLC || env.roomRq)
      (demand cfg env p) backs_demand hnew).1
    rw [Option.some.inj h] at heff
    exact heff

theorem handlePrefetch_spec {reply : CacheReply}
    (h : c.handlePrefetch cfg env p = some (reply, c')) :
    Effect cfg (.prefetch env p) c c' (written cfg (.prefetch env p) reply.served)
      (backs reply.sent) := by
  unfold handlePrefetch at h
  split at h
  · next way hhit =>
    obtain ⟨d, htouch, h⟩ := Option.map_eq_some_iff.1 h
    obtain ⟨repl, rfl⟩ := touchHit_spec htouch
    obtain ⟨rfl, rfl⟩ := Prod.mk.inj h
    dsimp only
    rw [backs_answers]
    exact Effect.keep rfl (SameCounts.refl c) rfl
  · next hnew =>
    split at h
    · obtain ⟨rfl, rfl⟩ := Prod.mk.inj (Option.some.inj h)
      exact Effect.keep rfl (SameCounts.refl c) rfl
    · have hop : (CacheOp.prefetch env p).packet = some p := rfl
      have heff := (handleMiss_spec cfg env hop .prefetch
        (if cfg.cacheType = .LLC then env.roomRq else env.roomPq) (speculation cfg env p)
        backs_speculation hnew).1
      rw [Option.some.inj h] at heff
      exact heff

/-- **One step.** -/
theorem step_effect {op : CacheOp} {reply : CacheReply} (h : (c.step cfg op).1 = some reply) :
    Effect cfg op c (c.step cfg op).2 (written cfg op reply.served) (backs reply.sent) := by
  cases op with
  | fill env => exact handleFill_spec (commit_eq h)
  | writeback env p => exact handleWriteback_spec (commit_eq h)
  | read env p => exact handleRead_spec (commit_eq h)
  | prefetch env p => exact handlePrefetch_spec (commit_eq h)
  | returnData now p => exact returnData_spec (commit_eq h)
  | invalidate x =>
    obtain rfl := Option.some.inj h
    change Effect cfg (.invalidate x) c (c.invalidateEntry x) none []
    unfold invalidateEntry
    split
    · exact Effect.keep rfl (SameCounts.refl c) rfl
    · next way hhit => exact Effect.dropped x way rfl hhit rfl (SameCounts.refl c) rfl

/-- A failed assertion stops the run where it is. -/
theorem step_failed {op : CacheOp} (h : (c.step cfg op).1 = none) : (c.step cfg op).2 = c := by
  have hcommit : ∀ r : Option (CacheReply × Cache ρ s w n), (step.commit c r).1 = none →
      (step.commit c r).2 = c := by
    intro r hr
    cases r with
    | none => rfl
    | some x => cases hr
  cases op with
  | fill env => exact hcommit _ h
  | writeback env p => exact hcommit _ h
  | read env p => exact hcommit _ h
  | prefetch env p => exact hcommit _ h
  | returnData now p => exact hcommit _ h
  | invalidate x => cases h

end handlers

end Cache

end SandboxPredictor
