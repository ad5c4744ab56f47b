import SandboxPredictor.ChampSim.CacheBlocks

/- Two levels of the cache hierarchy with the write queue of the lower one between them, each
   with a replacement policy of its own. The handlers of both run in any order.

   A block that was written in the upper level is held dirty there, waits in the queue, or is
   held dirty below, until the lower level writes it back itself (`no_write_lost_below`). -/
namespace SandboxPredictor

/-- The packet that goes to the write queue of the lower level. -/
def Sent.writeback : Sent → Option Packet
  | .wq p => some p
  | _ => none

/-- Two caches, and the packets that the upper one has written back. -/
structure Levels (ρ ρ' : Type) (s w n s' w' n' : Nat) where
  upper : Cache ρ s w n
  WQ : List Packet
  lower : Cache ρ' s' w' n'

/-- A step: of the upper cache, of the lower cache with a packet from elsewhere, or of the lower
cache with the head of its write queue. -/
inductive LevelsOp where
  | upper (op : CacheOp)
  | lower (op : CacheOp)
  | drain (env : CacheEnv)

namespace Cache

variable {ρ : Type} {s w n : Nat} [Replacement ρ s w] {cfg : CacheConfig} {c : Cache ρ s w n}
  {op : CacheOp} {x : Word}

/-- The block that a step wrote, if it wrote one. -/
def wrote (cfg : CacheConfig) (op : CacheOp) (r : Option CacheReply) : Option Word :=
  r.bind fun reply => written cfg op reply.served

/-- The blocks that a step handed to the lower level. -/
def handed (r : Option CacheReply) : List Word := r.elim [] fun reply => backs reply.sent

def HandsOn (r : Option CacheReply) (x : Word) : Prop := x ∈ handed r

instance (r : Option CacheReply) (x : Word) : Decidable (HandsOn r x) :=
  inferInstanceAs (Decidable (x ∈ handed r))

theorem Named.step (h : c.Named) (cfg : CacheConfig) (op : CacheOp) : (c.step cfg op).2.Named := by
  cases hreply : (c.step cfg op).1 with
  | none => rw [step_failed hreply]; exact h
  | some reply => exact h.effect (step_effect hreply)

theorem Named.holds (h : c.Named) (hw : wrote cfg op (c.step cfg op).1 = some x) :
    (c.step cfg op).2.HoldsDirty x := by
  cases hreply : (c.step cfg op).1 with
  | none =>
    rw [hreply] at hw
    cases hw
  | some reply =>
    have hwritten : written cfg op reply.served = some x := by
      rw [hreply] at hw
      exact hw
    have he := step_effect hreply
    rw [hwritten] at he
    exact he.holds h

theorem HoldsDirty.step (h : c.HoldsDirty x) (hlower : cfg.hasLower = true)
    (hback : x ∉ handed (c.step cfg op).1) : (c.step cfg op).2.HoldsDirty x := by
  cases hreply : (c.step cfg op).1 with
  | none => rw [step_failed hreply]; exact h
  | some reply =>
    rw [hreply] at hback
    exact h.effect hlower (step_effect hreply) hback

instance (c : Cache ρ s w n) (x : Word) : Decidable (c.HoldsDirty x) :=
  inferInstanceAs (Decidable (∃ way, (c.block (getSet s x) way).dirty = true
    ∧ (c.block (getSet s x) way).address = x))

end Cache

namespace Levels

variable {ρ ρ' : Type} {s w n s' w' n' : Nat} [Replacement ρ s w] [Replacement ρ' s' w']
  {up low : CacheConfig}

/-- A block that waits in the queue. -/
def InQueue (WQ : List Packet) (x : Word) : Prop := x ∈ WQ.map Packet.address

instance (WQ : List Packet) (x : Word) : Decidable (InQueue WQ x) :=
  inferInstanceAs (Decidable (x ∈ WQ.map Packet.address))

/-- What `add_wq` makes of the queue: a block that waits already is merged. -/
def queued (WQ : List Packet) (p : Packet) : List Packet :=
  if InQueue WQ p.address then WQ else WQ ++ [p]

/-- The packets that a step wrote back. -/
def writebacks (r : Option CacheReply) : List Packet :=
  r.elim [] fun reply => reply.sent.filterMap Sent.writeback

/-- The head of the queue is done with when it has been written. -/
def served (WQ : List Packet) : Option CacheReply → List Packet
  | some ⟨.hit, _⟩ => WQ.tail
  | some ⟨.filled _, _⟩ => WQ.tail
  | _ => WQ

/-- One step, with the replies of the two caches. -/
def step (up low : CacheConfig) (l : Levels ρ ρ' s w n s' w' n') :
    LevelsOp → (Option CacheReply × Option CacheReply) × Levels ρ ρ' s w n s' w' n'
  | .upper op =>
    let r := l.upper.step up op
    ((r.1, none), { l with upper := r.2, WQ := (writebacks r.1).foldl queued l.WQ })
  | .lower op =>
    let r := l.lower.step low op
    ((none, r.1), { l with lower := r.2 })
  | .drain env =>
    match l.WQ with
    | [] => ((none, none), l)
    | p :: rest =>
      let r := l.lower.step low (.writeback env p)
      ((none, r.1), { l with lower := r.2, WQ := served (p :: rest) r.1 })

/-- The block waits in the queue between the two. -/
def Waits (l : Levels ρ ρ' s w n s' w' n') (x : Word) : Prop := InQueue l.WQ x

/-- The lower level has not seen the last write of the block. -/
def Above (l : Levels ρ ρ' s w n s' w' n') (x : Word) : Prop := l.upper.HoldsDirty x ∨ l.Waits x

instance (l : Levels ρ ρ' s w n s' w' n') (x : Word) : Decidable (l.Waits x) :=
  inferInstanceAs (Decidable (InQueue l.WQ x))

instance (l : Levels ρ ρ' s w n s' w' n') (x : Word) : Decidable (l.Above x) :=
  inferInstanceAs (Decidable (l.upper.HoldsDirty x ∨ l.Waits x))

/-- The block is dirty above, waits, or is dirty below. -/
def Holds (l : Levels ρ ρ' s w n s' w' n') (x : Word) : Prop := l.Above x ∨ l.lower.HoldsDirty x

variable {l : Levels ρ ρ' s w n s' w' n'} {x : Word}

/-! ## The queue -/

theorem mem_queued {WQ : List Packet} {p : Packet} :
    x ∈ (queued WQ p).map Packet.address ↔ x ∈ WQ.map Packet.address ∨ x = p.address := by
  unfold queued
  split
  · next hmem =>
    refine ⟨Or.inl, ?_⟩
    rintro (hx | rfl)
    · exact hx
    · exact hmem
  · simp only [List.map_append, List.map_cons, List.map_nil, List.mem_append,
      List.mem_singleton]

theorem mem_foldl_queued (sent WQ : List Packet) :
    x ∈ (sent.foldl queued WQ).map Packet.address
      ↔ x ∈ WQ.map Packet.address ∨ x ∈ sent.map Packet.address := by
  induction sent generalizing WQ with
  | nil => simp
  | cons p sent ih =>
    rw [List.foldl_cons, ih, mem_queued, List.map_cons, List.mem_cons, or_assoc]

/-- What is handed on gets to the queue. -/
theorem map_writebacks (r : Option CacheReply) :
    (writebacks r).map Packet.address = Cache.handed r := by
  cases r with
  | none => rfl
  | some reply =>
    change (reply.sent.filterMap Sent.writeback).map Packet.address = backs reply.sent
    rw [backs, List.map_filterMap]
    congr 1
    funext e
    cases e <;> rfl

/-- The head leaves the queue only when it has been written below. -/
theorem waits_served {p : Packet} {rest : List Packet} {r : Option CacheReply}
    (h : x ∈ (p :: rest).map Packet.address) (env : CacheEnv) (low : CacheConfig) :
    x ∈ (served (p :: rest) r).map Packet.address
      ∨ Cache.wrote low (.writeback env p) r = some x := by
  have htail : x ∈ rest.map Packet.address ∨ p.address = x := by
    rw [List.map_cons, List.mem_cons] at h
    exact h.symm.imp id Eq.symm
  cases r with
  | none => exact Or.inl h
  | some reply =>
    obtain ⟨how, sent⟩ := reply
    cases how with
    | hit => exact htail.imp id (congrArg some)
    | filled q => exact htail.imp id (congrArg some)
    | idle => exact Or.inl h
    | stalled => exact Or.inl h
    | missed => exact Or.inl h

/-! ## One step -/

/-- What a step decides about the block: it is written above, or the lower level writes it
back while nothing newer is above. -/
def verdict (up low : CacheConfig) (x : Word) (l : Levels ρ ρ' s w n s' w' n') (op : LevelsOp) :
    Option Bool :=
  let r := (l.step up low op).1
  match op with
  | .upper op => if Cache.wrote up op r.1 = some x then some true else none
  | .lower _ => if Cache.HandsOn r.2 x ∧ ¬ l.Above x then some false else none
  | .drain _ => if Cache.HandsOn r.2 x ∧ ¬ l.Above x then some false else none

/-- A step of the upper cache. -/
theorem Holds.upper (h : l.Holds x) (hup : up.hasLower = true) (op : CacheOp) :
    (l.step up low (.upper op)).2.Holds x := by
  have hqueue := mem_foldl_queued (x := x) (writebacks (l.upper.step up op).1) l.WQ
  rw [map_writebacks] at hqueue
  rcases h with (hdirty | hwaits) | hlower
  · by_cases hback : x ∈ Cache.handed (l.upper.step up op).1
    · exact Or.inl (Or.inr (hqueue.2 (Or.inr hback)))
    · exact Or.inl (Or.inl (hdirty.step hup hback))
  · exact Or.inl (Or.inr (hqueue.2 (Or.inl hwaits)))
  · exact Or.inr hlower

/-- A step of the lower cache with a packet from elsewhere. -/
theorem Holds.lower (h : l.Holds x) (hlow : low.hasLower = true) (op : CacheOp)
    (hkeep : verdict up low x l (.lower op) ≠ some false) :
    (l.step up low (.lower op)).2.Holds x := by
  rcases h with habove | hlower
  · exact Or.inl habove
  · by_cases habove : l.Above x
    · exact Or.inl habove
    · have hback : x ∉ Cache.handed (l.lower.step low op).1 := fun hback =>
        hkeep (if_pos ⟨hback, habove⟩)
      exact Or.inr (hlower.step hlow hback)

/-- A step of the lower cache with the head of its queue. -/
theorem Holds.drain (h : l.Holds x) (hnamed : l.lower.Named) (hlow : low.hasLower = true)
    (env : CacheEnv) (hkeep : verdict up low x l (.drain env) ≠ some false) :
    (l.step up low (.drain env)).2.Holds x := by
  obtain ⟨upper, WQ, lower⟩ := l
  cases WQ with
  | nil => exact h
  | cons p rest =>
    have habove : Levels.Above ⟨upper, p :: rest, lower⟩ x →
        (Levels.step up low ⟨upper, p :: rest, lower⟩ (.drain env)).2.Holds x := by
      rintro (hdirty | hwaits)
      · exact Or.inl (Or.inl hdirty)
      · rcases waits_served (r := (lower.step low (.writeback env p)).1) hwaits env low with
          hstill | hwrote
        · exact Or.inl (Or.inr hstill)
        · exact Or.inr (hnamed.holds hwrote)
    rcases h with ha | hlower
    · exact habove ha
    · by_cases ha : Levels.Above ⟨upper, p :: rest, lower⟩ x
      · exact habove ha
      · have hback : x ∉ Cache.handed (lower.step low (.writeback env p)).1 := fun hback =>
          hkeep (if_pos ⟨hback, ha⟩)
        exact Or.inr (Cache.HoldsDirty.step hlower hlow hback)

/-! ## Whole runs -/

/-- Two empty caches. -/
def new (up low : CacheConfig) (n n' : Nat) (repl : ρ) (repl' : ρ') :
    Levels ρ ρ' s w n s' w' n' := ⟨Cache.new up n repl, [], Cache.new low n' repl'⟩

/-- The two levels after the steps `tr`. -/
abbrev after (up low : CacheConfig) (n n' : Nat) (repl : ρ) (repl' : ρ') (tr : List LevelsOp) :
    Levels ρ ρ' s w n s' w' n' := Mealy.run (step up low) (new up low n n' repl repl') tr

/-- The block was written above, and the lower level has not written it back since, except
while something newer was above. -/
def owed (up low : CacheConfig) (x : Word) (l : Levels ρ ρ' s w n s' w' n') (tr : List LevelsOp) :
    Bool := Mealy.lastSeen (step up low) (verdict up low x) false l tr

/-- The blocks of both caches lie where their addresses say. -/
def Named (l : Levels ρ ρ' s w n s' w' n') : Prop := l.upper.Named ∧ l.lower.Named

theorem Named.step (h : l.Named) (up low : CacheConfig) (op : LevelsOp) :
    (l.step up low op).2.Named := by
  cases op with
  | upper op => exact ⟨h.1.step up op, h.2⟩
  | lower op => exact ⟨h.1, h.2.step low op⟩
  | drain env =>
    obtain ⟨upper, WQ, lower⟩ := l
    cases WQ with
    | nil => exact h
    | cons p rest => exact ⟨h.1, h.2.step low (.writeback env p)⟩

/-- **One step.** What was held stays held, and what is written above is held. -/
theorem holds_step (hnamed : l.Named) (hup : up.hasLower = true) (hlow : low.hasLower = true)
    (op : LevelsOp) {was : Bool} (hwas : was = true → l.Holds x)
    (hnow : (verdict up low x l op).getD was = true) : (l.step up low op).2.Holds x := by
  -- a verdict against the block is none that it is owed
  have hkeep : verdict up low x l op ≠ some false := by
    intro hc
    rw [hc] at hnow
    cases hnow
  cases op with
  | upper op =>
    by_cases hwrote : Cache.wrote up op (l.upper.step up op).1 = some x
    · exact Or.inl (Or.inl (hnamed.1.holds hwrote))
    · have hnone : verdict up low x l (.upper op) = none := if_neg hwrote
      rw [hnone] at hnow
      exact (hwas hnow).upper hup op
  | lower op =>
    have hnone : verdict up low x l (.lower op) = none := by
      rw [verdict] at hkeep ⊢
      exact if_neg fun hc => hkeep (if_pos hc)
    rw [hnone] at hnow
    exact (hwas hnow).lower hlow op hkeep
  | drain env =>
    have hnone : verdict up low x l (.drain env) = none := by
      rw [verdict] at hkeep ⊢
      exact if_neg fun hc => hkeep (if_pos hc)
    rw [hnone] at hnow
    exact (hwas hnow).drain hnamed.2 hlow env hkeep

/-- **No write is lost on its way down.** In every run of two levels a block that was written
in the upper one, and that the lower level has not written back since with nothing newer above,
is dirty above, waits in the write queue, or is dirty below. -/
theorem no_write_lost_below (hup : up.cacheType ≠ .STLB) (hlow : low.cacheType ≠ .STLB)
    (repl : ρ) (repl' : ρ') (tr : List LevelsOp) (x : Word)
    (h : owed up low x (new up low n n' repl repl' : Levels ρ ρ' s w n s' w' n') tr = true) :
    (after up low n n' repl repl' tr : Levels ρ ρ' s w n s' w' n').Holds x := by
  have hup' : up.hasLower = true := by
    rw [CacheConfig.hasLower, decide_eq_true_eq]
    exact hup
  have hlow' : low.hasLower = true := by
    rw [CacheConfig.hasLower, decide_eq_true_eq]
    exact hlow
  have hnamed : ∀ tr, (after up low n n' repl repl' tr : Levels ρ ρ' s w n s' w' n').Named :=
    fun tr => Mealy.run_invariant (P := Named) (fun l op hl => hl.step up low op)
      ⟨Cache.named_new repl, Cache.named_new repl'⟩ tr
  induction tr using List.reverseRecOn with
  | nil => cases h
  | append_singleton tr op ih =>
    rw [owed, Mealy.lastSeen_snoc] at h
    have hrun : (after up low n n' repl repl' (tr ++ [op]) : Levels ρ ρ' s w n s' w' n')
        = ((after up low n n' repl repl' tr : Levels ρ ρ' s w n s' w' n').step up low op).2 :=
      Mealy.run_snoc tr op
    rw [hrun]
    exact holds_step (hnamed tr) hup' hlow' op ih h

def L1D : CacheConfig := ⟨"L1D", .L1D, FILL_L1, 5⟩

def oneLine : LRU 0 0 := LRU.new 0 0

/-- A block of the L1 data cache is read and written; another one takes its place, and it is
written to the second level. -/
def writeAndEvict : List LevelsOp :=
  [.upper (.read (Cache.atCycle 5) (Cache.line 64#64)),
    .upper (.returnData (fun _ => 7) (Cache.line 64#64)), .upper (.fill (Cache.atCycle 20)),
    .upper (.writeback (Cache.atCycle 21) { Cache.line 64#64 with type := .RFO }),
    .upper (.read (Cache.atCycle 30) (Cache.line 65#64)),
    .upper (.returnData (fun _ => 40) (Cache.line 65#64)), .upper (.fill (Cache.atCycle 60)),
    .drain (Cache.atCycle 61)]

theorem no_write_lost_below_writeAndEvict :
    Holds (after L1D L2C 0 1 oneLine Cache.twoByTwo writeAndEvict) 64#64 :=
  no_write_lost_below (by decide) (by decide) oneLine Cache.twoByTwo writeAndEvict 64#64
    (by decide +kernel)

/-- There it is dirty in the second level. -/
example :
    Cache.HoldsDirty (after L1D L2C 0 1 oneLine Cache.twoByTwo writeAndEvict).lower 64#64 := by
  decide +kernel

end Levels

end SandboxPredictor
