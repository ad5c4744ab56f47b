import SandboxPredictor.ChampSim.Cache

/- What the block array of a cache holds, over every run of its handlers and with any
   replacement policy:

   1. a block that is written stays in the array, dirty, until it is written back to the
      lower level (`no_write_lost`);
   2. the prefetched blocks are all accounted for (`prefetches_accounted`);
   3. a block is in at most one way, and never in a way and in the registers, unless a
      writeback overtakes a miss of its block (`blocks_unique`); then the dirty blocks are
      those that are owed to the lower level (`dirty_iff_owed`);
   4. in an instruction or data cache no assertion of the handlers fails
      (`no_assertion_fails`). -/
namespace SandboxPredictor

/-- What a request makes of an entry of the registers: it stays, the request is merged with
it, or it is the request. -/
theorem PacketQueue.request_entry {n : Nat} (q : PacketQueue n) (cfg : CacheConfig)
    (handler : Handler) (room : Bool) (now : Nat → Nat) (p : Packet) (i : Fin (n + 1)) :
    (q.request cfg handler room now p).2.entry i = q.entry i
      ∨ ((q.entry i).address = p.address
          ∧ (q.request cfg handler room now p).2.entry i = handler.merge p (q.entry i))
      ∨ (q.request cfg handler room now p).2.entry i = p.inflight now := by
  unfold request
  split
  · next k hfind =>
    have hk : (q.entry k).address = p.address := KeyTable.key_of_find hfind
    dsimp only
    rw [setEntry_entry]
    by_cases hik : i = k
    · subst hik
      rw [Function.update_self]
      exact Or.inr (Or.inl ⟨hk, rfl⟩)
    · rw [Function.update_of_ne hik]
      exact Or.inl rfl
  · split_ifs
    · exact Or.inl rfl
    · unfold addMshr
      split
      · next k _ =>
        by_cases hik : i = k
        · subst hik
          exact Or.inr (Or.inr (Function.update_self ..))
        · exact Or.inl (Function.update_of_ne hik ..)
      · exact Or.inl rfl
    · exact Or.inl rfl
    · exact Or.inl rfl

namespace Cache

variable {ρ : Type} {s w n : Nat} {cfg : CacheConfig} {op : CacheOp} {c c' : Cache ρ s w n}
  {x y : Word} {set t : Fin (s + 1)} {way v : Fin (w + 1)} {b : Block} {wr : Option Word}
  {back : List Word}

/-- An empty cache. -/
def new (cfg : CacheConfig) (n : Nat) (repl : ρ) : Cache ρ s w n where
  repl := repl
  MSHR := { name := cfg.name ++ "_MSHR" }

/-! ## One block changed -/

@[simp] theorem setBlock_self : c.setBlock set way b set way = b := by
  rw [setBlock, Function.update_self, Function.update_self]

theorem setBlock_ne (h : ¬ (t = set ∧ v = way)) : c.setBlock set way b t v = c.block t v := by
  unfold setBlock
  by_cases ht : t = set
  · subst ht
    rw [Function.update_self, Function.update_of_ne (fun hv => h ⟨rfl, hv⟩)]
  · rw [Function.update_of_ne ht]

/-- What holds of the new block and of all others holds of all. -/
theorem forall_setBlock {Q : Fin (s + 1) → Fin (w + 1) → Block → Prop} (hb : Q set way b)
    (h : ∀ t v, Q t v (c.block t v)) (t : Fin (s + 1)) (v : Fin (w + 1)) :
    Q t v (c.setBlock set way b t v) := by
  by_cases htv : t = set ∧ v = way
  · obtain ⟨rfl, rfl⟩ := htv
    rw [setBlock_self]
    exact hb
  · rw [setBlock_ne htv]
    exact h t v

theorem checkHit_some (h : c.checkHit x = some way) :
    (c.block (getSet s x) way).valid = true ∧ (c.block (getSet s x) way).tag = x := by
  have hkey := KeyTable.key_of_find h
  exact Prod.mk.inj hkey

theorem checkHit_none (h : c.checkHit x = none) (v : Fin (w + 1))
    (hv : (c.block (getSet s x) v).valid = true) : (c.block (getSet s x) v).tag ≠ x := by
  intro htag
  apply KeyTable.find_eq_none.1 h v
  rw [hv, htag]

/-! ## Blocks and their names -/

/-- A valid block lies in its set under its address, and a prefetched block that has been
used counts as such no more. -/
structure Block.Named (t : Fin (s + 1)) (b : Block) : Prop where
  address : b.valid = true → b.address = b.tag
  placed : b.valid = true → getSet s b.tag = t
  fresh : b.prefetch = true → b.used = false

def Named (c : Cache ρ s w n) : Prop := ∀ t v, Block.Named t (c.block t v)

theorem named_new (repl : ρ) : (new cfg n repl : Cache ρ s w n).Named := by
  intro t v
  exact ⟨fun h => Bool.noConfusion h, fun h => Bool.noConfusion h, fun _ => rfl⟩

theorem Named.effect (h : c.Named) (he : Effect cfg op c c' wr back) : c'.Named := by
  have hset : ∀ {t v b}, c'.block = c.setBlock t v b → Block.Named t b → c'.Named := by
    intro t v b hb hnamed
    rw [Named, hb]
    exact forall_setBlock (Q := fun t _ b => Block.Named t b) hnamed h
  cases he with
  | keep hb _ _ => rw [Named, hb]; exact h
  | miss _ _ _ _ _ _ hb _ _ => rw [Named, hb]; exact h
  | returned _ _ _ hb _ _ => rw [Named, hb]; exact h
  | readHit x way _ hb _ _ _ _ =>
    have hold := h (getSet s x) way
    exact hset hb ⟨hold.address, hold.placed, fun hp => Bool.noConfusion hp⟩
  | writeHit x way _ hb _ _ =>
    have hold := h (getSet s x) way
    exact hset hb ⟨hold.address, hold.placed, hold.fresh⟩
  | dropped x way _ _ hb _ _ =>
    have hold := h (getSet s x) way
    exact hset hb ⟨fun hv => Bool.noConfusion hv, fun hv => Bool.noConfusion hv, hold.fresh⟩
  | filled p dirty way hf _ =>
    exact hset hf.block ⟨fun _ => rfl, fun _ => rfl, fun _ => rfl⟩

/-! ## No write is lost -/

/-- A dirty block of the set of `x` is that of `x`. It need not be valid: an invalidated
block stays dirty until its way is filled. -/
def HoldsDirty (c : Cache ρ s w n) (x : Word) : Prop :=
  ∃ way, (c.block (getSet s x) way).dirty = true ∧ (c.block (getSet s x) way).address = x

/-- A change of a block that leaves what it is dirty with. -/
theorem HoldsDirty.setBlock (h : c.HoldsDirty x) (hb : c'.block = c.setBlock set way b)
    (hdirty : (c.block set way).dirty = true → b.dirty = true)
    (haddr : b.address = (c.block set way).address) : c'.HoldsDirty x := by
  obtain ⟨v, hv, hx⟩ := h
  refine ⟨v, ?_⟩
  rw [hb]
  by_cases htv : getSet s x = set ∧ v = way
  · obtain ⟨rfl, rfl⟩ := htv
    rw [setBlock_self]
    exact ⟨hdirty hv, haddr.trans hx⟩
  · rw [setBlock_ne htv]
    exact ⟨hv, hx⟩

/-- The block that is written is held. -/
theorem Effect.holds (h : c.Named) (he : Effect cfg op c c' (some x) back) :
    c'.HoldsDirty x := by
  generalize hw : some x = wr at he
  cases he with
  | keep _ _ _ => cases hw
  | miss _ _ _ _ _ _ _ _ _ => cases hw
  | returned _ _ _ _ _ _ => cases hw
  | readHit _ _ _ _ _ _ _ _ => cases hw
  | dropped _ _ _ _ _ _ _ => cases hw
  | writeHit y way hhit hb _ _ =>
    obtain rfl := Option.some.inj hw
    obtain ⟨hvalid, htag⟩ := checkHit_some hhit
    refine ⟨way, ?_⟩
    rw [hb, setBlock_self]
    exact ⟨rfl, ((h _ way).address hvalid).trans htag⟩
  | filled p dirty way hf _ =>
    cases dirty with
    | false => cases hw
    | true =>
      obtain rfl := Option.some.inj hw
      refine ⟨way, ?_⟩
      rw [hf.block, setBlock_self]
      exact ⟨rfl, rfl⟩

/-- A block that is held stays, unless it is written back. -/
theorem HoldsDirty.effect (h : c.HoldsDirty x) (hlower : cfg.hasLower = true)
    (he : Effect cfg op c c' wr back) (hback : x ∉ back) : c'.HoldsDirty x := by
  have hsame : c'.block = c.block → c'.HoldsDirty x := by
    intro hb
    rw [HoldsDirty, hb]
    exact h
  cases he with
  | keep hb _ _ => exact hsame hb
  | miss _ _ _ _ _ _ hb _ _ => exact hsame hb
  | returned _ _ _ hb _ _ => exact hsame hb
  | readHit y way _ hb _ _ _ _ => exact h.setBlock hb id rfl
  | writeHit y way _ hb _ _ => exact h.setBlock hb (fun _ => rfl) rfl
  | dropped y way _ _ hb _ _ => exact h.setBlock hb id rfl
  | filled p dirty way hf _ =>
    obtain ⟨v, hv, hx⟩ := h
    refine ⟨v, ?_⟩
    rw [hf.block]
    by_cases htv : getSet s x = getSet s p.address ∧ v = way
    · -- the victim is the dirty block itself
      obtain ⟨hset, rfl⟩ := htv
      rw [hset] at hv hx
      rw [backOf, if_pos ⟨hv, hlower⟩] at hback
      exact absurd (List.mem_singleton.2 hx.symm) hback
    · rw [setBlock_ne htv]
      exact ⟨hv, hx⟩

/-! ## Prefetched blocks -/

/-- The prefetched blocks that have not been used yet, of a set and of the cache. -/
def unused (c : Cache ρ s w n) (t : Fin (s + 1)) : Nat := KeyTable.tally Block.prefetch (c.block t)

def resident (c : Cache ρ s w n) : Nat := ∑ t, c.unused t

theorem resident_congr (h : c'.block = c.block) : c'.resident = c.resident := by
  unfold resident unused
  rw [h]

theorem resident_setBlock (h : c'.block = c.setBlock set way b) :
    c'.resident + (if (c.block set way).prefetch then 1 else 0)
      = c.resident + (if b.prefetch then 1 else 0) := by
  have hnew := Finset.add_sum_erase Finset.univ c'.unused (Finset.mem_univ set)
  have hold := Finset.add_sum_erase Finset.univ c.unused (Finset.mem_univ set)
  have hrest : ∑ t ∈ Finset.univ.erase set, c'.unused t
      = ∑ t ∈ Finset.univ.erase set, c.unused t := by
    apply Finset.sum_congr rfl
    intro t ht
    rw [unused, unused, h, setBlock, Function.update_of_ne (Finset.ne_of_mem_erase ht)]
  have hset : c'.unused set + (if (c.block set way).prefetch then 1 else 0)
      = c.unused set + (if b.prefetch then 1 else 0) := by
    rw [unused, unused, h, setBlock, Function.update_self]
    exact KeyTable.tally_update Block.prefetch (c.block set) way b
  rw [resident, resident, ← hnew, ← hold, hrest]
  omega

/-- Each prefetched block was useful, was useless, or is still there. -/
def Accounted (c : Cache ρ s w n) : Prop :=
  c.Named ∧ c.pfFill = c.pfUseful + c.pfUseless + c.resident

theorem Accounted.effect (h : c.Accounted) (he : Effect cfg op c c' wr back) : c'.Accounted := by
  obtain ⟨hnamed, hcount⟩ := h
  refine ⟨hnamed.effect he, ?_⟩
  have hkeep : c'.resident = c.resident → SameCounts c c' →
      c'.pfFill = c'.pfUseful + c'.pfUseless + c'.resident := by
    intro hres hp
    rw [hres, hp.1, hp.2.1, hp.2.2, hcount]
  cases he with
  | keep hb hp _ => exact hkeep (resident_congr hb) hp
  | miss _ _ _ _ _ _ hb hp _ => exact hkeep (resident_congr hb) hp
  | returned _ _ _ hb hp _ => exact hkeep (resident_congr hb) hp
  | readHit x way _ hb huseful huseless hfill _ =>
    -- what is counted as useful leaves the prefetched blocks
    have hres := resident_setBlock hb
    rw [hfill, huseful, huseless, hcount]
    simp only [Bool.false_eq_true, if_false] at hres
    omega
  | writeHit x way _ hb hp _ =>
    have hres := resident_setBlock hb
    exact hkeep (Nat.add_right_cancel hres) hp
  | dropped x way _ _ hb hp _ =>
    have hres := resident_setBlock hb
    exact hkeep (Nat.add_right_cancel hres) hp
  | filled p dirty way hf _ =>
    have hres := resident_setBlock hf.block
    -- a prefetched block in the array has not been used
    have huseless : ((c.block (getSet s p.address) way).prefetch = true
        ∧ (c.block (getSet s p.address) way).used = false)
        ↔ (c.block (getSet s p.address) way).prefetch = true := by
      refine ⟨And.left, ?_⟩
      intro hp
      exact ⟨hp, (hnamed _ way).fresh hp⟩
    have hfill := hf.fill
    have hold := hf.useless
    rw [if_congr huseless rfl rfl] at hold
    simp only [Block.ofPacket, decide_eq_true_eq] at hres
    rw [hfill, hf.useful, hold, hcount]
    omega

/-! ## One way for a block -/

/-- What the surroundings promise: a request has an address and a core, the lower level
returns a block that is in flight, and the clock has not run out. -/
def Allowed (cfg : CacheConfig) (c : Cache ρ s w n) : CacheOp → Prop
  | .fill env => ∀ cpu, env.now cpu < UINT64_MAX
  | .writeback _ p => p.address ≠ 0#64 ∧ p.cpu < NUM_CPUS
  | .read _ p => p.address ≠ 0#64 ∧ p.cpu < NUM_CPUS
  | .prefetch _ p => p.address ≠ 0#64 ∧ p.cpu < NUM_CPUS
  | .returnData now p => c.MSHR.MissAllowed cfg (.returnData now p)
  | .invalidate _ => True

/-- No writeback that misses overtakes a miss of its block. The L1 data cache sends the
writes that miss to the registers, so there is none in it. -/
def NoRace (cfg : CacheConfig) (c : Cache ρ s w n) : CacheOp → Prop
  | .writeback _ p =>
    cfg.cacheType = .L1D ∨ c.checkHit p.address ≠ none ∨ c.MSHR.checkMshr p = none
  | _ => True

instance (cfg : CacheConfig) (c : Cache ρ s w n) : ∀ op, Decidable (c.NoRace cfg op)
  | .writeback _ _ => inferInstanceAs (Decidable (_ ∨ _ ∨ _))
  | .fill _ | .read _ _ | .prefetch _ _ | .returnData _ _ | .invalidate _ => .isTrue trivial

/-- A block is in one way at most, and not in a way and in the registers. -/
structure Apart (c : Cache ρ s w n) : Prop where
  mshr : c.MSHR.MissInv
  unique : ∀ t v v', (c.block t v).valid = true → (c.block t v').valid = true →
    (c.block t v).tag = (c.block t v').tag → v = v'
  apart : ∀ i t v, (c.MSHR.entry i).address ≠ 0#64 → (c.block t v).valid = true →
    (c.block t v).tag ≠ (c.MSHR.entry i).address

theorem apart_new (repl : ρ) : (new cfg n repl : Cache ρ s w n).Apart where
  mshr := PacketQueue.MissInv.init _
  unique := fun _ _ _ h => Bool.noConfusion h
  apart := fun _ _ _ _ h => Bool.noConfusion h

/-- The blocks stay apart when each valid block was one under the same tag before. -/
theorem Apart.of_old (h : c.Apart) (hm : c'.MSHR = c.MSHR)
    (hold : ∀ t v, (c'.block t v).valid = true →
      (c.block t v).valid = true ∧ (c.block t v).tag = (c'.block t v).tag) : c'.Apart := by
  refine ⟨hm ▸ h.mshr, ?_, ?_⟩
  · intro t v v' hv hv' htag
    obtain ⟨hv, ht⟩ := hold t v hv
    obtain ⟨hv', ht'⟩ := hold t v' hv'
    exact h.unique t v v' hv hv' (by rw [ht, ht', htag])
  · intro i t v hi hv
    obtain ⟨hv, ht⟩ := hold t v hv
    rw [hm] at hi ⊢
    rw [← ht]
    exact h.apart i t v hi hv

/-- One block changed, under its tag and not made valid. -/
theorem Apart.setBlock (h : c.Apart) (hm : c'.MSHR = c.MSHR)
    (hb : c'.block = c.setBlock set way b) (htag : b.tag = (c.block set way).tag)
    (hvalid : b.valid = true → (c.block set way).valid = true) : c'.Apart := by
  refine h.of_old hm ?_
  rw [hb]
  exact forall_setBlock (Q := fun t v b => b.valid = true →
    (c.block t v).valid = true ∧ (c.block t v).tag = b.tag)
    (fun hv => ⟨hvalid hv, htag.symm⟩) (fun _ _ hv => ⟨hv, rfl⟩)

/-- The registers take a block that is in no way. -/
theorem Apart.of_entries (h : c.Apart) (hmshr : c'.MSHR.MissInv) (hb : c'.block = c.block)
    (hnew : ∀ i, (c'.MSHR.entry i).address ≠ 0#64 →
      (∃ j, (c.MSHR.entry j).address = (c'.MSHR.entry i).address)
        ∨ ∀ t v, (c.block t v).valid = true → (c.block t v).tag ≠ (c'.MSHR.entry i).address) :
    c'.Apart := by
  refine ⟨hmshr, ?_, ?_⟩
  · rw [hb]
    exact h.unique
  · intro i t v hi hv
    rw [hb] at hv ⊢
    rcases hnew i hi with ⟨j, hj⟩ | hnone
    · rw [← hj] at hi ⊢
      exact h.apart j t v hi hv
    · exact hnone t v hv

/-- A block is filled that is in no way, and no longer in the registers. -/
theorem Apart.filled {p : Packet} {dirty : Bool} (h : c.Apart) (hf : Filled c c' p dirty way)
    (hmshr : c'.MSHR.MissInv)
    (hentry : ∀ i, (c'.MSHR.entry i).address ≠ 0#64 → (c'.MSHR.entry i).address ≠ p.address
      ∧ ∃ j, (c.MSHR.entry j).address = (c'.MSHR.entry i).address)
    (hout : ∀ v, (c.block (getSet s p.address) v).valid = true →
      (c.block (getSet s p.address) v).tag ≠ p.address) : c'.Apart := by
  refine ⟨hmshr, ?_, ?_⟩
  · intro t v v' hv hv' htag
    rw [hf.block] at hv hv' htag
    by_cases htv : t = getSet s p.address ∧ v = way
    · by_cases htv' : t = getSet s p.address ∧ v' = way
      · rw [htv.2, htv'.2]
      · obtain ⟨rfl, rfl⟩ := htv
        rw [setBlock_ne htv'] at hv' htag
        rw [setBlock_self] at htag
        exact absurd htag.symm (hout v' hv')
    · rw [setBlock_ne htv] at hv htag
      by_cases htv' : t = getSet s p.address ∧ v' = way
      · obtain ⟨rfl, rfl⟩ := htv'
        rw [setBlock_self] at htag
        exact absurd htag (hout v hv)
      · rw [setBlock_ne htv'] at hv' htag
        exact h.unique t v v' hv hv' htag
  · intro i t v hi hv
    obtain ⟨hne, j, hj⟩ := hentry i hi
    rw [hf.block] at hv ⊢
    by_cases htv : t = getSet s p.address ∧ v = way
    · obtain ⟨rfl, rfl⟩ := htv
      rw [setBlock_self]
      exact Ne.symm hne
    · rw [setBlock_ne htv] at hv ⊢
      rw [← hj] at hi ⊢
      exact h.apart j t v hi hv

/-- A block that misses in its set is in no way at all. -/
theorem Named.no_way (h : c.Named) (hnew : c.checkHit x = none) (t : Fin (s + 1))
    (v : Fin (w + 1)) (hv : (c.block t v).valid = true) : (c.block t v).tag ≠ x := by
  intro htag
  have hset : getSet s x = t := by rw [← htag]; exact (h t v).placed hv
  subst hset
  exact checkHit_none hnew v hv htag

/-- The packets of all requests have an address and a core. -/
theorem Allowed.packet {p : Packet} (hop : c.Allowed cfg op) (hp : op.packet = some p) :
    p.address ≠ 0#64 ∧ p.cpu < NUM_CPUS := by
  cases op with
  | writeback env q => obtain rfl := Option.some.inj hp; exact hop
  | read env q => obtain rfl := Option.some.inj hp; exact hop
  | prefetch env q => obtain rfl := Option.some.inj hp; exact hop
  | fill env => cases hp
  | returnData now q => cases hp
  | invalidate x => cases hp

/-- A miss goes to the registers. -/
theorem Apart.miss (h : c.Apart) (hnamed : c.Named) {p : Packet}
    (hp : p.address ≠ 0#64 ∧ p.cpu < NUM_CPUS) (hnew : c.checkHit p.address = none)
    {handler : Handler} {room : Bool} {now : Nat → Nat} (hb : c'.block = c.block)
    (hm : c'.MSHR = (c.MSHR.request cfg handler room now p).2) : c'.Apart := by
  have hspec : PacketQueue.StepSpec c.MSHR (c.MSHR.request cfg handler room now p) :=
    PacketQueue.request_spec h.mshr hp.1 hp.2 handler room
  refine h.of_entries (hm ▸ hspec.inv) hb ?_
  intro i _
  rw [hm]
  rcases PacketQueue.request_entry c.MSHR cfg handler room now p i with
    hold | ⟨haddr, hmerge⟩ | hnext
  · exact Or.inl ⟨i, by rw [hold]⟩
  · -- merging keeps the address of the entry
    refine Or.inl ⟨i, ?_⟩
    rw [hmerge, PacketQueue.merge_address handler p _ haddr.symm]
  · rw [hnext]
    exact Or.inr (hnamed.no_way hnew)

/-- A block comes back, and its entry stays until it is filled. -/
theorem Apart.returned (h : c.Apart) {now : Nat → Nat} {p : Packet}
    (hop : c.MSHR.MissAllowed cfg (.returnData now p)) (hb : c'.block = c.block)
    (hm : c.MSHR.returnData cfg now p = some c'.MSHR) : c'.Apart := by
  obtain ⟨i, hi, hp, hfly, hcycle⟩ := hop
  obtain ⟨q', hq, hinv, hentry⟩ := h.mshr.returnData hi hp hfly hcycle
  rw [hm] at hq
  obtain rfl := Option.some.inj hq
  refine h.of_entries hinv hb ?_
  intro j _
  refine Or.inl ⟨j, ?_⟩
  rw [hentry]
  by_cases hji : j = i
  · rw [hji, Function.update_self]
    rfl
  · rw [Function.update_of_ne hji]

/-- A writeback is filled without a miss of its block in the registers. -/
theorem Apart.writtenBack (h : c.Apart) (hnamed : c.Named) {p : Packet} {dirty : Bool}
    (hf : Filled c c' p dirty way) (hm : c'.MSHR = c.MSHR) (hnew : c.checkHit p.address = none)
    (hmiss : c.MSHR.checkMshr p = none) : c'.Apart := by
  refine h.filled hf (hm ▸ h.mshr) ?_ (hnamed.no_way hnew _)
  intro j _
  rw [hm]
  exact ⟨KeyTable.find_eq_none.1 hmiss j, j, rfl⟩

/-- A block that has come back is filled, and its entry is given up. -/
theorem Apart.filledEntry (h : c.Apart) {now : Nat → Nat} {i : Fin (n + 1)} {dirty : Bool}
    (hnow : ∀ cpu, now cpu < UINT64_MAX) (hdue : c.MSHR.fillDue now = some i)
    (hf : Filled c c' (c.MSHR.entry i) dirty way) (hfin : c.MSHR.finishFill i = some c'.MSHR) :
    c'.Apart := by
  obtain ⟨hmin, -⟩ := (h.mshr.fillDue_eq_some hnow).1 hdue
  obtain ⟨q', hq, hinv, hentry⟩ := h.mshr.finishFill hmin.holds
  rw [hfin] at hq
  obtain rfl := Option.some.inj hq
  have haddr := h.mshr.address_ne hmin.holds
  refine h.filled hf hinv ?_ (fun v hv => h.apart i _ v haddr hv)
  intro j hj
  rw [hentry] at hj ⊢
  by_cases hji : j = i
  · rw [hji, Function.update_self] at hj
    exact absurd rfl hj
  · -- no other entry is for the block
    rw [Function.update_of_ne hji] at hj ⊢
    refine ⟨?_, j, rfl⟩
    intro heq
    exact hji (h.mshr.keyed.inj j i hj heq)

theorem Apart.effect (h : c.Apart) (hnamed : c.Named) (hop : c.Allowed cfg op)
    (hrace : c.NoRace cfg op) (he : Effect cfg op c c' wr back) : c'.Apart := by
  cases he with
  | keep hb _ hm =>
    refine h.of_old hm ?_
    rw [hb]
    exact fun _ _ hv => ⟨hv, rfl⟩
  | readHit x way _ hb _ _ _ hm => exact h.setBlock hm hb rfl id
  | writeHit x way _ hb _ hm => exact h.setBlock hm hb rfl id
  | dropped x way _ _ hb _ hm => exact h.setBlock hm hb rfl (fun hv => Bool.noConfusion hv)
  | miss handler room now p hpacket hnew hb _ hm =>
    exact h.miss hnamed (Allowed.packet hop hpacket) hnew hb hm
  | returned now p hret hb _ hm =>
    subst hret
    exact h.returned hop hb hm
  | filled p dirty way hf hm =>
    rcases hm with ⟨⟨env, rfl⟩, hdata, hm, hnew⟩ | ⟨env, i, rfl, hdue, rfl, hfin⟩
    · have hmiss : c.MSHR.checkMshr p = none := by
        rcases hrace with hl1d | hhit | hmiss
        · exact absurd hl1d hdata
        · exact absurd hnew hhit
        · exact hmiss
      exact h.writtenBack hnamed hf hm hnew hmiss
    · exact h.filledEntry hop hdue hf hfin

/-! ## What is dirty is owed -/

/-- What is invalidated is clean. -/
def DropsClean (c : Cache ρ s w n) : CacheOp → Prop
  | .invalidate x => ∀ way, c.checkHit x = some way → (c.block (getSet s x) way).dirty = false
  | _ => True

instance (c : Cache ρ s w n) : ∀ op, Decidable (c.DropsClean op)
  | .invalidate _ => inferInstanceAs (Decidable (∀ _, _ → _))
  | .fill _ | .writeback _ _ | .read _ _ | .prefetch _ _ | .returnData _ _ => .isTrue trivial

/-- Dirty blocks are valid. -/
def DirtyValid (c : Cache ρ s w n) : Prop :=
  ∀ t v, (c.block t v).dirty = true → (c.block t v).valid = true

theorem DirtyValid.effect (h : c.DirtyValid) (hclean : c.DropsClean op)
    (he : Effect cfg op c c' wr back) : c'.DirtyValid := by
  have hset : ∀ {t v b}, c'.block = c.setBlock t v b → (b.dirty = true → b.valid = true) →
      c'.DirtyValid := by
    intro t v b hb hvalid
    rw [DirtyValid, hb]
    exact forall_setBlock (Q := fun _ _ b => b.dirty = true → b.valid = true) hvalid h
  cases he with
  | keep hb _ _ => rw [DirtyValid, hb]; exact h
  | miss _ _ _ _ _ _ hb _ _ => rw [DirtyValid, hb]; exact h
  | returned _ _ _ hb _ _ => rw [DirtyValid, hb]; exact h
  | readHit x way _ hb _ _ _ _ => exact hset hb (h (getSet s x) way)
  | writeHit x way hhit hb _ _ => exact hset hb fun _ => (checkHit_some hhit).1
  | dropped x way hop hhit hb _ _ =>
    subst hop
    refine hset hb ?_
    intro hdirty
    rw [hclean way hhit] at hdirty
    cases hdirty
  | filled p dirty way hf _ => exact hset hf.block fun _ => rfl

/-- A block that is dirty after a change elsewhere, or of something else, was dirty before. -/
theorem HoldsDirty.of_setBlock (h : c'.HoldsDirty x) (hb : c'.block = c.setBlock set way b)
    (hold : b.dirty = true → b.address = x →
      (c.block set way).dirty = true ∧ (c.block set way).address = x) : c.HoldsDirty x := by
  obtain ⟨v, hv, hx⟩ := h
  rw [hb] at hv hx
  refine ⟨v, ?_⟩
  by_cases htv : getSet s x = set ∧ v = way
  · obtain ⟨hset, rfl⟩ := htv
    rw [hset, setBlock_self] at hv hx
    rw [hset]
    exact hold hv hx
  · rw [setBlock_ne htv] at hv hx
    exact ⟨hv, hx⟩

/-- A dirty block was just written, or was dirty before and has not been written back. -/
theorem HoldsDirty.before (h : c'.HoldsDirty x) (hnamed : c.Named) (hapart : c.Apart)
    (hvalid : c.DirtyValid) (he : Effect cfg op c c' wr back) :
    wr = some x ∨ c.HoldsDirty x ∧ x ∉ back := by
  have hkeep : c.HoldsDirty x → none = some x ∨ c.HoldsDirty x ∧ x ∉ ([] : List Word) :=
    fun hx => Or.inr ⟨hx, List.not_mem_nil⟩
  have hsame : c'.block = c.block → c.HoldsDirty x := by
    intro hb
    rw [HoldsDirty, hb] at h
    exact h
  cases he with
  | keep hb _ _ => exact hkeep (hsame hb)
  | miss _ _ _ _ _ _ hb _ _ => exact hkeep (hsame hb)
  | returned _ _ _ hb _ _ => exact hkeep (hsame hb)
  | readHit y way _ hb _ _ _ _ => exact hkeep (h.of_setBlock hb fun hd ha => ⟨hd, ha⟩)
  | dropped y way _ _ hb _ _ => exact hkeep (h.of_setBlock hb fun hd ha => ⟨hd, ha⟩)
  | writeHit y way hhit hb _ _ =>
    by_cases hxy : y = x
    · exact Or.inl (congrArg some hxy)
    · refine Or.inr ⟨h.of_setBlock hb ?_, List.not_mem_nil⟩
      intro _ haddr
      obtain ⟨hv, htag⟩ := checkHit_some hhit
      exact absurd (htag.symm.trans (((hnamed _ way).address hv).symm.trans haddr)) hxy
  | filled p dirty way hf _ =>
    by_cases hnew : dirty = true ∧ p.address = x
    · obtain ⟨rfl, rfl⟩ := hnew
      exact Or.inl (if_pos rfl)
    · obtain ⟨v, hv, hx⟩ := h
      rw [hf.block] at hv hx
      by_cases htv : getSet s x = getSet s p.address ∧ v = way
      · obtain ⟨hset, rfl⟩ := htv
        rw [hset, setBlock_self] at hv hx
        exact absurd ⟨hv, hx⟩ hnew
      · rw [setBlock_ne htv] at hv hx
        refine Or.inr ⟨⟨v, hv, hx⟩, ?_⟩
        -- two dirty blocks of one address would be one and the same
        intro hback
        unfold backOf at hback
        split at hback
        · next hold =>
          have heq : x = (c.block (getSet s p.address) way).address := List.mem_singleton.1 hback
          have hvx := hvalid _ _ hv
          have hvo := hvalid _ _ hold.1
          have htagx := ((hnamed _ v).address hvx).symm.trans hx
          have htago := ((hnamed _ way).address hvo).symm.trans heq.symm
          have hset : getSet s x = getSet s p.address := by
            rw [← (hnamed _ way).placed hvo, htago]
          rw [hset] at hvx htagx
          exact htv ⟨hset, hapart.unique _ v way hvx hvo (htagx.trans htago.symm)⟩
        · exact List.not_mem_nil hback

section run

variable [Replacement ρ s w]

/-- What a step says of the block `x`: it is written, or it is written back. -/
def verdict (cfg : CacheConfig) (x : Word) (c : Cache ρ s w n) (op : CacheOp) : Option Bool :=
  match (c.step cfg op).1 with
  | none => none
  | some reply =>
    if written cfg op reply.served = some x then some true
    else if x ∈ backs reply.sent then some false
    else none

/-- The block was written, and not written back since. -/
def owed (cfg : CacheConfig) (x : Word) (c : Cache ρ s w n) (tr : List CacheOp) : Bool :=
  Mealy.lastSeen (step cfg) (verdict cfg x) false c tr

/-- The cache after the steps `tr`. -/
abbrev after (cfg : CacheConfig) (n : Nat) (repl : ρ) (tr : List CacheOp) : Cache ρ s w n :=
  Mealy.run (step cfg) (new cfg n repl) tr

/-- A property that the effects of the steps keep holds after every run. -/
theorem after_induction {P : Cache ρ s w n → Prop} (repl : ρ) (h0 : P (new cfg n repl))
    (hstep : ∀ {op c c' wr back}, P c → Effect cfg op c c' wr back → P c')
    (tr : List CacheOp) : P (after cfg n repl tr) := by
  refine Mealy.run_invariant ?_ h0 tr
  intro c op h
  cases hreply : (c.step cfg op).1 with
  | none => rw [step_failed hreply]; exact h
  | some reply => exact hstep h (step_effect hreply)

theorem named_after (cfg : CacheConfig) (n : Nat) (repl : ρ) (tr : List CacheOp) :
    (after cfg n repl tr : Cache ρ s w n).Named :=
  after_induction repl (named_new repl) (fun h he => h.effect he) tr

/-- **No write is lost.** In every run of a cache with a lower level, a block that was
written, and not written back since, is held dirty in its set. -/
theorem no_write_lost (hlower : cfg.cacheType ≠ .STLB) (repl : ρ) (tr : List CacheOp) (x : Word)
    (h : owed cfg x (new cfg n repl : Cache ρ s w n) tr = true) :
    ∃ way, ((after cfg n repl tr : Cache ρ s w n).block (getSet s x) way).dirty = true
      ∧ ((after cfg n repl tr : Cache ρ s w n).block (getSet s x) way).address = x := by
  have hhas : cfg.hasLower = true := by
    rw [CacheConfig.hasLower, decide_eq_true_eq]
    exact hlower
  induction tr using List.reverseRecOn with
  | nil => cases h
  | append_singleton tr op ih =>
    rw [owed, Mealy.lastSeen_snoc, verdict] at h
    have hrun : (after cfg n repl (tr ++ [op]) : Cache ρ s w n)
        = ((after cfg n repl tr : Cache ρ s w n).step cfg op).2 := Mealy.run_snoc tr op
    rw [hrun]
    have hnamed : (after cfg n repl tr : Cache ρ s w n).Named := named_after cfg n repl tr
    cases hreply : ((after cfg n repl tr : Cache ρ s w n).step cfg op).1 with
    | none =>
      rw [hreply] at h
      rw [step_failed hreply]
      exact ih h
    | some reply =>
      rw [hreply] at h
      dsimp only at h
      have he := step_effect hreply
      split at h
      · next hw =>
        rw [hw] at he
        exact he.holds hnamed
      · split at h
        · cases h
        · next hback => exact HoldsDirty.effect (ih h) hhas he hback

def atCycle (cycle : Nat) : CacheEnv := ⟨fun _ => cycle, true, true, true, true⟩

def line (address : Word) : Packet :=
  { packetFor 5 address with fullAddr := address <<< 6, fillLevel := FILL_L2 }

/-- An L2 cache of two sets of two ways. A read of 64 and one of 65 miss, and meanwhile 66 is
written into the set of 64. Both blocks come back and are filled, 64 is written and 65 is
invalidated. A prefetched block then takes the place of 66, and 67 is still to come. -/
def fillAndWrite : List CacheOp :=
  [.read (atCycle 5) (line 64#64),
    .writeback (atCycle 6) { line 66#64 with type := .WRITEBACK, data := 9#64 },
    .read (atCycle 7) (line 65#64), .returnData (fun _ => 20) (line 64#64), .fill (atCycle 60),
    .returnData (fun _ => 61) (line 65#64), .fill (atCycle 90),
    .writeback (atCycle 91) { line 64#64 with type := .WRITEBACK }, .invalidate 65#64,
    .prefetch (atCycle 92) { line 68#64 with type := .PREFETCH },
    .returnData (fun _ => 100) (line 68#64), .fill (atCycle 140),
    .read (atCycle 141) (line 67#64)]

def twoByTwo : LRU 1 1 := LRU.new 1 1

theorem no_write_lost_fillAndWrite :
    ∃ way, ((after L2C 1 twoByTwo fillAndWrite).block (getSet 1 64#64) way).dirty = true
      ∧ ((after L2C 1 twoByTwo fillAndWrite).block (getSet 1 64#64) way).address = 64#64 :=
  no_write_lost (by decide) twoByTwo fillAndWrite 64#64 (by decide +kernel)

/-- **A block is in one place.** In every run in which no writeback overtakes a miss of its
block, a block is in one way of the cache at most, and while it is in the registers it is in
none. -/
theorem blocks_unique (repl : ρ) {tr : List CacheOp}
    (htr : Mealy.Along (step cfg) (fun c op => c.Allowed cfg op ∧ c.NoRace cfg op)
      (new cfg n repl : Cache ρ s w n) tr) :
    let c : Cache ρ s w n := after cfg n repl tr
    (∀ t v t' v', (c.block t v).valid = true → (c.block t' v').valid = true →
        (c.block t v).tag = (c.block t' v').tag → t = t' ∧ v = v')
      ∧ ∀ i t v, (c.MSHR.entry i).address ≠ 0#64 → (c.block t v).valid = true →
        (c.block t v).tag ≠ (c.MSHR.entry i).address := by
  intro c
  obtain ⟨hnamed, hapart⟩ : c.Named ∧ c.Apart := by
    refine Mealy.run_invariant_along (I := fun c => c.Named ∧ c.Apart) ?_
      ⟨named_new repl, apart_new repl⟩ htr
    intro d op hd hop
    cases hreply : (d.step cfg op).1 with
    | none => rw [step_failed hreply]; exact hd
    | some reply =>
      have he := step_effect hreply
      exact ⟨hd.1.effect he, hd.2.effect hd.1 hop.1 hop.2 he⟩
  refine ⟨?_, hapart.apart⟩
  intro t v t' v' hv hv' htag
  have ht : t = t' := by
    rw [← (hnamed t v).placed hv, ← (hnamed t' v').placed hv', htag]
  subst ht
  exact ⟨rfl, hapart.unique t v v' hv hv' htag⟩

/-- What a step needs for the dirty blocks to be exactly those that are owed. -/
structure Orderly (cfg : CacheConfig) (c : Cache ρ s w n) (op : CacheOp) : Prop where
  allowed : c.Allowed cfg op
  noRace : c.NoRace cfg op
  dropsClean : c.DropsClean op

/-- **What is dirty is owed.** If besides only clean blocks are invalidated, the blocks held
dirty are exactly those that were written and not written back since. -/
theorem dirty_iff_owed (hlower : cfg.cacheType ≠ .STLB) (repl : ρ) {tr : List CacheOp}
    (htr : Mealy.Along (step cfg) (Orderly cfg) (new cfg n repl : Cache ρ s w n) tr) (x : Word) :
    (∃ way, ((after cfg n repl tr : Cache ρ s w n).block (getSet s x) way).dirty = true
        ∧ ((after cfg n repl tr : Cache ρ s w n).block (getSet s x) way).address = x)
      ↔ owed cfg x (new cfg n repl : Cache ρ s w n) tr = true := by
  refine ⟨?_, no_write_lost hlower repl tr x⟩
  suffices hall : (after cfg n repl tr : Cache ρ s w n).Apart
      ∧ (after cfg n repl tr : Cache ρ s w n).DirtyValid
      ∧ ((after cfg n repl tr : Cache ρ s w n).HoldsDirty x →
        owed cfg x (new cfg n repl : Cache ρ s w n) tr = true) from hall.2.2
  induction tr using List.reverseRecOn with
  | nil =>
    refine ⟨apart_new repl, fun _ _ hd => Bool.noConfusion hd, ?_⟩
    intro hx
    obtain ⟨v, hv, -⟩ := hx
    cases hv
  | append_singleton tr op ih =>
    obtain ⟨hpre, hop⟩ := (Mealy.along_snoc tr op).1 htr
    obtain ⟨hapart, hvalid, howed⟩ := ih hpre
    have hnamed : (after cfg n repl tr : Cache ρ s w n).Named := named_after cfg n repl tr
    have hrun : (after cfg n repl (tr ++ [op]) : Cache ρ s w n)
        = ((after cfg n repl tr : Cache ρ s w n).step cfg op).2 := Mealy.run_snoc tr op
    rw [hrun, owed, Mealy.lastSeen_snoc, verdict]
    cases hreply : ((after cfg n repl tr : Cache ρ s w n).step cfg op).1 with
    | none =>
      rw [step_failed hreply]
      exact ⟨hapart, hvalid, howed⟩
    | some reply =>
      have he := step_effect hreply
      refine ⟨hapart.effect hnamed hop.allowed hop.noRace he, hvalid.effect hop.dropsClean he, ?_⟩
      intro hx
      dsimp only
      rcases hx.before hnamed hapart hvalid he with hw | ⟨hheld, hback⟩
      · rw [if_pos hw]
        rfl
      · split
        · rfl
        · exact howed hheld

theorem fillAndWrite_orderly :
    Mealy.Along (step L2C) (Orderly L2C) (new L2C 1 twoByTwo) fillAndWrite :=
  ⟨⟨⟨by decide, by decide⟩, trivial, trivial⟩,
    ⟨⟨by decide, by decide⟩, by decide +kernel, trivial⟩,
    ⟨⟨by decide, by decide⟩, trivial, trivial⟩,
    ⟨⟨0, by decide +kernel⟩, trivial, trivial⟩,
    ⟨fun _ => (by decide : 60 < UINT64_MAX), trivial, trivial⟩,
    ⟨⟨1, by decide +kernel⟩, trivial, trivial⟩,
    ⟨fun _ => (by decide : 90 < UINT64_MAX), trivial, trivial⟩,
    ⟨⟨by decide, by decide⟩, by decide +kernel, trivial⟩,
    ⟨trivial, trivial, by decide +kernel⟩,
    ⟨⟨by decide, by decide⟩, trivial, trivial⟩,
    ⟨⟨0, by decide +kernel⟩, trivial, trivial⟩,
    ⟨fun _ => (by decide : 140 < UINT64_MAX), trivial, trivial⟩,
    ⟨⟨by decide, by decide⟩, trivial, trivial⟩, trivial⟩

/-- In the end 68 and 64 are in one set, 65 has been dropped, and 67 is in the registers. -/
theorem blocks_unique_fillAndWrite :
    let c : Cache (LRU 1 1) 1 1 1 := after L2C 1 twoByTwo fillAndWrite
    (∀ t v t' v', (c.block t v).valid = true → (c.block t' v').valid = true →
        (c.block t v).tag = (c.block t' v').tag → t = t' ∧ v = v')
      ∧ (∀ i t v, (c.MSHR.entry i).address ≠ 0#64 → (c.block t v).valid = true →
        (c.block t v).tag ≠ (c.MSHR.entry i).address)
      ∧ c.checkHit 68#64 = some 0 ∧ c.checkHit 64#64 = some 1 ∧ c.checkHit 65#64 = none
      ∧ (c.MSHR.entry 0).address = 67#64 := by
  have horderly := Mealy.Along.imp (fun _ _ h => And.intro h.allowed h.noRace) fillAndWrite_orderly
  obtain ⟨hunique, hapart⟩ := blocks_unique twoByTwo horderly
  exact ⟨hunique, hapart, by decide +kernel, by decide +kernel, by decide +kernel,
    by decide +kernel⟩

/-- The block 66 was written back, and 64 is still to be. -/
theorem dirty_iff_owed_fillAndWrite :
    let c : Cache (LRU 1 1) 1 1 1 := after L2C 1 twoByTwo fillAndWrite
    (∀ x, (∃ way, (c.block (getSet 1 x) way).dirty = true
          ∧ (c.block (getSet 1 x) way).address = x)
        ↔ owed L2C x (new L2C 1 twoByTwo) fillAndWrite = true)
      ∧ owed L2C 64#64 (new L2C 1 twoByTwo) fillAndWrite = true
      ∧ owed L2C 66#64 (new L2C 1 twoByTwo) fillAndWrite = false :=
  ⟨dirty_iff_owed (by decide) twoByTwo fillAndWrite_orderly, by decide +kernel,
    by decide +kernel⟩

end run

/-! ## No assertion fails -/

section assertions

variable [Replacement ρ s w] {env : CacheEnv} {p : Packet}

/-- A writeback has no `ip`. -/
def Plain (p : Packet) : Prop := p.type = .WRITEBACK → p.ip = 0#64

theorem plain_merge (handler : Handler) {e : Packet} (hp : Plain p) (he : Plain e) :
    Plain (handler.merge p e) := by
  have hmark : Plain (markConsumer p e) := by
    unfold Plain markConsumer
    split_ifs <;> exact he
  have htake : ∀ e : Packet, Plain e → Plain (takeOver p (lowerFillLevel p e)) := by
    intro e he
    unfold takeOver
    split
    · exact hp
    · exact he
  cases handler with
  | read => exact htake _ hmark
  | writeback => exact htake e he
  | prefetch => exact he

/-- What the assertions rest on. -/
structure Safe (law : ReplacementLaw ρ) (c : Cache ρ s w n) : Prop where
  repl : law.inv c.repl
  mshr : c.MSHR.MissInv
  plain : ∀ i, Plain (c.MSHR.entry i)

/-- What the surroundings promise, and that writebacks have no `ip`. -/
def AllowedPlain (cfg : CacheConfig) (c : Cache ρ s w n) (op : CacheOp) : Prop :=
  c.Allowed cfg op ∧ ∀ p, op.packet = some p → Plain p

variable {law : ReplacementLaw ρ}

/-- A step that does not fail, and after which the cache is safe. -/
def Works (law : ReplacementLaw ρ) (r : Option (CacheReply × Cache ρ s w n)) : Prop :=
  ∃ reply c', r = some (reply, c') ∧ Safe law c'

theorem place_works (env : CacheEnv) (htlb : cfg.isTlb = false) (h : law.inv c.repl) (hp : Plain p)
    (dirty : Bool) : ∃ out c', c.place cfg env p dirty = some (out, c') ∧ law.inv c'.repl
      ∧ c'.MSHR = c.MSHR := by
  obtain ⟨way, repl, hvictim, hrepl⟩ :=
    law.victim (getSet s p.address) (fun way => (c.block (getSet s p.address) way).valid) h
  unfold place
  dsimp only
  rw [hvictim, Option.bind_some]
  dsimp only
  split
  · exact ⟨_, _, rfl, hrepl, rfl⟩
  · obtain ⟨repl', hupdate, hrepl'⟩ := law.update (getSet s p.address) way
      (t := ⟨p.cpu, p.fullAddr, p.ip, (c.block (getSet s p.address) way).fullAddr, p.type, false⟩)
      hrepl hp
    have hdata : ¬ (cfg.isTlb = true ∧ p.data = 0#64) := fun hc =>
      Bool.noConfusion (htlb.symm.trans hc.1)
    rw [hupdate, Option.bind_some, fillCache, if_neg hdata]
    exact ⟨_, _, rfl, hrepl', rfl⟩

theorem Safe.touchHit (h : Safe law c) (hp : Plain p) (set : Fin (s + 1)) (way : Fin (w + 1)) :
    ∃ c', c.touchHit p set way = some c' ∧ Safe law c' := by
  obtain ⟨repl, hupdate, hrepl⟩ := law.update set way
    (t := ⟨p.cpu, (c.block set way).fullAddr, p.ip, 0#64, p.type, true⟩) h.repl hp
  unfold Cache.touchHit
  rw [hupdate]
  exact ⟨_, rfl, hrepl, h.mshr, h.plain⟩

theorem Safe.handleMiss (h : Safe law c) (hp : p.address ≠ 0#64 ∧ p.cpu < NUM_CPUS)
    (hplain : Plain p) (handler : Handler) (room : Bool) (sends : MissEvent → List Sent) :
    Safe law (c.handleMiss cfg handler room env p sends).2 := by
  unfold Cache.handleMiss
  split
  · exact h
  · next e q _ hreq =>
    have hq : q = (c.MSHR.request cfg handler room env.now p).2 := by rw [hreq]
    have hspec : PacketQueue.StepSpec c.MSHR (c.MSHR.request cfg handler room env.now p) :=
      PacketQueue.request_spec h.mshr hp.1 hp.2 handler room
    refine ⟨h.repl, hq ▸ hspec.inv, ?_⟩
    intro i
    dsimp only
    rw [hq]
    rcases PacketQueue.request_entry c.MSHR cfg handler room env.now p i with
      hold | ⟨-, hmerge⟩ | hnext
    · rw [hold]
      exact h.plain i
    · rw [hmerge]
      exact plain_merge handler hplain (h.plain i)
    · rw [hnext]
      exact hplain

theorem Safe.handleFill (h : Safe law c) (htlb : cfg.isTlb = false)
    (hnow : ∀ cpu, env.now cpu < UINT64_MAX) : Works law (c.handleFill cfg env) := by
  unfold Cache.handleFill
  split
  · exact ⟨_, _, rfl, h⟩
  · next i hdue =>
    obtain ⟨out, d, hplace, hrepl, hm⟩ := place_works env htlb h.repl (h.plain i)
      (cfg.cacheType = .L1D && (c.MSHR.entry i).type = .RFO)
    dsimp only
    rw [hplace, Option.bind_some]
    cases out with
    | none => exact ⟨_, _, rfl, hrepl, hm ▸ h.mshr, hm ▸ h.plain⟩
    | some back =>
      obtain ⟨hmin, -⟩ := (h.mshr.fillDue_eq_some hnow).1 hdue
      obtain ⟨q, hfin, hinv, hentry⟩ := h.mshr.finishFill hmin.holds
      dsimp only
      rw [hm, hfin, Option.map_some]
      refine ⟨_, _, rfl, hrepl, hinv, ?_⟩
      intro j
      dsimp only
      rw [hentry]
      by_cases hji : j = i
      · rw [hji, Function.update_self]
        exact fun ht => nomatch ht
      · rw [Function.update_of_ne hji]
        exact h.plain j

theorem Safe.handleWriteback (h : Safe law c) (htlb : cfg.isTlb = false)
    (hp : p.address ≠ 0#64 ∧ p.cpu < NUM_CPUS) (hplain : Plain p) :
    Works law (c.handleWriteback cfg env p) := by
  unfold Cache.handleWriteback
  split
  · next way _ =>
    obtain ⟨d, htouch, hd⟩ := h.touchHit hplain (getSet s p.address) way
    dsimp only
    rw [htouch, Option.map_some]
    exact ⟨_, _, rfl, hd.repl, hd.mshr, hd.plain⟩
  · split
    · exact ⟨_, _, rfl, h.handleMiss hp hplain ..⟩
    · obtain ⟨out, d, hplace, hrepl, hm⟩ := place_works env htlb h.repl hplain true
      rw [hplace, Option.map_some]
      cases out with
      | none => exact ⟨_, _, rfl, hrepl, hm ▸ h.mshr, hm ▸ h.plain⟩
      | some back => exact ⟨_, _, rfl, hrepl, hm ▸ h.mshr, hm ▸ h.plain⟩

theorem Safe.handleRead (h : Safe law c) (hp : p.address ≠ 0#64 ∧ p.cpu < NUM_CPUS)
    (hplain : Plain p) : Works law (c.handleRead cfg env p) := by
  unfold Cache.handleRead
  split
  · next way _ =>
    obtain ⟨d, htouch, hd⟩ := h.touchHit hplain (getSet s p.address) way
    dsimp only
    rw [htouch, Option.map_some]
    exact ⟨_, _, rfl, hd.repl, hd.mshr, hd.plain⟩
  · exact ⟨_, _, rfl, h.handleMiss hp hplain ..⟩

theorem Safe.handlePrefetch (h : Safe law c) (hp : p.address ≠ 0#64 ∧ p.cpu < NUM_CPUS)
    (hplain : Plain p) : Works law (c.handlePrefetch cfg env p) := by
  unfold Cache.handlePrefetch
  split
  · next way _ =>
    obtain ⟨d, htouch, hd⟩ := h.touchHit hplain (getSet s p.address) way
    dsimp only
    rw [htouch, Option.map_some]
    exact ⟨_, _, rfl, hd⟩
  · split
    · exact ⟨_, _, rfl, h⟩
    · exact ⟨_, _, rfl, h.handleMiss hp hplain ..⟩

theorem Safe.returnData (h : Safe law c) {now : Nat → Nat}
    (hop : c.MSHR.MissAllowed cfg (.returnData now p)) : Works law (c.returnData cfg now p) := by
  obtain ⟨i, hi, hp, hfly, hcycle⟩ := hop
  obtain ⟨q, hret, hinv, hentry⟩ := h.mshr.returnData hi hp hfly hcycle
  unfold Cache.returnData
  rw [hret, Option.map_some]
  refine ⟨_, _, rfl, h.repl, hinv, ?_⟩
  intro j
  dsimp only
  rw [hentry]
  by_cases hji : j = i
  · rw [hji, Function.update_self]
    exact h.plain i
  · rw [Function.update_of_ne hji]
    exact h.plain j

theorem Works.commit {r : Option (CacheReply × Cache ρ s w n)} (h : Works law r) :
    (step.commit c r).1 ≠ none ∧ Safe law (step.commit c r).2 := by
  obtain ⟨reply, c', rfl, hsafe⟩ := h
  exact ⟨Option.some_ne_none reply, hsafe⟩

theorem Safe.step (h : Safe law c) (htlb : cfg.isTlb = false) (hop : c.AllowedPlain cfg op) :
    (c.step cfg op).1 ≠ none ∧ Safe law (c.step cfg op).2 := by
  obtain ⟨hop, hplain⟩ := hop
  cases op with
  | fill env => exact (h.handleFill htlb hop).commit
  | writeback env p => exact (h.handleWriteback htlb hop (hplain p rfl)).commit
  | read env p => exact (h.handleRead hop (hplain p rfl)).commit
  | prefetch env p => exact (h.handlePrefetch hop (hplain p rfl)).commit
  | returnData now p => exact (h.returnData hop).commit
  | invalidate x =>
    refine ⟨Option.some_ne_none _, ?_⟩
    change Safe law (c.invalidateEntry x)
    unfold invalidateEntry
    split
    · exact h
    · exact ⟨h.repl, h.mshr, h.plain⟩

/-- No step from a safe cache is refused. -/
theorem Safe.outputs (h : Safe law c) (htlb : cfg.isTlb = false) {tr : List CacheOp}
    (htr : Mealy.Along (Cache.step cfg) (AllowedPlain cfg) c tr) :
    ∀ o ∈ Mealy.outputs (Cache.step cfg) c tr, o ≠ none := by
  refine Mealy.forall_outputs_along (I := Safe law) ?_ h htr
  intro d op hd hop
  exact (hd.step htlb hop).symm

theorem Safe.new (law : ReplacementLaw ρ) {repl : ρ} (h : law.inv repl) :
    Safe law (Cache.new cfg n repl : Cache ρ s w n) where
  repl := h
  mshr := PacketQueue.MissInv.init _
  plain := fun _ ht => nomatch ht

/-- **No assertion fails** in the handlers of an instruction or data cache, under any policy
whose own assertions hold: there is always a victim, the registers always find what they look
for, and none of the steps is refused. -/
theorem no_assertion_fails (htlb : cfg.isTlb = false) (law : ReplacementLaw ρ) {repl : ρ}
    (hrepl : law.inv repl) {tr : List CacheOp}
    (htr : Mealy.Along (step cfg) (AllowedPlain cfg) (new cfg n repl : Cache ρ s w n) tr) :
    ∀ o ∈ Mealy.outputs (step cfg) (new cfg n repl : Cache ρ s w n) tr, o ≠ none :=
  (Safe.new law hrepl).outputs htlb htr

/-- The packets of `fillAndWrite` have no `ip`. -/
theorem fillAndWrite_plain : ∀ op ∈ fillAndWrite, ∀ p, op.packet = some p → Plain p := by
  have hip : ∀ op ∈ fillAndWrite, (op.packet.map Packet.ip).getD 0#64 = 0#64 := by decide
  intro op hop p hp _
  have hzero := hip op hop
  rw [hp] at hzero
  exact hzero

theorem no_assertion_fails_fillAndWrite :
    (LRU.law 1 1).inv twoByTwo
      ∧ ∀ o ∈ Mealy.outputs (step L2C) (new L2C 1 twoByTwo) fillAndWrite, o ≠ none :=
  ⟨LRU.ordered_new, no_assertion_fails rfl (LRU.law 1 1) LRU.ordered_new
    (Mealy.along_and (Mealy.Along.imp (fun _ _ h => h.allowed) fillAndWrite_orderly)
      (Mealy.along_of_forall fillAndWrite_plain))⟩

end assertions

end Cache

end SandboxPredictor
