import SandboxPredictor.ChampSim.Dram

/- What the memory controller keeps: in the queue that is served, the scheduled
   requests and the busy banks are one to one; in the other, nothing is scheduled. -/
namespace SandboxPredictor

/-- The bank is busy with the entry `i` of the queue `k`. -/
structure BankRequest.Serves (b : BankRequest) (k : DramQueue) (i : Nat) : Prop where
  working : b.working = true
  request : b.requestIndex = some i
  isWrite : b.isWrite = decide (k = .WQ)
  isRead : b.isRead = decide (k = .RQ)

/-- Every scheduled entry has its bank, and every busy bank its entry. -/
structure Serving {n : Nat} (k : DramQueue) (t : Fin (n + 1) → Packet)
    (bank : Fin DRAM_BANKS → BankRequest) : Prop where
  serves : ∀ i, (t i).scheduled = true → (bank (dramGetBank (t i).address)).Serves k i
  busy : ∀ b, (bank b).working = true →
    ∃ i, (t i).scheduled = true ∧ dramGetBank (t i).address = b

namespace Serving

variable {n : Nat} {k : DramQueue} {t : Fin (n + 1) → Packet}
  {bank : Fin DRAM_BANKS → BankRequest} {i j : Fin (n + 1)} {e : Packet} {b : BankRequest}

/-- No two scheduled entries have one bank. -/
theorem inj (h : Serving k t bank) (hi : (t i).scheduled = true) (hj : (t j).scheduled = true)
    (hij : dramGetBank (t i).address = dramGetBank (t j).address) : i = j := by
  have hri := (h.serves i hi).request
  rw [hij, (h.serves j hj).request] at hri
  exact Fin.ext (Option.some.inj hri).symm

/-- With nothing scheduled, no bank is busy, and the banks serve any queue alike. -/
theorem none_scheduled (h : Serving k t bank) (hnone : ∀ i, (t i).scheduled = false)
    (k' : DramQueue) {t' : Fin (n + 1) → Packet} (hnone' : ∀ i, (t' i).scheduled = false) :
    Serving k' t' bank := by
  refine ⟨?_, ?_⟩
  · intro i hi
    rw [hnone' i] at hi
    cases hi
  · intro b hb
    obtain ⟨i, hi, -⟩ := h.busy b hb
    rw [hnone i] at hi
    cases hi

/-- An entry and its bank are given free. -/
theorem release (h : Serving k t bank) (hi : (t i).scheduled = true) (he : e.scheduled = false)
    (hb : b.working = false) :
    Serving k (Function.update t i e)
      (Function.update bank (dramGetBank (t i).address) b) := by
  refine ⟨?_, ?_⟩
  · intro j hj
    have hji : j ≠ i := by
      rintro rfl
      rw [Function.update_self, he] at hj
      cases hj
    rw [Function.update_of_ne hji] at hj ⊢
    have hbank : dramGetBank (t j).address ≠ dramGetBank (t i).address :=
      fun heq => hji (h.inj hj hi heq)
    rw [Function.update_of_ne hbank]
    exact h.serves j hj
  · intro c hc
    have hci : c ≠ dramGetBank (t i).address := by
      rintro rfl
      rw [Function.update_self, hb] at hc
      cases hc
    rw [Function.update_of_ne hci] at hc
    obtain ⟨j, hj, rfl⟩ := h.busy c hc
    have hji : j ≠ i := fun heq => hci (by rw [heq])
    exact ⟨j, by rw [Function.update_of_ne hji]; exact hj,
      by rw [Function.update_of_ne hji]⟩

/-- A waiting entry takes an idle bank. -/
theorem start (h : Serving k t bank) (hi : (t i).scheduled = false)
    (hidle : (bank (dramGetBank e.address)).working = false) (he : e.scheduled = true)
    (hb : b.Serves k i) :
    Serving k (Function.update t i e) (Function.update bank (dramGetBank e.address) b) := by
  refine ⟨?_, ?_⟩
  · intro j hj
    by_cases hji : j = i
    · subst hji
      rw [Function.update_self, Function.update_self]
      exact hb
    · rw [Function.update_of_ne hji] at hj ⊢
      have hbank : dramGetBank (t j).address ≠ dramGetBank e.address := by
        intro heq
        have hw := (h.serves j hj).working
        rw [heq, hidle] at hw
        cases hw
      rw [Function.update_of_ne hbank]
      exact h.serves j hj
  · intro c hc
    by_cases hce : c = dramGetBank e.address
    · exact ⟨i, by rw [Function.update_self]; exact he, by rw [Function.update_self]; exact hce.symm⟩
    · rw [Function.update_of_ne hce] at hc
      obtain ⟨j, hj, hjc⟩ := h.busy c hc
      have hji : j ≠ i := by
        rintro rfl
        rw [hi] at hj
        cases hj
      exact ⟨j, by rw [Function.update_of_ne hji]; exact hj,
        by rw [Function.update_of_ne hji]; exact hjc⟩

/-- A change of an entry that is not scheduled. -/
theorem set (h : Serving k t bank) (hi : (t i).scheduled = false) (he : e.scheduled = false) :
    Serving k (Function.update t i e) bank := by
  refine ⟨?_, ?_⟩
  · intro j hj
    have hji : j ≠ i := by
      rintro rfl
      rw [Function.update_self, he] at hj
      cases hj
    rw [Function.update_of_ne hji] at hj ⊢
    exact h.serves j hj
  · intro c hc
    obtain ⟨j, hj, hjc⟩ := h.busy c hc
    have hji : j ≠ i := by
      rintro rfl
      rw [hi] at hj
      cases hj
    exact ⟨j, by rw [Function.update_of_ne hji]; exact hj,
      by rw [Function.update_of_ne hji]; exact hjc⟩

/-- A change of what a bank has besides its request. -/
theorem touch (h : Serving k t bank) {c : Fin DRAM_BANKS} (hw : b.working = (bank c).working)
    (hr : b.requestIndex = (bank c).requestIndex) (hwr : b.isWrite = (bank c).isWrite)
    (hrd : b.isRead = (bank c).isRead) : Serving k t (Function.update bank c b) := by
  refine ⟨?_, ?_⟩
  · intro j hj
    have hs := h.serves j hj
    by_cases hjc : dramGetBank (t j).address = c
    · rw [hjc] at hs ⊢
      rw [Function.update_self]
      exact ⟨hw.trans hs.working, hr.trans hs.request, hwr.trans hs.isWrite,
        hrd.trans hs.isRead⟩
    · rw [Function.update_of_ne hjc]
      exact hs
  · intro c' hc'
    refine h.busy c' ?_
    by_cases hcc : c' = c
    · subst hcc
      rw [Function.update_self, hw] at hc'
      exact hc'
    · rw [Function.update_of_ne hcc] at hc'
      exact hc'

end Serving

/-- What holds of every packet in a queue. -/
structure Packet.Sound (p : Packet) : Prop where
  cpu : p.address ≠ 0#64 → p.cpu < NUM_CPUS
  cycle : p.address ≠ 0#64 → p.eventCycle < UINT64_MAX
  address : p.scheduled = true → p.address ≠ 0#64

theorem Packet.Sound.empty : Packet.empty.Sound :=
  ⟨fun h => absurd rfl h, fun h => absurd rfl h, fun h => by cases h⟩

theorem Packet.Sendable.sound {p : Packet} (h : p.Sendable) : p.Sound :=
  ⟨fun _ => h.cpu, fun _ => h.cycle, fun _ => h.address⟩

namespace PacketQueue

variable {n : Nat} {q : PacketQueue n} {i : Fin (n + 1)} {e : Packet}

/-- No block twice, and all packets sound. -/
structure Table (q : PacketQueue n) : Prop where
  keyed : KeyTable.Keyed Packet.address 0#64 q.entry q.occupancy
  sound : ∀ i, (q.entry i).Sound

theorem Table.set (h : q.Table) (he : e.Sound) {occupancy : Nat}
    (keyed : KeyTable.Keyed Packet.address 0#64 (Function.update q.entry i e) occupancy) :
    Table { q with entry := Function.update q.entry i e, occupancy := occupancy } :=
  ⟨keyed, (Function.forall_update_iff q.entry (fun _ p => p.Sound)).2
    ⟨he, fun j _ => h.sound j⟩⟩

theorem setEntry_address (he : e.address = (q.entry i).address) (j : Fin (n + 1)) :
    ((q.setEntry i e).entry j).address = (q.entry j).address := by
  by_cases hj : j = i
  · subst hj
    rw [setEntry_entry, Function.update_self, he]
  · rw [setEntry_entry, Function.update_of_ne hj]

section countRow

variable (q : PacketQueue n) (hit : Bool)

@[simp] theorem countRow_entry : (q.countRow hit).entry = q.entry := by
  unfold countRow
  split <;> rfl

@[simp] theorem countRow_occupancy : (q.countRow hit).occupancy = q.occupancy := by
  unfold countRow
  split <;> rfl

end countRow

/-- The next entries are those the controller has to see to. -/
structure Current (q : PacketQueue n) : Prop where
  schedule : FirstMin.Cached q.waits (fun i => (q.entry i).eventCycle) UINT64_MAX
    q.nextScheduleIndex q.nextScheduleCycle
  process : FirstMin.Cached (fun i => (q.entry i).scheduled) (fun i => (q.entry i).eventCycle)
    UINT64_MAX q.nextProcessIndex q.nextProcessCycle

theorem Current.update (q : PacketQueue n) : q.updateScheduleCycle.updateProcessCycle.Current :=
  ⟨FirstMin.Cached.fresh _ _ _, FirstMin.Cached.fresh _ _ _⟩

theorem Current.countRow (h : q.Current) (hit : Bool) : (q.countRow hit).Current := by
  unfold PacketQueue.countRow
  split
  · exact ⟨h.schedule, h.process⟩
  · exact ⟨h.schedule, h.process⟩

/-- A request put in a free place, with the schedule brought up to date. -/
theorem Current.fill (h : q.Current) (hi : (q.entry i).scheduled = false)
    (he : e.scheduled = false) (occupancy : Nat) :
    (updateScheduleCycle { q with entry := Function.update q.entry i e,
                                  occupancy := occupancy }).Current := by
  refine ⟨FirstMin.Cached.fresh _ _ _, h.process.congr ?_ ?_⟩
  · intro j
    by_cases hji : j = i
    · subst hji
      simp only [updateScheduleCycle, Function.update_self, he, hi]
    · simp only [updateScheduleCycle, Function.update_of_ne hji]
  · intro j hj
    have hji : j ≠ i := by
      rintro rfl
      rw [hi] at hj
      cases hj
    simp only [updateScheduleCycle, Function.update_of_ne hji]

/-- A request that has been processed taken out, with the processing brought up to date. -/
theorem Current.release (h : q.Current) (hi : (q.entry i).scheduled = true) :
    (q.release i).updateProcessCycle.Current := by
  refine ⟨h.schedule.congr ?_ ?_, FirstMin.Cached.fresh _ _ _⟩
  · intro j
    by_cases hji : j = i
    · subst hji
      simp [waits, updateProcessCycle, hi]
    · simp [waits, updateProcessCycle, hji]
  · intro j hj
    have hji : j ≠ i := by
      rintro rfl
      simp [waits, hi] at hj
    simp [updateProcessCycle, hji]

end PacketQueue

namespace Dram

variable {n : Nat}

/-- What the controller keeps while it serves the queue `k`. -/
structure Sane (d : Dram n) (k : DramQueue) : Prop where
  table : ∀ j, (d.queue j).Table
  active : ∀ j i, ((d.queue j).entry i).scheduled = true → j = k
  serving : Serving k (d.queue k).entry d.bank
  count : ∀ j, d.scheduled j = KeyTable.tally Packet.scheduled (d.queue j).entry

structure Inv (d : Dram n) : Prop where
  sane : d.Sane d.mode
  current : ∀ j, (d.queue j).Current

namespace Sane

variable {d d' : Dram n} {k j : DramQueue}

/-- A change of one queue and of the banks. -/
theorem put (h : d.Sane k) {q : PacketQueue n} (hqueue : d'.queue = Function.update d.queue j q)
    (table : q.Table) (active : ∀ i, (q.entry i).scheduled = true → j = k)
    (serving : Serving k (d'.queue k).entry d'.bank)
    (hsame : ∀ l, l ≠ j → d'.scheduled l = d.scheduled l)
    (hcount : d'.scheduled j = KeyTable.tally Packet.scheduled q.entry) : d'.Sane k := by
  refine ⟨?_, ?_, serving, ?_⟩
  · intro l
    by_cases hl : l = j
    · rw [hqueue, hl, Function.update_self]
      exact table
    · rw [hqueue, Function.update_of_ne hl]
      exact h.table l
  · intro l i hi
    by_cases hl : l = j
    · rw [hqueue, hl, Function.update_self] at hi
      rw [hl]
      exact active i hi
    · rw [hqueue, Function.update_of_ne hl] at hi
      exact h.active l i hi
  · intro l
    by_cases hl : l = j
    · rw [hqueue, hl, Function.update_self]
      exact hcount
    · rw [hqueue, Function.update_of_ne hl, hsame l hl]
      exact h.count l

/-- Only the queue that is served has scheduled requests. -/
theorem scheduled_eq_false (h : d.Sane k) (hj : j ≠ k) (i : Fin (n + 1)) :
    ((d.queue j).entry i).scheduled = false := by
  rw [Bool.eq_false_iff]
  intro hs
  exact hj (h.active j i hs)

end Sane

/-! ## Turning the bus around -/

/-- The blocks, the bus and the mode are as they were. -/
structure Same (d d' : Dram n) : Prop where
  address : ∀ k i, ((d'.queue k).entry i).address = ((d.queue k).entry i).address
  dbus : d'.dbusCycleAvailable = d.dbusCycleAvailable
  mode : d'.writeMode = d.writeMode

theorem Same.refl (d : Dram n) : Same d d := ⟨fun _ _ => rfl, rfl, rfl⟩

theorem Same.trans {d₁ d₂ d₃ : Dram n} (h : Same d₁ d₂) (h' : Same d₂ d₃) : Same d₁ d₃ :=
  ⟨fun k i => (h'.address k i).trans (h.address k i), h'.dbus.trans h.dbus,
    h'.mode.trans h.mode⟩

/-- One entry of one queue changed, its block kept. -/
theorem Same.of_update {d d' : Dram n} {k : DramQueue} {q : PacketQueue n}
    (hqueue : d'.queue = Function.update d.queue k q)
    (haddr : ∀ i, (q.entry i).address = ((d.queue k).entry i).address)
    (hdbus : d'.dbusCycleAvailable = d.dbusCycleAvailable)
    (hmode : d'.writeMode = d.writeMode) : Same d d' := by
  refine ⟨?_, hdbus, hmode⟩
  intro j i
  by_cases hj : j = k
  · rw [hqueue, hj, Function.update_self]
    exact haddr i
  · rw [hqueue, Function.update_of_ne hj]

section reset

variable {cfg : DramConfig} {now : Nat → Nat} {d : Dram n} {k : DramQueue}

variable (cfg now) in
/-- A request put back is one less of those counted for its queue. -/
theorem resetEntry_scheduled (h : d.Sane k) {i : Fin (n + 1)}
    (hi : ((d.queue k).entry i).scheduled = true) :
    (d.resetEntry cfg now k i).scheduled = Function.update d.scheduled k (d.scheduled k - 1) := by
  have hserves : (d.bankOf k i).Serves k i := h.serving.serves i hi
  simp only [resetEntry, hi, if_true, hserves.isWrite, hserves.isRead]
  cases k <;> rfl

theorem Sane.resetEntry (h : d.Sane k) (hnow : ∀ c, now c < UINT64_MAX) (i : Fin (n + 1)) :
    (d.resetEntry cfg now k i).Sane k ∧ Same d (d.resetEntry cfg now k i)
      ∧ ∀ l, (((d.resetEntry cfg now k i).queue k).entry l).scheduled = true →
        l ≠ i ∧ ((d.queue k).entry l).scheduled = true := by
  cases hi : ((d.queue k).entry i).scheduled with
  | false =>
    have hsame : d.resetEntry cfg now k i = d := by
      simp only [Dram.resetEntry, hi, Bool.false_eq_true, if_false]
    rw [hsame]
    refine ⟨h, Same.refl d, ?_⟩
    intro l hl
    refine ⟨?_, hl⟩
    rintro rfl
    rw [hi] at hl
    cases hl
  | true =>
    have hsched := resetEntry_scheduled cfg now h hi
    have hqueue : (d.resetEntry cfg now k i).queue = Function.update d.queue k
        ((d.queue k).setEntry i
          (((d.queue k).entry i).putBack (now ((d.queue k).entry i).cpu))) := by
      simp only [Dram.resetEntry, hi, if_true]
    have hback : (((d.queue k).entry i).putBack
        (now ((d.queue k).entry i).cpu)).scheduled = false := rfl
    have htally := KeyTable.tally_update Packet.scheduled (d.queue k).entry i
      (((d.queue k).entry i).putBack (now ((d.queue k).entry i).cpu))
    rw [hi, hback, ← h.count k] at htally
    refine ⟨h.put hqueue ?_ (fun _ _ => rfl) ?_ ?_ ?_, ?_, ?_⟩
    · refine (h.table k).set ?_ ((h.table k).keyed.alter _ rfl)
      exact ⟨((h.table k).sound i).cpu, fun _ => hnow _, fun hc => by cases hc⟩
    · rw [hqueue, Function.update_self, PacketQueue.setEntry_entry]
      simp only [Dram.resetEntry, hi, if_true]
      exact h.serving.release hi hback rfl
    · intro l hl
      rw [hsched, Function.update_of_ne hl]
    · rw [hsched, Function.update_self, PacketQueue.setEntry_entry]
      exact (Nat.eq_sub_of_add_eq (by simpa using htally)).symm
    · refine Same.of_update hqueue ?_ ?_ ?_
      · exact PacketQueue.setEntry_address rfl
      · simp only [Dram.resetEntry, hi, if_true]
      · simp only [Dram.resetEntry, hi, if_true]
    · intro l hl
      rw [hqueue, Function.update_self, PacketQueue.setEntry_entry] at hl
      have hli : l ≠ i := by
        rintro rfl
        rw [Function.update_self] at hl
        cases hl
      rw [Function.update_of_ne hli] at hl
      exact ⟨hli, hl⟩

/-- The loop of `reset_remain_requests`: no entry it has been at is scheduled. -/
theorem Sane.resetEntries (h : d.Sane k) (hnow : ∀ c, now c < UINT64_MAX)
    (l : List (Fin (n + 1))) :
    (l.foldl (Dram.resetEntry cfg now k) d).Sane k
      ∧ Same d (l.foldl (Dram.resetEntry cfg now k) d)
      ∧ ∀ i, (((l.foldl (Dram.resetEntry cfg now k) d).queue k).entry i).scheduled = true →
        i ∉ l ∧ ((d.queue k).entry i).scheduled = true := by
  induction l generalizing d with
  | nil => exact ⟨h, Same.refl d, fun i hi => ⟨List.not_mem_nil, hi⟩⟩
  | cons a l ih =>
    obtain ⟨hsane, hsame, hrest⟩ := h.resetEntry hnow a
    obtain ⟨hsane', hsame', hrest'⟩ := ih hsane
    refine ⟨hsane', hsame.trans hsame', ?_⟩
    intro i hi
    obtain ⟨hil, hi⟩ := hrest' i hi
    obtain ⟨hia, hi⟩ := hrest i hi
    exact ⟨List.not_mem_cons_of_ne_of_not_mem hia hil, hi⟩

/-- `update_schedule_cycle` and `update_process_cycle` leave all but the next entries. -/
theorem Sane.updateCycles (h : d.Sane k) : d.updateCycles.Sane k :=
  ⟨fun j => ⟨(h.table j).keyed, (h.table j).sound⟩, h.active, h.serving, h.count⟩

variable (cfg) in
/-- After `reset_remain_requests` no request is scheduled, none is counted, and either queue
may be served. -/
theorem resetRemainRequests_spec (h : d.Sane k) (hnow : ∀ c, now c < UINT64_MAX)
    (k' : DramQueue) :
    ∃ d', d.resetRemainRequests cfg now k = some d' ∧ d'.Sane k'
      ∧ (∀ j, (d'.queue j).Current) ∧ Same d d' := by
  obtain ⟨hsane, hsame, hrest⟩ := h.resetEntries hnow (List.finRange (n + 1))
  have hnone : ∀ i, ((((List.finRange (n + 1)).foldl (Dram.resetEntry cfg now k) d).queue
      k).entry i).scheduled = false := by
    intro i
    rw [Bool.eq_false_iff]
    intro hi
    exact (hrest i hi).1 (List.mem_finRange i)
  have hzero := (hsane.count k).trans (KeyTable.tally_eq_zero.2 hnone)
  unfold Dram.resetRemainRequests
  rw [if_neg (not_not_intro hzero)]
  refine ⟨_, rfl, ?_, fun j => PacketQueue.Current.update _, ⟨hsame.address, hsame.dbus, hsame.mode⟩⟩
  refine Sane.updateCycles ⟨hsane.table, ?_, ?_, hsane.count⟩
  · intro j i hi
    have hj := hsane.active j i hi
    rw [hj, hnone i] at hi
    cases hi
  · refine hsane.serving.none_scheduled hnone k' ?_
    intro i
    by_cases hk : k' = k
    · rw [hk]
      exact hnone i
    · exact hsane.scheduled_eq_false hk i

end reset

section steps

variable {cfg : DramConfig} {now : Nat → Nat} {d : Dram n} {k : DramQueue}

theorem Same.mode_eq {d d' : Dram n} (h : Same d d') : d'.mode = d.mode := by
  unfold Dram.mode
  rw [h.mode]

theorem other_eq {j k : DramQueue} (h : j ≠ k) : k.other = j := by
  cases k <;> cases j <;> simp_all [DramQueue.other]

variable (cfg) in
/-- The bus is turned around: the blocks are as they were. -/
theorem turn_spec (h : d.Inv) (hnow : ∀ c, now c < UINT64_MAX) (hk : d.mode ≠ k) :
    ∃ d', d.turn cfg now k = some d' ∧ d'.Inv ∧ d'.mode = k
      ∧ (∀ j i, ((d'.queue j).entry i).address = ((d.queue j).entry i).address)
      ∧ d'.dbusCycleAvailable = d.dbusCycleAvailable + DRAM_DBUS_TURN_AROUND_TIME := by
  have hsane : Sane { d with writeMode := decide (k = .WQ) } d.mode :=
    ⟨h.sane.table, h.sane.active, h.sane.serving, h.sane.count⟩
  obtain ⟨d', hreset, hsane', hcur, hsame⟩ := resetRemainRequests_spec cfg hsane hnow k
  have hmode : d'.mode = k := by
    unfold Dram.mode
    rw [hsame.mode]
    cases k <;> rfl
  unfold turn
  rw [other_eq hk, hreset, Option.map_some]
  refine ⟨_, rfl, ⟨?_, hcur⟩, hmode, hsame.address, by rw [hsame.dbus]⟩
  have hmode' : Dram.mode { d' with dbusCycleAvailable :=
    d'.dbusCycleAvailable + DRAM_DBUS_TURN_AROUND_TIME } = k := hmode
  rw [hmode']
  exact ⟨hsane'.table, hsane'.active, hsane'.serving, hsane'.count⟩

/-- The first part of `operate`: the mode may change, and then the bus is held up. -/
theorem switchMode_spec (h : d.Inv) (hnow : ∀ c, now c < UINT64_MAX) :
    ∃ d', d.switchMode cfg now = some d' ∧ d'.Inv ∧ (d'.mode = d.mode → d' = d)
      ∧ (∀ j i, ((d'.queue j).entry i).address = ((d.queue j).entry i).address)
      ∧ d.dbusCycleAvailable + (if d'.mode = d.mode then 0 else DRAM_DBUS_TURN_AROUND_TIME)
        = d'.dbusCycleAvailable := by
  unfold switchMode
  simp only
  split_ifs with hwrite hread
  · have hne : d.mode ≠ .WQ := by simp [mode, hwrite.1]
    obtain ⟨d', hturn, hinv, hmode, haddr, hdbus⟩ := turn_spec cfg h hnow hne
    refine ⟨d', hturn, hinv, fun hsame => absurd (hsame.symm.trans hmode) hne, haddr, ?_⟩
    rw [hmode, if_neg hne.symm, hdbus]
  · have hne : d.mode ≠ .RQ := by simp [mode, hread.1]
    obtain ⟨d', hturn, hinv, hmode, haddr, hdbus⟩ := turn_spec cfg h hnow hne
    refine ⟨d', hturn, hinv, fun hsame => absurd (hsame.symm.trans hmode) hne, haddr, ?_⟩
    rw [hmode, if_neg hne.symm, hdbus]
  · exact ⟨d, rfl, h, fun _ => rfl, fun _ _ => rfl, by rw [if_pos rfl, Nat.add_zero]⟩

/-- What `pick` finds is ready. -/
theorem pick_ready {i : Fin (n + 1)} {hit : Bool} (h : d.pick k = some (i, hit)) :
    d.ready k i = true := by
  unfold pick at h
  split at h
  · next j hj =>
    obtain ⟨rfl, rfl⟩ := Prod.mk.inj (Option.some.inj h)
    exact (Bool.and_eq_true _ _ ▸ (FirstMin.firstMin_spec hj).1.holds).1
  · next hnone =>
    obtain ⟨j, hj, hji⟩ := Option.map_eq_some_iff.1 h
    obtain ⟨rfl, rfl⟩ := Prod.mk.inj hji
    exact (FirstMin.firstMin_spec hj).1.holds

theorem Sane.start (h : d.Sane k) (hnow : ∀ c, now c + (cfg.tRP + cfg.tRCD + cfg.tCAS) < UINT64_MAX)
    {i : Fin (n + 1)} (hi : d.ready k i = true) (hit : Bool) :
    (d.start cfg now k i hit).Sane k ∧ Same d (d.start cfg now k i hit) := by
  simp only [ready, PacketQueue.waits, ne_eq, decide_not, Bool.and_eq_true, Bool.not_eq_eq_eq_not,
    Bool.not_true, decide_eq_false_iff_not] at hi
  obtain ⟨⟨haddr, hwait⟩, hidle⟩ := hi
  have hlat : latency cfg hit ≤ cfg.tRP + cfg.tRCD + cfg.tCAS := by
    unfold latency
    split <;> omega
  have hout : ∀ c, (((d.queue k).entry i).handOut c).scheduled = true := fun _ => rfl
  have htally := KeyTable.tally_update Packet.scheduled (d.queue k).entry i
    (((d.queue k).entry i).handOut (now ((d.queue k).entry i).cpu + latency cfg hit))
  rw [hwait, hout, ← h.count k] at htally
  refine ⟨h.put rfl ?_ (fun _ _ => rfl) ?_ ?_ ?_, Same.of_update rfl ?_ rfl rfl⟩
  · have htable := (h.table k).set (i := i)
      (e := ((d.queue k).entry i).handOut (now ((d.queue k).entry i).cpu + latency cfg hit))
      ⟨((h.table k).sound i).cpu, fun _ => ?_, fun _ => haddr⟩ ((h.table k).keyed.alter _ rfl)
    · exact ⟨htable.keyed, htable.sound⟩
    · exact lt_of_le_of_lt (Nat.add_le_add_left hlat _) (hnow _)
  · simp only [Dram.start, Function.update_self]
    exact h.serving.start hwait hidle rfl ⟨rfl, rfl, rfl, rfl⟩
  · intro l hl
    exact Function.update_of_ne hl _ _
  · have hcount := htally.symm
    simp only [if_true, Bool.false_eq_true, if_false, Nat.add_zero] at hcount
    exact (Function.update_self k _ _).trans hcount
  · exact PacketQueue.setEntry_address rfl

theorem schedule_spec (h : d.Inv)
    (hnow : ∀ c, now c + (cfg.tRP + cfg.tRCD + cfg.tCAS) < UINT64_MAX) :
    (d.schedule cfg now d.mode).Inv ∧ Same d (d.schedule cfg now d.mode) := by
  unfold schedule
  split
  · next i hit hpick =>
    obtain ⟨hsane, hsame⟩ := h.sane.start hnow (pick_ready hpick) hit
    refine ⟨⟨by rw [hsame.mode_eq]; exact hsane, ?_⟩, hsame⟩
    refine (Function.forall_update_iff d.queue (fun _ q => q.Current)).2 ⟨?_, fun j _ => h.current j⟩
    exact PacketQueue.Current.update _
  · exact ⟨h, Same.refl d⟩

theorem scheduleNext_spec (h : d.Inv)
    (hnow : ∀ c, now c + (cfg.tRP + cfg.tRCD + cfg.tCAS) < UINT64_MAX) :
    (d.scheduleNext cfg now d.mode).Inv ∧ Same d (d.scheduleNext cfg now d.mode) := by
  unfold scheduleNext
  split
  · exact schedule_spec h hnow
  · exact ⟨h, Same.refl d⟩

/-- The bus is busy: only the bank knows. -/
theorem Sane.congest (h : d.Sane k) (i : Fin (n + 1)) :
    (d.congest now k i).Sane k ∧ Same d (d.congest now k i) :=
  ⟨⟨h.table, h.active, h.serving.touch rfl rfl rfl rfl, h.count⟩, ⟨fun _ _ => rfl, rfl, rfl⟩⟩

/-- A scheduled request is taken out, and its bank is free. -/
theorem finish_spec (h : d.Inv) {i : Fin (n + 1)} (hk : d.mode = k)
    (hi : ((d.queue k).entry i).scheduled = true) :
    ∃ d', d.finish cfg now k i = some d' ∧ d'.Inv ∧ d'.mode = k
      ∧ (d'.queue k).entry = Function.update (d.queue k).entry i Packet.empty
      ∧ (∀ j, j ≠ k → d'.queue j = d.queue j)
      ∧ d'.dbusCycleAvailable = now ((d.queue k).entry i).cpu + cfg.DRAM_DBUS_RETURN_TIME := by
  subst hk
  have hsane := h.sane
  have htable := hsane.table d.mode
  have haddr := (htable.sound i).address hi
  have hocc := htable.keyed.pos haddr
  have hassert : ¬ (((d.queue d.mode).countRow (d.bankOf d.mode i).rowBufferHit).occupancy = 0
      ∧ ((d.queue d.mode).countRow (d.bankOf d.mode i).rowBufferHit).head
        = ((d.queue d.mode).countRow (d.bankOf d.mode i).rowBufferHit).tail) := by
    rintro ⟨hzero, -⟩
    rw [PacketQueue.countRow_occupancy] at hzero
    omega
  have hempty : Packet.empty.scheduled = false := rfl
  have htally := KeyTable.tally_update Packet.scheduled (d.queue d.mode).entry i Packet.empty
  rw [hi, hempty, ← hsane.count d.mode] at htally
  unfold finish PacketQueue.removeQueue
  simp only [if_neg hassert, Option.map_some]
  have hupdated : (((d.queue d.mode).countRow (d.bankOf d.mode i).rowBufferHit).release
      i).updateProcessCycle.entry = Function.update (d.queue d.mode).entry i Packet.empty := by
    simp only [PacketQueue.updateProcessCycle, PacketQueue.release_entry,
      PacketQueue.countRow_entry]
  have hreleased : (((d.queue d.mode).countRow (d.bankOf d.mode i).rowBufferHit).release
      i).updateProcessCycle.occupancy = (d.queue d.mode).occupancy - 1 :=
    congrArg (· - 1) (PacketQueue.countRow_occupancy _ _)
  refine ⟨_, rfl, ⟨hsane.put (k := d.mode) rfl ?_ (fun _ _ => rfl) ?_ ?_ ?_, ?_⟩, rfl, ?_, ?_, rfl⟩
  · refine ⟨?_, ?_⟩
    · rw [hupdated, hreleased]
      exact htable.keyed.clear haddr Packet.empty_address
    · rw [hupdated]
      exact (Function.forall_update_iff _ (fun _ (p : Packet) => p.Sound)).2
        ⟨Packet.Sound.empty, fun j _ => htable.sound j⟩
  · simp only [Function.update_self, hupdated]
    exact hsane.serving.release hi rfl rfl
  · intro l hl
    exact Function.update_of_ne hl _ _
  · rw [hupdated]
    have hcount := Nat.eq_sub_of_add_eq htally
    simp only [if_true, Bool.false_eq_true, if_false, Nat.add_zero] at hcount
    exact (Function.update_self d.mode _ _).trans hcount.symm
  · refine (Function.forall_update_iff d.queue (fun _ q => q.Current)).2
      ⟨?_, fun j _ => h.current j⟩
    exact ((h.current d.mode).countRow _).release (by rw [PacketQueue.countRow_entry]; exact hi)
  · simp only [Function.update_self, hupdated]
  · intro j hj
    exact Function.update_of_ne hj _ _

end steps

end Dram

end SandboxPredictor
