import SandboxPredictor.ChampSim.DramInvariant

/- Runs of the memory controller: requests come in and `operate` is called, in any
   order and at any clocks.

   No assertion fails, and every request that is let into a queue is served once, no
   more (`served_once`). The transfers never meet on the data bus, which is turned
   around between reads and writes (`bus_spacing`). A free bank goes to the oldest
   request that finds its row open, and else to the oldest there is
   (`schedule_first_ready`). -/
namespace SandboxPredictor

/-- How often a block is let into a queue, and served from it, in an event. -/
def DramEvent.adds (k : DramQueue) (x : Word) : DramEvent → Nat
  | added j a => if j = k ∧ a = x then 1 else 0
  | _ => 0

def DramEvent.serves (k : DramQueue) (x : Word) : DramEvent → Nat
  | served j _ p => if j = k ∧ p.address = x then 1 else 0
  | _ => 0

namespace Dram

variable {n : Nat}

/-- The requests for a block in a queue. -/
def held (k : DramQueue) (x : Word) (d : Dram n) : Nat :=
  KeyTable.tally (fun e => decide (e.address = x)) (d.queue k).entry

/-- How long the bus is held up on the way from one mode to another. -/
def turnAround (k k' : DramQueue) : Nat := if k = k' then 0 else DRAM_DBUS_TURN_AROUND_TIME

theorem turnAround_self (k : DramQueue) : turnAround k k = 0 := if_pos rfl

theorem turnAround_triangle (k l m : DramQueue) :
    turnAround k m ≤ turnAround k l + turnAround l m := by
  cases k <;> cases l <;> cases m <;> decide

/-- What a step does for the requests and for the bus. -/
structure StepSpec (cfg : DramConfig) (d : Dram n) (r : DramEvent × Dram n) : Prop where
  inv : r.2.Inv
  ok : r.1 ≠ .failed
  held : ∀ k x, x ≠ 0#64 → r.2.held k x + r.1.serves k x = d.held k x + r.1.adds k x
  bus : d.dbusCycleAvailable + turnAround d.mode r.2.mode ≤ r.2.dbusCycleAvailable
  transfer : ∀ k t p, r.1 = .served k t p →
    k = r.2.mode ∧ d.dbusCycleAvailable + turnAround d.mode k ≤ t
      ∧ t + cfg.DRAM_DBUS_RETURN_TIME ≤ r.2.dbusCycleAvailable

section steps

variable {cfg : DramConfig} {now : Nat → Nat} {d d' : Dram n} {k : DramQueue}

theorem held_congr (haddr : ∀ i, ((d'.queue k).entry i).address = ((d.queue k).entry i).address)
    (x : Word) : d'.held k x = d.held k x :=
  KeyTable.tally_congr (fun i => by rw [haddr])

/-- A step that lets nothing in and serves nothing. -/
theorem StepSpec.same {e : DramEvent} (h : d'.Inv) (hsame : Same d d') (hok : e ≠ .failed)
    (hserves : ∀ k x, e.serves k x = 0) (hadds : ∀ k x, e.adds k x = 0)
    (htransfer : ∀ k t p, e ≠ .served k t p) : StepSpec cfg d (e, d') := by
  refine ⟨h, hok, ?_, ?_, fun k t p he => absurd he (htransfer k t p)⟩
  · intro k x _
    rw [hserves, hadds]
    exact held_congr (hsame.address k) x
  · rw [hsame.mode_eq, turnAround_self, hsame.dbus]
    exact le_refl _

/-- What is processed is the scheduled request with the earliest cycle. -/
theorem reached_process (h : d.Inv) (hnow : ∀ c, now c < UINT64_MAX)
    (hreached : reached now (d.queue k) (d.queue k).nextProcessIndex
      (d.queue k).nextProcessCycle = true) :
    ∃ i, (d.queue k).nextProcessIndex = some i ∧ ((d.queue k).entry i).scheduled = true := by
  unfold reached at hreached
  cases hi : (d.queue k).nextProcessIndex with
  | none =>
    rw [hi] at hreached
    cases hreached
  | some i =>
    rw [hi] at hreached
    have hlt : (d.queue k).nextProcessCycle < UINT64_MAX :=
      lt_of_le_of_lt (of_decide_eq_true hreached) (hnow _)
    obtain ⟨hmin, -⟩ := (h.current k).process.isFirstMin hlt hi
    exact ⟨i, rfl, hmin.holds⟩

/-- The request that goes over the bus is the one taken out of its queue. -/
theorem StepSpec.finish (h : d.Inv) {i : Fin (n + 1)}
    (hi : ((d.queue d.mode).entry i).scheduled = true)
    (hbus : d.dbusCycleAvailable ≤ now ((d.queue d.mode).entry i).cpu) :
    ∃ d', d.finish cfg now d.mode i = some d' ∧ d'.mode = d.mode
      ∧ StepSpec cfg d (.served d.mode (now ((d.queue d.mode).entry i).cpu)
          (d.transferred cfg now d.mode i), d') := by
  obtain ⟨d', hfin, hinv, hmode, hentry, hother, hdbus⟩ := finish_spec h rfl hi
  refine ⟨d', hfin, hmode, hinv, by simp, ?_, ?_, ?_⟩
  · intro k x hx
    have haddr : (d.transferred cfg now d.mode i).address
        = ((d.queue d.mode).entry i).address := by
      unfold transferred
      split <;> rfl
    by_cases hk : d.mode = k
    · subst hk
      have hcount := KeyTable.tally_update (fun e => decide (e.address = x))
        (d.queue d.mode).entry i Packet.empty
      simp only [Packet.empty_address, hx.symm, decide_false, Bool.false_eq_true, if_false,
        decide_eq_true_eq] at hcount
      simp only [Dram.held, hentry, DramEvent.serves, DramEvent.adds, haddr, true_and]
      exact hcount
    · simp only [Dram.held, hother k (Ne.symm hk), DramEvent.serves, DramEvent.adds, hk, false_and,
        if_false]
  · rw [hmode, turnAround_self, hdbus]
    omega
  · rintro k t p heq
    cases heq
    rw [hmode, turnAround_self, hdbus]
    exact ⟨rfl, hbus, le_refl _⟩

variable (cfg) in
theorem processNext_spec (h : d.Inv) (hnow : ∀ c, now c < UINT64_MAX) :
    StepSpec cfg d (d.processNext cfg now d.mode) ∧ (d.processNext cfg now d.mode).2.mode = d.mode := by
  have hidle : StepSpec cfg d (.idle, d) :=
    StepSpec.same h (Same.refl d) (by simp) (fun _ _ => rfl) (fun _ _ => rfl) (by simp)
  unfold processNext
  split
  · next hreached =>
    obtain ⟨i, hindex, hi⟩ := reached_process h hnow hreached
    have hserves : (d.bankOf d.mode i).Serves d.mode i := h.sane.serving.serves i hi
    unfold process
    simp only [hindex, hserves.request, ne_eq, not_true_eq_false, if_false]
    split
    · split
      · next hbus =>
        obtain ⟨d', hfin, hmode, hspec⟩ := StepSpec.finish h hi hbus
        rw [hfin]
        exact ⟨hspec, hmode⟩
      · obtain ⟨hsane, hsame⟩ := h.sane.congest i
        refine ⟨StepSpec.same ⟨hsane, h.current⟩ hsame (by simp) (fun _ _ => rfl)
          (fun _ _ => rfl) (by simp), rfl⟩
    · exact ⟨hidle, rfl⟩
  · exact ⟨hidle, rfl⟩

theorem operate_eq {d₁ : Dram n} (h : d.switchMode cfg now = some d₁) :
    d.operate cfg now = (d₁.scheduleNext cfg now d₁.mode).processNext cfg now d₁.mode := by
  unfold operate
  rw [h]

theorem operate_spec (h : d.Inv)
    (hnow : ∀ c, now c + (cfg.tRP + cfg.tRCD + cfg.tCAS) < UINT64_MAX) :
    StepSpec cfg d (d.operate cfg now) := by
  have hclock : ∀ c, now c < UINT64_MAX := fun c =>
    lt_of_le_of_lt (Nat.le_add_right _ _) (hnow c)
  obtain ⟨d₁, hswitch, hinv₁, -, haddr₁, hdbus₁⟩ := switchMode_spec h hclock
  obtain ⟨hinv₂, hsame₂⟩ := scheduleNext_spec hinv₁ hnow
  have hmode₂ := hsame₂.mode_eq
  obtain ⟨hspec, hmode⟩ := processNext_spec cfg hinv₂ hclock
  rw [hmode₂] at hspec hmode
  rw [operate_eq hswitch]
  have hturn : turnAround d.mode d₁.mode = if d₁.mode = d.mode then 0
      else DRAM_DBUS_TURN_AROUND_TIME := by
    unfold turnAround
    simp only [eq_comm]
  have hbus := hspec.bus
  rw [hsame₂.dbus, hmode₂] at hbus
  refine ⟨hspec.inv, hspec.ok, ?_, ?_, ?_⟩
  · intro k x hx
    rw [← held_congr (haddr₁ k) x, ← held_congr (hsame₂.address k) x]
    exact hspec.held k x hx
  · rw [hmode, turnAround_self] at hbus
    rw [hmode, hturn]
    omega
  · intro k t p he
    obtain ⟨hk, hle, hret⟩ := hspec.transfer k t p he
    rw [hmode] at hk
    rw [hsame₂.dbus, hmode₂, hk, turnAround_self] at hle
    refine ⟨by rw [hmode]; exact hk, ?_, hret⟩
    rw [hk, hturn]
    omega

/-- A request let into a queue with room. -/
theorem add_spec (h : d.Inv) {p : Packet} (hp : p.Sendable)
    (hroom : (d.queue k).occupancy < n + 1) : StepSpec cfg d (d.add k p) := by
  unfold add
  split
  · exact StepSpec.same h (Same.refl d) (by simp) (fun _ _ => rfl) (fun _ _ => rfl) (by simp)
  · next hnew =>
    have htable := h.sane.table k
    obtain ⟨i, hi⟩ := htable.keyed.exists_free hroom
    have hfree := KeyTable.key_of_find hi
    have hwait : ((d.queue k).entry i).scheduled = false := by
      rw [Bool.eq_false_iff]
      intro hs
      exact (htable.sound i).address hs hfree
    have hfill : (d.queue k).fill p = { d.queue k with
        entry := Function.update (d.queue k).entry i p,
        occupancy := (d.queue k).occupancy + 1 } := by
      unfold PacketQueue.fill
      rw [hi]
    have hsched := KeyTable.tally_update Packet.scheduled (d.queue k).entry i p
    rw [hwait, hp.unscheduled, ← h.sane.count k] at hsched
    have htable' := htable.set hp.sound
      (htable.keyed.put hfree hp.address (KeyTable.find_eq_none.1 hnew))
    rw [hfill]
    refine ⟨⟨?_, ?_⟩, by simp, ?_, ?_, by simp⟩
    · refine h.sane.put rfl ⟨htable'.keyed, htable'.sound⟩ ?_ ?_ (fun _ _ => rfl) hsched.symm
      · intro j hj
        refine h.sane.active k j ?_
        by_cases hji : j = i
        · subst hji
          simp only [PacketQueue.updateScheduleCycle, Function.update_self] at hj
          rw [hp.unscheduled] at hj
          cases hj
        · simpa only [PacketQueue.updateScheduleCycle, Function.update_of_ne hji] using hj
      · by_cases hk : d.mode = k
        · subst hk
          simp only [Function.update_self]
          exact h.sane.serving.set hwait hp.unscheduled
        · simp only [Function.update_of_ne hk]
          exact h.sane.serving
    · refine (Function.forall_update_iff d.queue (fun _ q => q.Current)).2
        ⟨?_, fun j _ => h.current j⟩
      exact (h.current k).fill hwait hp.unscheduled _
    · intro j x hx
      by_cases hj : k = j
      · subst hj
        have hcount := KeyTable.tally_update (fun e => decide (e.address = x))
          (d.queue k).entry i p
        simp only [hfree, hx.symm, decide_false, Bool.false_eq_true, if_false,
          decide_eq_true_eq] at hcount
        simp only [Dram.held, DramEvent.serves, DramEvent.adds, Function.update_self, true_and]
        exact hcount
      · simp only [Dram.held, DramEvent.serves, DramEvent.adds, Function.update_of_ne (Ne.symm hj),
          hj, false_and, if_false]
    · exact (congrArg (d.dbusCycleAvailable + ·) (turnAround_self d.mode)).le

/-- The counters do not matter. -/
theorem countForward_inv (h : d.Inv) : d.countForward.Inv ∧ Same d d.countForward := by
  have hentry : ∀ j, (d.countForward.queue j).entry = (d.queue j).entry := by
    rintro (_ | _)
    · rfl
    · rfl
  refine ⟨⟨⟨?_, ?_, ?_, ?_⟩, ?_⟩, ⟨fun k i => by rw [hentry], rfl, rfl⟩⟩
  · rintro (_ | _)
    · exact ⟨(h.sane.table .RQ).keyed, (h.sane.table .RQ).sound⟩
    · exact ⟨(h.sane.table .WQ).keyed, (h.sane.table .WQ).sound⟩
  · intro j
    rw [hentry]
    exact h.sane.active j
  · rw [hentry]
    exact h.sane.serving
  · intro j
    rw [hentry]
    exact h.sane.count j
  · rintro (_ | _)
    · exact ⟨(h.current .RQ).schedule, (h.current .RQ).process⟩
    · exact ⟨(h.current .WQ).schedule, (h.current .WQ).process⟩

theorem step_spec (h : d.Inv) {op : DramOp} (hop : d.Allowed cfg op) :
    StepSpec cfg d (d.step cfg op) := by
  have hanswered : ∀ l, StepSpec cfg d (.answered l, d) := fun l =>
    StepSpec.same h (Same.refl d) (by simp) (fun _ _ => rfl) (fun _ _ => rfl) (by simp)
  cases op with
  | addRq warm p =>
    cases warm with
    | false => exact hanswered _
    | true =>
      change StepSpec cfg d (d.addRq true p)
      unfold addRq
      rw [if_pos rfl]
      split
      · exact StepSpec.same (countForward_inv h).1 (countForward_inv h).2 (by simp)
          (fun _ _ => rfl) (fun _ _ => rfl) (by simp)
      · exact add_spec h hop.1 hop.2
  | addWq warm p =>
    cases warm with
    | false =>
      exact StepSpec.same h (Same.refl d) (by simp) (fun _ _ => rfl) (fun _ _ => rfl) (by simp)
    | true => exact add_spec h hop.1 hop.2
  | operate now => exact operate_spec h hop

end steps

/-! ## Runs -/

variable (cfg : DramConfig)

theorem init_inv : (init n).Inv := by
  have hentry : ∀ k i, ((init n).queue k).entry i = Packet.empty := by
    rintro (_ | _) i
    · rfl
    · rfl
  have hsched : ∀ k i, (((init n).queue k).entry i).scheduled = false := by
    intro k i
    rw [hentry]
    rfl
  refine ⟨⟨?_, ?_, ⟨?_, ?_⟩, ?_⟩, ?_⟩
  · rintro (_ | _)
    · exact ⟨KeyTable.Keyed.empty rfl, fun _ => Packet.Sound.empty⟩
    · exact ⟨KeyTable.Keyed.empty rfl, fun _ => Packet.Sound.empty⟩
  · intro k i hi
    rw [hsched] at hi
    cases hi
  · intro i hi
    rw [hsched] at hi
    cases hi
  · intro b hb
    cases hb
  · intro k
    exact (KeyTable.tally_eq_zero.2 (hsched k)).symm
  · rintro (_ | _)
    · exact ⟨FirstMin.Cached.init (fun _ => rfl), FirstMin.Cached.init (fun _ => rfl)⟩
    · exact ⟨FirstMin.Cached.init (fun _ => rfl), FirstMin.Cached.init (fun _ => rfl)⟩

/-- The controller after the operations `tr`, and what came of them. -/
def runOps (n : Nat) (tr : List DramOp) : Dram n := Mealy.run (step cfg) (init n) tr

def events (n : Nat) (tr : List DramOp) : List DramEvent :=
  Mealy.outputs (step (n := n) cfg) (init n) tr

/-- A run whose every operation is one the callers make. -/
def RunAllowed (n : Nat) (tr : List DramOp) : Prop :=
  Mealy.Along (step cfg) (Allowed cfg) (init n) tr

variable {cfg} {tr : List DramOp}

theorem runOps_inv (h : RunAllowed cfg n tr) : (runOps cfg n tr).Inv := by
  refine Mealy.run_invariant_along ?_ init_inv h
  intro d op hI hC
  exact (step_spec hI hC).inv

/-- The books of one block. -/
theorem runOps_held (h : RunAllowed cfg n tr) (k : DramQueue) {x : Word} (hx : x ≠ 0#64) :
    (runOps cfg n tr).held k x + ((events cfg n tr).map (DramEvent.serves k x)).sum
      = ((events cfg n tr).map (DramEvent.adds k x)).sum := by
  have hzero : (init n).held k x = 0 := by
    refine KeyTable.tally_eq_zero.2 ?_
    intro i
    cases k <;> exact decide_eq_false hx.symm
  rw [← Nat.zero_add ((events cfg n tr).map (DramEvent.adds k x)).sum, ← hzero]
  refine Mealy.balance (I := Inv) ?_ init_inv h
  intro d op hI hC
  exact ⟨(step_spec hI hC).inv, (step_spec hI hC).held k x hx⟩

/-- **Every request is served once.** Over any run of requests and calls of `operate`, no
assertion fails; as often as a block was let into a queue, it was served from it, up to
one request that is still there; and what is scheduled is in the queue that is served,
each request at a bank of its own. -/
theorem served_once (h : RunAllowed cfg n tr) :
    (∀ e ∈ events cfg n tr, e ≠ .failed)
      ∧ (∀ k x, x ≠ 0#64 → (runOps cfg n tr).held k x ≤ 1
          ∧ (runOps cfg n tr).held k x + ((events cfg n tr).map (DramEvent.serves k x)).sum
            = ((events cfg n tr).map (DramEvent.adds k x)).sum)
      ∧ ∀ k i, (((runOps cfg n tr).queue k).entry i).scheduled = true →
          k = (runOps cfg n tr).mode ∧ ((runOps cfg n tr).bankOf k i).Serves k i := by
  have hinv := runOps_inv h
  refine ⟨?_, ?_, ?_⟩
  · refine Mealy.forall_outputs_along (I := Inv) ?_ init_inv h
    intro d op hI hC
    exact ⟨(step_spec hI hC).inv, (step_spec hI hC).ok⟩
  · intro k x hx
    exact ⟨(hinv.sane.table k).keyed.tally_le_one hx, runOps_held h k hx⟩
  · intro k i hi
    obtain rfl := hinv.sane.active k i hi
    exact ⟨rfl, hinv.sane.serving.serves i hi⟩

/-- The bus is free for the later of two transfers when the earlier is over. -/
def Spaced (cfg : DramConfig) (e e' : DramEvent) : Prop :=
  ∀ k t p k' t' p', e = .served k t p → e' = .served k' t' p' →
    t + cfg.DRAM_DBUS_RETURN_TIME + turnAround k k' ≤ t'

/-- **The data bus.** In any run the transfers do not overlap: between the cycles of two of
them lies the time that the data of the first takes, and, when one is a read and the other
a write, the time to turn the bus around. -/
theorem bus_spacing (h : RunAllowed cfg n tr) : (events cfg n tr).Pairwise (Spaced cfg) := by
  refine Mealy.pairwise_outputs (I := Inv)
    (J := fun e d => ∀ k t p, e = .served k t p →
      t + cfg.DRAM_DBUS_RETURN_TIME + turnAround k d.mode ≤ d.dbusCycleAvailable)
    ?_ ?_ ?_ ?_ init_inv h
  · intro d op hI hC
    exact (step_spec hI hC).inv
  · intro d op hI hC k t p he
    obtain ⟨hk, -, hret⟩ := (step_spec hI hC).transfer k t p he
    rw [hk, turnAround_self]
    exact hret
  · intro e d op hI hC hJ k t p he
    have hleft := hJ k t p he
    have hbus := (step_spec hI hC).bus
    have htri := turnAround_triangle k d.mode (d.step cfg op).2.mode
    omega
  · intro e d op hI hC hJ k t p k' t' p' he he'
    have hleft := hJ k t p he
    obtain ⟨-, hbus, -⟩ := (step_spec hI hC).transfer k' t' p' he'
    have htri := turnAround_triangle k d.mode k'
    omega

/-! ## The choice of the scheduler -/

/-- No scheduled request of the queue is for the bank of the entry. -/
def bankFree (d : Dram n) (k : DramQueue) (i : Fin (n + 1)) : Prop :=
  ∀ j, ((d.queue k).entry j).scheduled = true →
    dramGetBank ((d.queue k).entry j).address ≠ dramGetBank ((d.queue k).entry i).address

/-- The bank was left with the row of the entry open. -/
def rowOpen (d : Dram n) (k : DramQueue) (i : Fin (n + 1)) : Prop :=
  (d.bankOf k i).openRow = dramGetRow ((d.queue k).entry i).address

/-- A waiting request has come due. -/
def due (d : Dram n) (now : Nat → Nat) : Prop :=
  ∃ j, (d.queue d.mode).waits j = true ∧ ((d.queue d.mode).entry j).eventCycle ≤ now 0

/-- The oldest request with the property, and the first of those. -/
def isOldest (d : Dram n) (p : Fin (n + 1) → Bool) (i : Fin (n + 1)) : Prop :=
  FirstMin.IsFirstMin p (fun j => ((d.queue d.mode).entry j).eventCycle) i

section choice

variable {now : Nat → Nat} {d : Dram n} {i : Fin (n + 1)}

theorem ready_iff (h : d.Inv) :
    d.ready d.mode i = true ↔ (d.queue d.mode).waits i = true ∧ d.bankFree d.mode i := by
  unfold ready
  rw [Bool.and_eq_true, Bool.not_eq_true', Bool.eq_false_iff]
  refine and_congr_right ?_
  intro _
  constructor
  · intro hidle j hj hbank
    refine hidle ?_
    have hworking := (h.sane.serving.serves j hj).working
    rw [hbank] at hworking
    exact hworking
  · intro hfree hworking
    obtain ⟨j, hj, hbank⟩ := h.sane.serving.busy _ hworking
    exact hfree j hj hbank

theorem readyHit_iff (k : DramQueue) :
    d.readyHit k i = true ↔ d.ready k i = true ∧ d.rowOpen k i := by
  unfold readyHit rowOpen
  rw [Bool.and_eq_true, decide_eq_true_iff]

theorem oldest_eq_some (h : d.Inv) {p : Fin (n + 1) → Bool}
    (hp : ∀ j, p j = true → (d.queue d.mode).waits j = true) :
    d.oldest d.mode p = some i ↔ d.isOldest p i := by
  constructor
  · intro hi
    exact (FirstMin.firstMin_spec hi).1
  · intro hmin
    have haddr : ((d.queue d.mode).entry i).address ≠ 0#64 := by
      have hw := hp i hmin.holds
      simp only [PacketQueue.waits, Bool.and_eq_true, ne_eq, decide_eq_true_eq] at hw
      exact hw.1
    have hlt := ((h.sane.table d.mode).sound i).cycle haddr
    exact ((FirstMin.Cached.fresh p _ UINT64_MAX).eq_some hmin hlt).1

theorem oldest_eq_none (h : d.Inv) {p : Fin (n + 1) → Bool}
    (hp : ∀ j, p j = true → (d.queue d.mode).waits j = true) :
    d.oldest d.mode p = none ↔ ∀ j, p j = false := by
  constructor
  · intro hnone j
    rw [Bool.eq_false_iff]
    intro hj
    have haddr : ((d.queue d.mode).entry j).address ≠ 0#64 := by
      have hw := hp j hj
      simp only [PacketQueue.waits, Bool.and_eq_true, ne_eq, decide_eq_true_eq] at hw
      exact hw.1
    exact absurd (FirstMin.firstMin_eq_none.1 hnone j hj)
      (not_le.2 (((h.sane.table d.mode).sound j).cycle haddr))
  · intro hall
    refine FirstMin.firstMin_eq_none.2 ?_
    intro j hj
    rw [hall j] at hj
    cases hj

/-- A request is looked for as soon as the earliest that waits is due. -/
theorem reached_schedule (h : d.Inv) (hnow : ∀ c, now c < UINT64_MAX) :
    reached now (d.queue d.mode) (d.queue d.mode).nextScheduleIndex
        (d.queue d.mode).nextScheduleCycle = true
      ↔ d.due now := by
  have hcpu : ∀ j, (d.queue d.mode).waits j = true → ((d.queue d.mode).entry j).cpu = 0 := by
    intro j hj
    simp only [PacketQueue.waits, Bool.and_eq_true, ne_eq, decide_eq_true_eq] at hj
    exact Nat.lt_one_iff.1 (((h.sane.table d.mode).sound j).cpu hj.1)
  constructor
  · intro hreached
    unfold reached at hreached
    cases hi : (d.queue d.mode).nextScheduleIndex with
    | none =>
      rw [hi] at hreached
      cases hreached
    | some i =>
      rw [hi] at hreached
      have hdue := of_decide_eq_true hreached
      obtain ⟨hmin, hcost⟩ := (h.current d.mode).schedule.isFirstMin
        (lt_of_le_of_lt hdue (hnow _)) hi
      rw [← hcost, hcpu i hmin.holds] at hdue
      exact ⟨i, hmin.holds, hdue⟩
  · rintro ⟨j, hj, hdue⟩
    have hlt : (d.queue d.mode).nextScheduleCycle < UINT64_MAX := by
      rw [(h.current d.mode).schedule.least]
      exact lt_of_le_of_lt ((FirstMin.found _ _ _).le_cost j (List.mem_finRange j) hj)
        (lt_of_le_of_lt hdue (hnow 0))
    obtain ⟨i, hi⟩ := FirstMin.exists_of_lt_bound ((h.current d.mode).schedule.least ▸ hlt)
    have hindex := (h.current d.mode).schedule.index i hi
    obtain ⟨hmin, hcost⟩ := (h.current d.mode).schedule.isFirstMin hlt hindex
    unfold reached
    rw [hindex, Option.any_some, hcpu i hmin.holds, ← hcost]
    exact decide_eq_true (le_trans (hmin.least j hj) hdue)

/-- What becomes of the requests of the queue that is served, when a new one is to be
scheduled. -/
structure FirstReady (cfg : DramConfig) (now : Nat → Nat) (d : Dram n) : Prop where
  ready : ∀ i, d.ready d.mode i = true ↔ (d.queue d.mode).waits i = true ∧ d.bankFree d.mode i
  readyHit : ∀ i, d.readyHit d.mode i = true ↔ d.ready d.mode i = true ∧ d.rowOpen d.mode i
  early : ¬ d.due now → d.scheduleNext cfg now d.mode = d
  hit : d.due now → ∀ i, d.isOldest (d.readyHit d.mode) i →
    d.scheduleNext cfg now d.mode = d.start cfg now d.mode i true
  miss : d.due now → (∀ j, d.readyHit d.mode j = false) → ∀ i, d.isOldest (d.ready d.mode) i →
    d.scheduleNext cfg now d.mode = d.start cfg now d.mode i false
  busy : (∀ j, d.ready d.mode j = false) → d.scheduleNext cfg now d.mode = d

theorem Inv.firstReady (hinv : d.Inv) (hnow : ∀ c, now c < UINT64_MAX) :
    d.FirstReady cfg now := by
  have hready : ∀ j, d.ready d.mode j = true → (d.queue d.mode).waits j = true := fun j hj =>
    ((ready_iff hinv).1 hj).1
  have hhit : ∀ j, d.readyHit d.mode j = true → d.ready d.mode j = true := fun j hj =>
    ((readyHit_iff d.mode).1 hj).1
  have hschedule : d.due now → d.scheduleNext cfg now d.mode = d.schedule cfg now d.mode := by
    intro hdue
    unfold scheduleNext
    rw [if_pos ((reached_schedule hinv hnow).2 hdue)]
  have hearly : ¬ d.due now → d.scheduleNext cfg now d.mode = d := by
    intro hdue
    unfold scheduleNext
    rw [if_neg (fun hc => hdue ((reached_schedule hinv hnow).1 hc))]
  refine ⟨fun i => ready_iff hinv, fun i => readyHit_iff d.mode, hearly, ?_, ?_, ?_⟩
  · intro hdue i hi
    rw [hschedule hdue, schedule, pick,
      (oldest_eq_some hinv (fun j hj => hready j (hhit j hj))).2 hi]
  · intro hdue hnohit i hi
    rw [hschedule hdue, schedule, pick,
      (oldest_eq_none hinv (fun j hj => hready j (hhit j hj))).2 hnohit,
      (oldest_eq_some hinv hready).2 hi]
    rfl
  · intro hnone
    by_cases hdue : d.due now
    · have hnohit : ∀ j, d.readyHit d.mode j = false := by
        intro j
        rw [Bool.eq_false_iff]
        intro hj
        have hj' := hhit j hj
        rw [hnone j] at hj'
        cases hj'
      rw [hschedule hdue, schedule, pick,
        (oldest_eq_none hinv (fun j hj => hready j (hhit j hj))).2 hnohit,
        (oldest_eq_none hinv hready).2 hnone]
      rfl
    · exact hearly hdue

end choice

/-- How `operate` schedules: in the state `d₁` in which the mode is settled. -/
def OperatesFirstReady (cfg : DramConfig) (now : Nat → Nat) (d : Dram n) : Prop :=
  ∃ d₁, d.switchMode cfg now = some d₁
    ∧ (d₁.mode = d.mode → d₁ = d)
    ∧ (∀ k i, ((d₁.queue k).entry i).address = ((d.queue k).entry i).address)
    ∧ d₁.FirstReady cfg now
    ∧ d.operate cfg now = (d₁.scheduleNext cfg now d₁.mode).processNext cfg now d₁.mode

/-- **First ready, first served.** In every state that a run reaches `operate` first settles
which queue is served, and turns the bus around when that is another than before. In the
state it then has, it schedules: while no waiting request is due, nothing; once one is, a
free bank goes to the oldest waiting request that finds its row open and, when no row is
open, to the oldest waiting request whose bank is free. -/
theorem schedule_first_ready (h : RunAllowed cfg n tr) {now : Nat → Nat}
    (hnow : ∀ c, now c < UINT64_MAX) : (runOps cfg n tr).OperatesFirstReady cfg now := by
  obtain ⟨d₁, hswitch, hinv₁, hkept, haddr₁, -⟩ := switchMode_spec (runOps_inv h) hnow
  exact ⟨d₁, hswitch, hkept, haddr₁, hinv₁.firstReady hnow, operate_eq hswitch⟩

/-! ## A run -/

/-- The latencies at 4 GHz and 3200 MT/s. -/
def defaultConfig : DramConfig := ⟨50, 50, 50, 8⟩

/-- Four reads for one bank come and the first is served; of the others the second in age
finds its row open. -/
def fourReads : List DramOp :=
  [.addRq true { cpu := 0, address := 8#64, eventCycle := 5 },
    .addRq true { cpu := 0, address := 16#64, eventCycle := 7 },
    .addRq true { cpu := 0, address := 2056#64, eventCycle := 6 },
    .addRq true { cpu := 0, address := 1048#64, eventCycle := 8 },
    .operate fun _ => 10, .operate fun _ => 160]

/-- The other reads are served and two writes come. -/
def readsThenWrites : List DramOp :=
  [.operate fun _ => 211, .operate fun _ => 261, .operate fun _ => 311, .operate fun _ => 461,
    .operate fun _ => 462, .operate fun _ => 612,
    .addWq true { cpu := 0, address := 24#64, eventCycle := 600 },
    .addWq true { cpu := 0, address := 3080#64, eventCycle := 550 }]

/-- For which the bus is turned around: the older is served. -/
def writes : List DramOp := [.operate fun _ => 700, .operate fun _ => 860]

theorem operate_allowed (d : Dram n) {cycle : Nat} (h : cycle + 150 < UINT64_MAX) :
    d.Allowed defaultConfig (.operate fun _ => cycle) := fun _ => h

theorem fourReads_allowed : RunAllowed defaultConfig 63 fourReads :=
  ⟨⟨⟨by decide, by decide, rfl, by decide⟩, by decide⟩,
    ⟨⟨by decide, by decide, rfl, by decide⟩, by decide⟩,
    ⟨⟨by decide, by decide, rfl, by decide⟩, by decide⟩,
    ⟨⟨by decide, by decide, rfl, by decide⟩, by decide⟩,
    operate_allowed _ (by decide), operate_allowed _ (by decide), trivial⟩

theorem readsThenWrites_allowed :
    RunAllowed defaultConfig 63 (fourReads ++ readsThenWrites) :=
  (Mealy.along_append _ _).2 ⟨fourReads_allowed,
    operate_allowed _ (by decide), operate_allowed _ (by decide), operate_allowed _ (by decide),
    operate_allowed _ (by decide), operate_allowed _ (by decide), operate_allowed _ (by decide),
    ⟨⟨by decide, by decide, rfl, by decide⟩, by decide +kernel⟩,
    ⟨⟨by decide, by decide, rfl, by decide⟩, by decide +kernel⟩, trivial⟩

theorem writes_allowed : RunAllowed defaultConfig 63 (fourReads ++ readsThenWrites ++ writes) :=
  (Mealy.along_append _ _).2 ⟨readsThenWrites_allowed,
    operate_allowed _ (by decide), operate_allowed _ (by decide), trivial⟩

theorem served_once_instance :
    let tr := fourReads ++ readsThenWrites ++ writes
    (∀ e ∈ events defaultConfig 63 tr, e ≠ .failed)
      ∧ (∀ k x, x ≠ 0#64 → (runOps defaultConfig 63 tr).held k x ≤ 1
          ∧ (runOps defaultConfig 63 tr).held k x
              + ((events defaultConfig 63 tr).map (DramEvent.serves k x)).sum
            = ((events defaultConfig 63 tr).map (DramEvent.adds k x)).sum)
      ∧ ∀ k i, (((runOps defaultConfig 63 tr).queue k).entry i).scheduled = true →
          k = (runOps defaultConfig 63 tr).mode
            ∧ ((runOps defaultConfig 63 tr).bankOf k i).Serves k i :=
  served_once writes_allowed

/-- Three of the transfers: two reads and a write. -/
theorem bus_spacing_instance :
    let tr := fourReads ++ readsThenWrites ++ writes
    (events defaultConfig 63 tr).Pairwise (Spaced defaultConfig)
      ∧ ((events defaultConfig 63 tr).map (DramEvent.serves .RQ 8#64)).sum = 1
      ∧ ((events defaultConfig 63 tr).map (DramEvent.serves .RQ 16#64)).sum = 1
      ∧ ((events defaultConfig 63 tr).map (DramEvent.serves .WQ 3080#64)).sum = 1 :=
  ⟨bus_spacing writes_allowed, by decide +kernel, by decide +kernel, by decide +kernel⟩

/-- After the first read three wait, of which the oldest is at 2 and the one at 1 finds its
row open. After all reads the bus is turned around, and the older write is at 1. -/
theorem schedule_first_ready_instance :
    let d := runOps defaultConfig 63 fourReads
    let d' := runOps defaultConfig 63 (fourReads ++ readsThenWrites)
    d.OperatesFirstReady defaultConfig (fun _ => 211)
      ∧ (List.finRange 64).filter (d.queue .RQ).waits = [1, 2, 3]
      ∧ d.oldest .RQ (d.queue .RQ).waits = some 2
      ∧ d.pick .RQ = some (1, true)
      ∧ d'.OperatesFirstReady defaultConfig (fun _ => 700)
      ∧ d'.mode = .RQ
      ∧ (d'.switchMode defaultConfig (fun _ => 700)).map (fun d₁ => (d₁.mode, d₁.pick .WQ))
        = some (.WQ, some (1, false)) :=
  ⟨schedule_first_ready fourReads_allowed (fun _ => by decide), by decide +kernel,
    by decide +kernel, by decide +kernel,
    schedule_first_ready readsThenWrites_allowed (fun _ => by decide), by decide +kernel,
    by decide +kernel⟩

end Dram

end SandboxPredictor
