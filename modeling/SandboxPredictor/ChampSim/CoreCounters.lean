import SandboxPredictor.ChampSim.CoreRuns
import SandboxPredictor.Lib.KeyTable

/- What the counters of the core count.

   `update_rob` looks at no instruction while nothing is in flight, and every counter
   is taken down without a check. Both are sound because the counters are exact: each
   is, after any run, the number of instructions of the reorder buffer in the state
   that it stands for. -/
namespace SandboxPredictor

namespace OooModelInstr

/-- Executed, and counted by `inflight_reg_executions`. -/
def regInFlight (x : OooModelInstr) : Bool := !x.isMemory && x.executed = INFLIGHT

/-- All memory operations done, and counted by `inflight_mem_executions`. -/
def memInFlight (x : OooModelInstr) : Bool :=
  x.isMemory && x.numMemOps = 0 && x.executed ≠ COMPLETED

/-- Counted by `completed_executions`. -/
def completed (x : OooModelInstr) : Bool := x.executed = COMPLETED

/-- The number of memory operations left is what it can be. -/
structure Sized (x : OooModelInstr) : Prop where
  nonneg : 0 ≤ x.numMemOps
  other : x.isMemory = false → x.numMemOps = 0
  done : x.executed = COMPLETED → x.numMemOps = 0

end OooModelInstr

namespace Core

open OooModelInstr

variable {σ ρ : Type} {cfg : CoreConfig ρ} {now : Nat} {warm : Bool} {c c' : Core σ}
  {i : RobIndex}

/-- The counters are exact. -/
structure Counted (c : Core σ) : Prop where
  reg : c.inflightRegExecutions = KeyTable.tally regInFlight c.ROB.entry
  mem : c.inflightMemExecutions = KeyTable.tally memInFlight c.ROB.entry
  done : c.completedExecutions = KeyTable.tally completed c.ROB.entry
  sized : ∀ i, (c.ROB.entry i).Sized

/-- What the counters are about. -/
structure Tallies where
  inflightRegExecutions : Nat
  inflightMemExecutions : Nat
  completedExecutions : Nat
  work : RobIndex → Arch × Nat × Int

def tallies (c : Core σ) : Tallies :=
  ⟨c.inflightRegExecutions, c.inflightMemExecutions, c.completedExecutions,
    fun i => (c.ROB.entry i).work⟩

theorem blind_tallies : Blind (tallies (σ := σ)) := by
  refine ⟨?_, fun _ _ => rfl, fun _ _ _ => rfl⟩
  intro c i f hf
  have hwork : (fun k => ((c.ROB.modify i f).entry k).work) = fun k => (c.ROB.entry k).work := by
    funext k
    by_cases hk : k = i
    · subst hk
      simp [CoreBuffer.modify, hf]
    · simp [CoreBuffer.modify, hk]
  simp only [tallies, hwork]

theorem Counted.congr (h : c.Counted) (hc' : c'.tallies = c.tallies) : c'.Counted := by
  simp only [tallies, Tallies.mk.injEq] at hc'
  obtain ⟨hreg, hmem, hdone, hwork⟩ := hc'
  have hexec : ∀ k, (c'.ROB.entry k).executed = (c.ROB.entry k).executed :=
    fun k => congrArg (·.2.1) (congrFun hwork k)
  have hops : ∀ k, (c'.ROB.entry k).numMemOps = (c.ROB.entry k).numMemOps :=
    fun k => congrArg (·.2.2) (congrFun hwork k)
  have hmemory : ∀ k, (c'.ROB.entry k).isMemory = (c.ROB.entry k).isMemory :=
    fun k => congrArg (·.1.isMemory) (congrFun hwork k)
  refine ⟨?_, ?_, ?_, ?_⟩
  · rw [hreg, h.reg]
    apply (KeyTable.tally_congr ?_).symm
    intro k
    simp only [regInFlight, hexec, hmemory]
  · rw [hmem, h.mem]
    apply (KeyTable.tally_congr ?_).symm
    intro k
    simp only [memInFlight, hexec, hmemory, hops]
  · rw [hdone, h.done]
    apply (KeyTable.tally_congr ?_).symm
    intro k
    simp only [completed, hexec]
  · intro k
    have hk := h.sized k
    refine ⟨?_, ?_, ?_⟩
    · rw [hops]
      exact hk.nonneg
    · rw [hops, hmemory]
      exact hk.other
    · rw [hops, hexec]
      exact hk.done

/-- One instruction changes, and the counters with it. -/
theorem Counted.change {x : OooModelInstr} (h : c.Counted)
    (hentry : c'.ROB.entry = Function.update c.ROB.entry i x)
    (hreg : c'.inflightRegExecutions + (if (c.ROB.entry i).regInFlight then 1 else 0)
      = c.inflightRegExecutions + if x.regInFlight then 1 else 0)
    (hmem : c'.inflightMemExecutions + (if (c.ROB.entry i).memInFlight then 1 else 0)
      = c.inflightMemExecutions + if x.memInFlight then 1 else 0)
    (hdone : c'.completedExecutions + (if (c.ROB.entry i).completed then 1 else 0)
      = c.completedExecutions + if x.completed then 1 else 0)
    (hx : x.Sized) : c'.Counted := by
  have htally := fun P => KeyTable.tally_update P c.ROB.entry i x
  refine ⟨?_, ?_, ?_, ?_⟩
  · have := htally regInFlight
    rw [h.reg] at hreg
    rw [hentry]
    omega
  · have := htally memInFlight
    rw [h.mem] at hmem
    rw [hentry]
    omega
  · have := htally completed
    rw [h.done] at hdone
    rw [hentry]
    omega
  · intro k
    rw [hentry]
    by_cases hk : k = i
    · subst hk
      rw [Function.update_self]
      exact hx
    · rw [Function.update_of_ne hk]
      exact h.sized k

/-! ## Execution -/

theorem Counted.doExecution (h : c.Counted) (hready : c.ROB.board.Ready i) :
    (c.doExecution cfg now i).Counted := by
  obtain ⟨hm, -, hexec⟩ := hready
  have hm' : (c.ROB.entry i).isMemory = false := hm
  have hexec' : (c.ROB.entry i).executed = 0 := hexec
  apply h.change rfl
  · simp [Core.doExecution, regInFlight, addLatency, hm', hexec', INFLIGHT]
  · simp [Core.doExecution, memInFlight, addLatency, hm']
  · simp [Core.doExecution, completed, addLatency, hexec', INFLIGHT, COMPLETED]
  · have hsized := h.sized i
    exact ⟨hsized.nonneg, hsized.other, fun hdone => absurd hdone (show INFLIGHT ≠ COMPLETED by decide)⟩

theorem Counted.execLoop0 (k : Nat) (h : c.Counted) (hs : c.Sane) :
    (c.execLoop0 cfg now k).2.Counted := by
  induction k generalizing c with
  | zero => exact h
  | succ k ih =>
    unfold Core.execLoop0
    split
    · exact h
    · next i hi =>
      split
      · obtain ⟨hready, hq⟩ := hs.queued.pop hi fun _ => Iff.rfl
        apply ih
        · exact (h.doExecution hready).congr rfl
        · exact hs.doExecution hready hq
      · exact h

theorem Counted.execLoop1 (k : Nat) (h : c.Counted) (hs : c.Sane) :
    (c.execLoop1 cfg now k).Counted := by
  induction k generalizing c with
  | zero => exact h
  | succ k ih =>
    unfold Core.execLoop1
    split
    · exact h
    · next i hi =>
      split
      · obtain ⟨hready, hq⟩ := hs.queued.symm.pop hi fun _ => Iff.rfl
        apply ih
        · exact (h.doExecution hready).congr rfl
        · exact hs.doExecution hready hq.symm
      · exact h

theorem Counted.executeInstruction (h : c.Counted) (hs : c.Sane) :
    (c.executeInstruction cfg now).Counted := by
  unfold Core.executeInstruction
  split
  · exact h
  · exact (h.execLoop0 EXEC_WIDTH hs).execLoop1 _ (hs.execLoop0 EXEC_WIDTH)

/-- The counters of what is in flight have been taken down by one for the instruction `i`. -/
structure Leaving (c c₀ : Core σ) (i : RobIndex) : Prop where
  entry : c₀.ROB.entry = c.ROB.entry
  reg : c₀.inflightRegExecutions + (if (c.ROB.entry i).regInFlight then 1 else 0)
    = c.inflightRegExecutions
  mem : c₀.inflightMemExecutions + (if (c.ROB.entry i).memInFlight then 1 else 0)
    = c.inflightMemExecutions
  done : c₀.completedExecutions = c.completedExecutions

theorem Counted.complete {c₀ : Core σ} (h : c.Counted) (hdo : c₀.complete now i = some c')
    (hexec : (c.ROB.entry i).executed = INFLIGHT) (hops : (c.ROB.entry i).numMemOps = 0)
    (hleave : Leaving c c₀ i) : c'.Counted := by
  unfold Core.complete at hdo
  extract_lets x c₁ at hdo
  have hx : c₀.ROB.entry i = c.ROB.entry i := congrFun hleave.entry i
  have hc₁ : c₁.Counted := by
    apply h.change (i := i) (x := { c.ROB.entry i with executed := COMPLETED })
    · show Function.update c₀.ROB.entry i _ = _
      rw [hleave.entry]
    · simpa [regInFlight, INFLIGHT, COMPLETED] using hleave.reg
    · simpa [memInFlight] using hleave.mem
    · simp [completed, hexec, INFLIGHT, COMPLETED, c₁, hleave.done]
    · exact ⟨(h.sized i).nonneg, (h.sized i).other, fun _ => hops⟩
  obtain ⟨c₂, hrelease, rfl⟩ := Option.map_eq_some_iff.1 hdo
  have hc₂ : c₂.Counted := by
    split at hrelease
    · exact hc₁.congr (blind_tallies.regRAWRelease hrelease)
    · obtain rfl := Option.some.inj hrelease
      exact hc₁
  split
  · exact hc₂.congr rfl
  · exact hc₂

theorem Counted.completeExecution (h : c.Counted) (hdo : c.completeExecution now i = some c') :
    c'.Counted := by
  unfold Core.completeExecution at hdo
  extract_lets x at hdo
  have hsized : x.Sized := h.sized i
  split_ifs at hdo with hm hgo hops hgo
  · have hreg : x.regInFlight = true := by simp [regInFlight, hm, hgo.1]
    have hpos : 0 < KeyTable.tally regInFlight c.ROB.entry := KeyTable.tally_pos hreg
    apply h.complete hdo hgo.1 (hsized.other hm) ⟨rfl, ?_, ?_, rfl⟩
    · show c.inflightRegExecutions - 1 + (if x.regInFlight then 1 else 0) = _
      rw [if_pos hreg, h.reg]
      omega
    · have hmem : x.memInFlight = false := by simp [memInFlight, hm]
      show c.inflightMemExecutions + (if x.memInFlight then 1 else 0) = _
      rw [hmem]
      rfl
  · obtain rfl := Option.some.inj hdo
    exact h
  · have hmem : x.memInFlight = true := by
      simp [memInFlight, hm, hops, hgo.1, INFLIGHT, COMPLETED]
    have hpos : 0 < KeyTable.tally memInFlight c.ROB.entry := KeyTable.tally_pos hmem
    apply h.complete hdo hgo.1 hops ⟨rfl, ?_, ?_, rfl⟩
    · have hreg : x.regInFlight = false := by simp [regInFlight, hm]
      show c.inflightRegExecutions + (if x.regInFlight then 1 else 0) = _
      rw [hreg]
      rfl
    · show c.inflightMemExecutions - 1 + (if x.memInFlight then 1 else 0) = _
      rw [if_pos hmem, h.mem]
      omega
  · obtain rfl := Option.some.inj hdo
    exact h
  · obtain rfl := Option.some.inj hdo
    exact h

theorem Counted.foldlM_completeExecution {l : List RobIndex} (h : c.Counted)
    (hdo : l.foldlM (Core.completeExecution now) c = some c') : c'.Counted := by
  induction l generalizing c with
  | nil =>
    obtain rfl := Option.some.inj hdo
    exact h
  | cons i l ih =>
    rw [List.foldlM_cons] at hdo
    obtain ⟨c₁, hone, hrest⟩ := Option.bind_eq_some_iff.1 hdo
    exact ih (h.completeExecution hone) hrest

theorem Counted.updateRob (h : c.Counted) (hdo : c.updateRob now = some c') : c'.Counted := by
  unfold Core.updateRob at hdo
  split at hdo
  · exact h.foldlM_completeExecution hdo
  · obtain rfl := Option.some.inj hdo
    exact h

/-! ## Memory instructions -/

theorem Counted.doMemoryScheduling (h : c.Counted) (i : RobIndex) :
    (c.doMemoryScheduling i).Counted := by
  unfold Core.doMemoryScheduling
  extract_lets x
  split
  · next hgo =>
    have hm : (c.ROB.entry i).isMemory = true := hgo.1
    have hsized := h.sized i
    have hkeep : ∀ e : Nat, (if x.executed = 0 then INFLIGHT else x.executed) = e →
        (e = COMPLETED ↔ (c.ROB.entry i).executed = COMPLETED) := by
      rintro e rfl
      split
      · next h0 =>
        have h0' : (c.ROB.entry i).executed = 0 := h0
        rw [h0']
        exact iff_of_false (by decide) (by decide)
      · exact Iff.rfl
    have hkeep := hkeep _ rfl
    apply h.change rfl
    · simp [regInFlight, hm]
    · simp [memInFlight, hkeep]
    · simp [completed, hkeep]
    · exact ⟨hsized.nonneg, hsized.other, fun hdone => hsized.done (hkeep.1 hdone)⟩
  · exact h

theorem Counted.memOpDone {cycle : Nat} (h : c.Counted) (hdo : c.memOpDone i cycle = some c') :
    c'.Counted := by
  unfold Core.memOpDone at hdo
  extract_lets numMemOps at hdo
  split at hdo
  · cases hdo
  · next hpos =>
    obtain rfl := Option.some.inj hdo
    have hsized := h.sized i
    have hne : (c.ROB.entry i).numMemOps ≠ 0 := by omega
    have hm : (c.ROB.entry i).isMemory = true := by
      by_contra hnot
      exact hne (hsized.other (Bool.eq_false_iff.2 hnot))
    have hexec : (c.ROB.entry i).executed ≠ COMPLETED := fun hdone => hne (hsized.done hdone)
    apply h.change rfl
    · simp [regInFlight, hm]
    · by_cases h0 : numMemOps = 0
      · simp [memInFlight, hm, hne, h0, hexec]
      · simp [memInFlight, hm, hne, h0]
    · simp [completed]
    · refine ⟨?_, ?_, fun hdone => absurd hdone hexec⟩
      · show 0 ≤ numMemOps
        omega
      · intro hm'
        exact absurd (hm.symm.trans hm') (by decide)

/-! ## Reading and fetching -/

section front

variable [Predictor σ ρ]

theorem tallies_predictBranch (k : Fin (11 + 1)) (x : OooModelInstr) (c : Core σ) :
    (c.predictBranch cfg warm k x).2.tallies = c.tallies := by
  unfold Core.predictBranch
  dsimp only
  split_ifs
  · rfl
  · rfl
  · rfl

theorem tallies_readInstr {res : Bool × Core σ} (hread : c.readInstr cfg warm now = some res) :
    res.2.tallies = c.tallies := by
  unfold Core.readInstr at hread
  extract_lets traceReadInstr current x at hread
  obtain ⟨buffer, -, rfl⟩ := Option.map_eq_some_iff.1 hread
  unfold Core.enter
  extract_lets c₁
  split
  · exact (tallies_predictBranch _ _ c₁).trans rfl
  · rfl

theorem tallies_readLoop {reads : Nat} (hread : c.readLoop cfg warm now reads = some c') :
    c'.tallies = c.tallies := by
  induction reads generalizing c with
  | zero =>
    obtain rfl := Option.some.inj hread
    rfl
  | succ reads ih =>
    obtain ⟨res, hone, hrest⟩ := Option.bind_eq_some_iff.1 hread
    have hres := tallies_readInstr hone
    dsimp only at hrest
    split at hrest
    · obtain rfl := Option.some.inj hrest
      exact hres
    · exact (ih hrest).trans hres

theorem tallies_readFromTrace (hread : c.readFromTrace cfg warm now = some c') :
    c'.tallies = c.tallies := by
  unfold Core.readFromTrace at hread
  split at hread
  · exact tallies_readLoop hread
  · obtain rfl := Option.some.inj hread
    rfl

end front

theorem tallies_sendLoop {k : Nat} (hsend : c.sendLoop now k = some c') :
    c'.tallies = c.tallies := by
  induction k generalizing c with
  | zero =>
    obtain rfl := Option.some.inj hsend
    rfl
  | succ k ih =>
    unfold Core.sendLoop at hsend
    extract_lets x at hsend
    split_ifs at hsend
    · obtain rfl := Option.some.inj hsend
      rfl
    · obtain ⟨buffer, -, hrest⟩ := Option.bind_eq_some_iff.1 hsend
      exact (ih hrest).trans rfl
    · obtain rfl := Option.some.inj hsend
      rfl
    · exact ih hsend

theorem tallies_fetchInstruction {itlb l1i : Fin (11 + 1) → Bool}
    (hfetch : c.fetchInstruction now itlb l1i = some c') : c'.tallies = c.tallies := by
  unfold Core.fetchInstruction at hfetch
  extract_lets c₁ places at hfetch
  have h₁ : c₁.tallies = c.tallies := by
    unfold c₁
    split
    · rfl
    · rfl
  split at hfetch
  · obtain rfl := Option.some.inj hfetch
    exact h₁
  · exact (tallies_sendLoop hfetch).trans h₁

/-! ## Dispatch and retirement -/

section ends

variable [Predictor σ ρ] {p : σ} {done : List Arch}

theorem Counted.dispatch (now : Nat) (h : c.Counted) (hs : c.Sane) (ho : InOrder cfg p done c)
    (hroom : c.ROB.occupancy < 352) :
    ({ c with
      ROB := c.ROB.append now (c.DECODE_BUFFER.entry c.DECODE_BUFFER.head)
      DECODE_BUFFER := c.DECODE_BUFFER.drop } : Core σ).Counted := by
  have hage := ho.age_tail hroom
  have hout : ¬ c.ROB.board.In c.ROB.tail := fun hin => lt_irrefl _ (hin.trans_eq hage.symm)
  have hblank : (c.ROB.entry c.ROB.tail).executed = 0 :=
    congrArg Wait.executed (hs.board.blank _ hout).1
  have hempty : (c.ROB.entry c.ROB.tail).isMemory = false := by
    obtain ⟨R, D, F, hflow⟩ := ho.flow
    have hocc : c.ROB.occupancy = R.length := hflow.rob.occupancy
    exact congrArg Arch.isMemory (hflow.rob.ring.tail_blank (hocc ▸ hroom))
  have hx := hs.decode c.DECODE_BUFFER.head
  generalize c.DECODE_BUFFER.entry c.DECODE_BUFFER.head = x at hx
  have hexec : x.executed = 0 := congrArg Wait.executed hx.wait
  apply h.change rfl
  · simp [regInFlight, hblank, hexec, INFLIGHT]
  · cases hm : x.isMemory with
    | true => simp [memInFlight, hempty, hx.isMemory_iff.1 hm]
    | false => simp [memInFlight, hempty]
  · simp [completed, hblank, hexec, COMPLETED]
  · refine ⟨hx.numMemOps, ?_, ?_⟩
    · intro hm
      have hm' : x.isMemory = false := hm
      by_contra hne
      exact Bool.false_ne_true (hm'.symm.trans (hx.isMemory_iff.2 hne))
    · intro hdone
      have hdone' : x.executed = COMPLETED := hdone
      rw [hexec] at hdone'
      exact absurd hdone' (by decide)

theorem Counted.dispatchLoop {k count : Nat} (h : c.Counted) (hs : c.Sane)
    (ho : InOrder cfg p done c) (hdo : c.dispatchLoop now warm k count = some c') :
    c'.Counted := by
  induction k generalizing c count with
  | zero =>
    obtain rfl := Option.some.inj hdo
    exact h
  | succ k ih =>
    unfold Core.dispatchLoop at hdo
    extract_lets x at hdo
    split at hdo
    · obtain rfl := Option.some.inj hdo
      exact h
    · next hip =>
      split at hdo
      · next hready =>
        have hroom : c.ROB.occupancy < 352 := by
          rcases hready with ⟨-, hroom⟩ | ⟨-, -, hroom⟩
          · exact hroom
          · exact hroom
        obtain ⟨hadd, hmoved⟩ := ho.dispatch now hip hroom
        have hcounted := h.dispatch now hs ho hroom
        rw [hadd, Option.bind_some] at hdo
        dsimp only at hdo
        split at hdo
        · obtain rfl := Option.some.inj hdo
          exact hcounted
        · exact ih hcounted (hs.dispatch now ho hroom) hmoved hdo
      · obtain rfl := Option.some.inj hdo
        exact h

theorem Counted.decodeAndDispatch (h : c.Counted) (hs : c.Sane) (ho : InOrder cfg p done c)
    (hdo : c.decodeAndDispatch now cfg warm = some c') : c'.Counted := by
  obtain ⟨c₁, hloop, rfl⟩ := Option.map_eq_some_iff.1 hdo
  exact (h.dispatchLoop hs ho hloop).congr rfl

theorem Counted.retire (h : c.Counted) (hdone : (c.ROB.entry c.ROB.head).executed = COMPLETED) :
    ({ c with
      ROB := c.ROB.drop, completedExecutions := c.completedExecutions - 1,
      numRetired := c.numRetired + 1 } : Core σ).Counted := by
  have hcompleted : (c.ROB.entry c.ROB.head).completed = true := by simp [completed, hdone]
  have hpos : 0 < KeyTable.tally completed c.ROB.entry := KeyTable.tally_pos hcompleted
  apply h.change (CoreBuffer.entry_drop c.ROB)
  · simp [regInFlight, hdone, OooModelInstr.empty, INFLIGHT, COMPLETED]
  · simp [memInFlight, hdone, OooModelInstr.empty]
  · have hempty : OooModelInstr.empty.completed = false := rfl
    show c.completedExecutions - 1 + _ = _
    rw [hcompleted, hempty, h.done]
    simp only [if_true, Bool.false_eq_true, if_false]
    omega
  · exact ⟨le_refl _, fun _ => rfl, fun _ => rfl⟩

theorem Counted.retireLoop {room : Nat → Bool} (k : Nat) (h : c.Counted) :
    (c.retireLoop room k).2.Counted := by
  induction k generalizing c with
  | zero => exact h
  | succ k ih =>
    unfold Core.retireLoop
    extract_lets x
    split_ifs with hip hexec hstore
    · exact h
    · exact h
    · exact h
    · exact ih (h.retire (not_not.1 hexec))

end ends

/-! ## Every run -/

section run

variable [Predictor σ ρ] {p : σ} {done : List Arch}

theorem Counted.still {o : Option (Core σ)} (h : c.Counted) (ho : ∀ c', o = some c' → c'.Counted) :
    (step.still c o).2.Counted := by
  cases o with
  | none => exact h
  | some c' => exact ho c' rfl

theorem Counted.step (h : c.Counted) (hs : c.Sane) (ho : InOrder cfg p done c) (op : CoreOp) :
    (c.step cfg op).2.Counted := by
  cases op with
  | readFromTrace warm now => exact h.still fun c' hc' => h.congr (tallies_readFromTrace hc')
  | fetchInstruction itlb l1i now =>
    exact h.still fun c' hc' => h.congr (tallies_fetchInstruction hc')
  | completeInstrFetch isItTlb ip => exact h.congr rfl
  | decodeAndDispatch warm now => exact h.still fun c' hc' => h.decodeAndDispatch hs ho hc'
  | scheduleInstruction now =>
    exact h.still fun c' hc' => h.congr (blind_tallies.scheduleInstruction hc')
  | executeInstruction now => exact h.executeInstruction hs
  | updateRob now => exact h.still fun c' hc' => h.updateRob hc'
  | doMemoryScheduling i => exact h.doMemoryScheduling i
  | memOpDone i cycle => exact h.still fun c' hc' => h.memOpDone hc'
  | setEventCycle i cycle => exact h.congr (blind_tallies.modify c i _ (by intro _; rfl))
  | retireRob room => exact h.retireLoop RETIRE_WIDTH

theorem counted_init (p : σ) : ({ predictor := p } : Core σ).Counted := by
  refine ⟨?_, ?_, ?_, fun k => ⟨le_refl _, fun _ => rfl, fun _ => rfl⟩⟩
  · exact (KeyTable.tally_eq_zero.2 fun _ => rfl).symm
  · exact (KeyTable.tally_eq_zero.2 fun _ => rfl).symm
  · exact (KeyTable.tally_eq_zero.2 fun _ => rfl).symm

theorem Counted.run (h : c.Counted) (hs : c.Sane) (ho : InOrder cfg p done c)
    (ops : List CoreOp) : (Mealy.run (Core.step cfg) c ops).Counted := by
  induction ops generalizing done c with
  | nil => exact h
  | cons op ops ih => exact ih (h.step hs ho op) (hs.step ho op) (ho.step op)

/-- An instruction that is not in flight is left as it is. -/
theorem completeExecution_of_idle (hreg : (c.ROB.entry i).regInFlight = false)
    (hmem : (c.ROB.entry i).memInFlight = false) : c.completeExecution now i = some c := by
  unfold completeExecution
  extract_lets x
  split_ifs with hm hgo hops hgo
  · have hreg' : x.regInFlight = true := by simp [regInFlight, hm, hgo.1]
    exact absurd (hreg'.symm.trans hreg) (by decide)
  · rfl
  · have hmem' : x.memInFlight = true := by
      simp [memInFlight, hm, hops, hgo.1, INFLIGHT, COMPLETED]
    exact absurd (hmem'.symm.trans hmem) (by decide)
  · rfl
  · rfl

theorem foldlM_completeExecution_of_idle (l : List RobIndex)
    (hreg : ∀ i, (c.ROB.entry i).regInFlight = false)
    (hmem : ∀ i, (c.ROB.entry i).memInFlight = false) :
    l.foldlM (completeExecution now) c = some c := by
  induction l with
  | nil => rfl
  | cons i l ih =>
    rw [List.foldlM_cons, completeExecution_of_idle (hreg i) (hmem i)]
    exact ih

theorem Sane.numRegDependent (h : c.Sane) (i : RobIndex) :
    (c.ROB.entry i).numRegDependent = (c.ROB.board.pending i).card := by
  have hcount := h.settled.count i
  rw [Nat.cast_zero, Int.add_zero] at hcount
  exact hcount

/-- **The counters are exact**: of an instruction, how many of the results it waits for are
not there yet; of the core, how many instructions are in flight or complete. So is the
short cut of `update_rob`: in every run of the core it does what looking at every
instruction would do. -/
theorem counters_exact (cfg : CoreConfig ρ) (p : σ) (ops : List CoreOp) (now : Nat) :
    let c := after cfg p ops
    c.Counted ∧
      (∀ i, (c.ROB.entry i).numRegDependent = (c.ROB.board.pending i).card) ∧
      c.updateRob now = (Ring.scan c.ROB.head c.ROB.tail).foldlM (completeExecution now) c := by
  intro c
  have h : c.Counted := (counted_init p).run (sane_init p) (inOrder_init cfg p) ops
  refine ⟨h, (sane_after cfg p ops).numRegDependent, ?_⟩
  unfold updateRob
  split
  · rfl
  · next hidle =>
    have hreg : c.inflightRegExecutions = 0 := by omega
    have hmem : c.inflightMemExecutions = 0 := by omega
    symm
    apply foldlM_completeExecution_of_idle
    · exact KeyTable.tally_eq_zero.1 (h.reg.symm.trans hreg)
    · exact KeyTable.tally_eq_zero.1 (h.mem.symm.trans hmem)

end run

end Core

end SandboxPredictor
