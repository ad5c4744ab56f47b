import SandboxPredictor.Perceptron

/- The perceptron predictor of `perceptron.bpred`, on one CPU, and the predictor
   `myperceptron.bpred` builds from class `Perceptron`.

   The two keep the same weights in different places, train in a different order
   and decide differently when to train. `Corresponds` is what is equal between
   steps; `Sim` adds what keeps it so: the weights are in range, and the
   `Perceptron` is settled. One step from related states predicts the same and
   leads to related states (`sim_step`). -/
namespace SandboxPredictor
open ShiftRegister

/-- `perceptron_state`. The pointer `perc` is the index of the row it points to. -/
structure PerceptronState where
  dummyCounter : Nat
  prediction : Bool
  output : Int
  history : Word
  perc : Nat
  deriving DecidableEq, Repr

/-- The globals of `perceptron.bpred` for one CPU. `u` is the entry of the buffer the
pointer of that name points to (it is not read before a prediction has set it). -/
structure ReferencePerceptron where
  perceptrons : Nat → Nat → Int
  perceptronStateBuf : Nat → PerceptronState
  perceptronStateBufCtr : Nat
  specGlobalHistory : Word
  globalHistory : Word
  u : Nat

namespace ReferencePerceptron

def perceptronHistory : Nat := 7
def numPerceptrons : Nat := 512
def perceptronBits : Nat := 8
def maxWeight : Int := 2 ^ (perceptronBits - 1) - 1
def minWeight : Int := -(maxWeight + 1)

/-- `(int) (1.93 * PERCEPTRON_HISTORY + 14)`. -/
def theta : Int := (193 * perceptronHistory + 1400) / 100

def numUpdateEntries : Nat := 100

/-- `initialize_branch_predictor`, on whatever the globals held before. -/
def initializeBranchPredictor (s : ReferencePerceptron) : ReferencePerceptron :=
  { s with
    specGlobalHistory := 0
    globalHistory := 0
    perceptronStateBufCtr := 0
    perceptrons := fun index i =>
      if index < numPerceptrons ∧ i ≤ perceptronHistory then 0 else s.perceptrons index i }

/-- The test of a history against `mask`, which is `1 << i` at step `i` of a loop. -/
def maskBit (history : Word) (i : Nat) : Bool := history &&& (1#64 <<< i) != 0#64

theorem maskBit_eq (history : Word) (i : Nat) : maskBit history i = bitAt history i := by
  simp only [maskBit]
  rw [bitAt_eq, ← BitVec.twoPow_eq, BitVec.and_twoPow]
  cases h : history.getLsbD i with
  | false => rfl
  | true =>
    have hi : i < 64 := BitVec.lt_of_getLsbD h
    have hbit : (BitVec.twoPow 64 i).getLsbD i = true := by simp [hi]
    have hne : BitVec.twoPow 64 i ≠ 0#64 := by
      intro h0
      rw [h0] at hbit
      simp at hbit
    simpa using hne

/-- The output of row `index` for a history: the bias is weight 0. -/
def output (s : ReferencePerceptron) (index : Nat) (history : Word) : Int :=
  (List.range perceptronHistory).foldl
    (fun output i => if maskBit history i then output + s.perceptrons index (i + 1)
      else output + -s.perceptrons index (i + 1))
    (s.perceptrons index 0)

def predictBranch (s : ReferencePerceptron) (ip : Word) : Bool × ReferencePerceptron :=
  let u := s.perceptronStateBufCtr
  let ctr := s.perceptronStateBufCtr + 1
  let ctr := if ctr ≥ numUpdateEntries then 0 else ctr
  let index := ip.toNat % numPerceptrons
  let output := s.output index s.specGlobalHistory
  let prediction := decide (output ≥ 0)
  (prediction,
    { s with
      u := u
      perceptronStateBufCtr := ctr
      perceptronStateBuf := Function.update s.perceptronStateBuf u
        { dummyCounter := if prediction then 3 else 0
          prediction := prediction
          output := output
          history := s.specGlobalHistory
          perc := index }
      specGlobalHistory := shiftIn s.specGlobalHistory prediction })

/-- The training of row `perc`: the bias is clamped at both ends, a weight at the end it
moves towards. -/
def adjust (s : ReferencePerceptron) (perc : Nat) (history : Word) (taken : Bool) :
    ReferencePerceptron :=
  let w := s.perceptrons perc
  { s with
    perceptrons := Function.update s.perceptrons perc (fun i =>
      if i = 0 then Saturating.clamp minWeight maxWeight (if taken then w 0 + 1 else w 0 - 1)
      else if i ≤ perceptronHistory then
        Saturating.clampStep minWeight maxWeight (maskBit history (i - 1) == taken) (w i)
      else w i) }

/-- On weights in range, `adjust` moves saturating counters. -/
theorem adjust_perceptrons (s : ReferencePerceptron) (perc : Nat) (history : Word) (taken : Bool)
    {i : Nat} (hi : i ≤ perceptronHistory)
    (hrange : minWeight ≤ s.perceptrons perc i ∧ s.perceptrons perc i ≤ maxWeight) (idx : Nat) :
    (s.adjust perc history taken).perceptrons idx i =
      if idx = perc then Saturating.step minWeight maxWeight
        (if i = 0 then taken else bitAt history (i - 1) == taken) (s.perceptrons perc i)
      else s.perceptrons idx i := by
  by_cases he : idx = perc
  · rw [if_pos he, he]
    show Function.update s.perceptrons perc _ perc i = _
    rw [Function.update_self]
    split
    next h0 => subst h0; exact Saturating.clamp_eq taken hrange
    next h0 => rw [maskBit_eq]; exact Saturating.clampStep_eq _ hrange
  · rw [if_neg he]
    exact congrFun (Function.update_of_ne he _ _) i

/-- Whether one of the two early returns of `last_branch_result` is taken: `y` is 1 above
`THETA`, 0 below `-THETA`, else 2. -/
def rightAndSure (output : Int) (taken : Bool) : Bool :=
  let y := if output > theta then 1 else if output < -theta then 0 else 2
  (y == 1 && taken) || (y == 0 && !taken)

def lastBranchResult (s : ReferencePerceptron) (taken : Bool) : ReferencePerceptron :=
  let state := s.perceptronStateBuf s.u
  let globalHistory := shiftIn s.globalHistory taken
  let s : ReferencePerceptron :=
    { s with
      globalHistory := globalHistory
      specGlobalHistory :=
        if state.prediction != taken then globalHistory else s.specGlobalHistory }
  if rightAndSure state.output taken then s else s.adjust state.perc state.history taken

section lastBranchResult
variable (s : ReferencePerceptron) (taken : Bool)

theorem lastBranchResult_globalHistory :
    (s.lastBranchResult taken).globalHistory = shiftIn s.globalHistory taken := by
  simp only [lastBranchResult]; split <;> rfl

theorem lastBranchResult_specGlobalHistory :
    (s.lastBranchResult taken).specGlobalHistory =
      if (s.perceptronStateBuf s.u).prediction != taken then shiftIn s.globalHistory taken
      else s.specGlobalHistory := by
  simp only [lastBranchResult]
  cases rightAndSure (s.perceptronStateBuf s.u).output taken <;> rfl

theorem lastBranchResult_perceptrons :
    (s.lastBranchResult taken).perceptrons =
      let state := s.perceptronStateBuf s.u
      (if rightAndSure state.output taken then s
        else s.adjust state.perc state.history taken).perceptrons := by
  simp only [lastBranchResult]; split <;> rfl

end lastBranchResult

/-- One branch of a trace of `(ip, taken)`. -/
def execute (s : ReferencePerceptron) (b : Word × Bool) : Bool × ReferencePerceptron :=
  ((s.predictBranch b.1).1, (s.predictBranch b.1).2.lastBranchResult b.2)

end ReferencePerceptron

namespace MyPerceptron

/-- What `initialize_branch_predictor` constructs. -/
def initializeBranchPredictor : Perceptron 7 512 8 := Perceptron.new 7 512 8

def predictBranch (predictor : Perceptron 7 512 8) (ip : Word) : Bool × Perceptron 7 512 8 :=
  ((predictor.predict ip).1.taken, (predictor.predict ip).2)

def lastBranchResult (predictor : Perceptron 7 512 8) (ip : Word) (taken : Bool) :
    Perceptron 7 512 8 :=
  predictor.update ip taken

def execute (predictor : Perceptron 7 512 8) (b : Word × Bool) : Bool × Perceptron 7 512 8 :=
  ((predictBranch predictor b.1).1, lastBranchResult (predictBranch predictor b.1).2 b.1 b.2)

end MyPerceptron

section correspondence
open ReferencePerceptron

/-- The same weights in both layouts, and in range. -/
structure SameWeights (p : Perceptron 7 512 8) (s : ReferencePerceptron) : Prop where
  weights : ∀ idx < 512, ∀ i < 7, p.weights idx i = s.perceptrons idx (i + 1)
  bias : ∀ idx < 512, p.bias idx = s.perceptrons idx 0
  range : ∀ idx < 512, ∀ i ≤ 7, minWeight ≤ s.perceptrons idx i ∧ s.perceptrons idx i ≤ maxWeight

/-- What corresponds between the two predictors after every step. -/
structure Corresponds (p : Perceptron 7 512 8) (s : ReferencePerceptron) : Prop where
  weights : ∀ idx < 512, ∀ i < 7, p.weights idx i = s.perceptrons idx (i + 1)
  bias : ∀ idx < 512, p.bias idx = s.perceptrons idx 0
  specHistory : p.specHistory = s.specGlobalHistory
  realHistory : p.realHistory = s.globalHistory

/-- The simulation relation. -/
structure Sim (p : Perceptron 7 512 8) (s : ReferencePerceptron) : Prop where
  same : SameWeights p s
  specHistory : p.specHistory = s.specGlobalHistory
  realHistory : p.realHistory = s.globalHistory
  settled : p.Settled

variable {p : Perceptron 7 512 8} {s : ReferencePerceptron}

theorem SameWeights.congr {p' : Perceptron 7 512 8} {s' : ReferencePerceptron}
    (h : SameWeights p s) (hw : p'.weights = p.weights) (hb : p'.bias = p.bias)
    (hs : s'.perceptrons = s.perceptrons) : SameWeights p' s' := by
  refine ⟨?_, ?_, ?_⟩
  · rw [hw, hs]; exact h.weights
  · rw [hb, hs]; exact h.bias
  · rw [hs]; exact h.range

/-- The two vector products are equal. -/
theorem SameWeights.sum_eq (h : SameWeights p s) {idx : Nat} (hidx : idx < 512) (history : Word) :
    p.weightedSum idx history = s.output idx history := by
  simp only [Perceptron.weightedSum, output]
  rw [h.bias idx hidx]
  apply List.foldl_ext
  intro sum i hi
  rw [maskBit_eq, h.weights idx hidx i (List.mem_range.1 hi), sub_eq_add_neg]

/-- Training the same row with the same history keeps the weights the same. -/
theorem SameWeights.train (h : SameWeights p s) {idx : Nat} (hidx : idx < 512) (history : Word)
    (taken : Bool) : SameWeights (p.train idx history taken) (s.adjust idx history taken) := by
  have hmin : Perceptron.weightMin 8 = minWeight := by decide
  have hmax : Perceptron.weightMax 8 = maxWeight := by decide
  refine ⟨?_, ?_, ?_⟩
  · intro idx' hidx' i hi
    have hi' : i + 1 ≤ perceptronHistory := hi
    rw [Perceptron.train_weights p idx history taken hi,
      adjust_perceptrons s idx history taken hi' (h.range idx hidx _ hi'),
      h.weights idx hidx i hi, h.weights idx' hidx' i hi, hmin, hmax, Bool.beq_comm]
    rfl
  · intro idx' hidx'
    rw [Perceptron.train_bias,
      adjust_perceptrons s idx history taken (Nat.zero_le _) (h.range idx hidx 0 (by omega)),
      h.bias idx hidx, h.bias idx' hidx', hmin, hmax]
    rfl
  · intro idx' hidx' i hi
    have hrange := h.range idx hidx i hi
    rw [adjust_perceptrons s idx history taken hi hrange]
    split
    · exact Saturating.step_range _ hrange
    · exact h.range idx' hidx' i hi

/-- Both predictors train on a misprediction and inside `[-27, 27]`. -/
theorem train_iff (sum : Int) (taken : Bool) :
    ((decide (sum ≥ 0) != taken) || decide ((sum.natAbs : Int) < Perceptron.threshold 7)) =
      !rightAndSure sum taken := by
  have h28 : Perceptron.threshold 7 = 28 := by decide
  have h27 : theta = 27 := by decide
  have habs : (sum.natAbs : Int) = if 0 ≤ sum then sum else -sum := by split <;> omega
  simp only [rightAndSure]
  rw [h28, h27, habs, Bool.eq_iff_iff]
  -- one case for each value of `y`
  split_ifs <;> cases taken <;> simp <;> omega

/-- Updates that remember the same prediction keep the weights the same. -/
theorem SameWeights.update (h : SameWeights p s) {ip history : Word} {sum : Int}
    (hp : p.pendingBP.dequeue.1 = ⟨history, sum⟩)
    (hperc : (s.perceptronStateBuf s.u).perc = p.getIdx ip)
    (hhist : (s.perceptronStateBuf s.u).history = history)
    (hout : (s.perceptronStateBuf s.u).output = sum) (taken : Bool) :
    SameWeights (p.update ip taken) (s.lastBranchResult taken) := by
  have hidx : p.getIdx ip < 512 := Nat.mod_lt _ (by omega)
  have hwb := p.update_weights_bias ip taken
  have hs := s.lastBranchResult_perceptrons taken
  simp only [hp, train_iff] at hwb
  simp only [hperc, hhist, hout] at hs
  obtain ⟨hw, hb⟩ := Prod.mk.inj hwb
  cases hsure : rightAndSure sum taken with
  | true =>
    rw [hsure] at hw hb hs
    exact h.congr hw hb hs
  | false =>
    rw [hsure] at hw hb hs
    exact (h.train hidx history taken).congr hw hb hs

/-- What `predict_branch` leaves for the update, seen from the other predictor. -/
theorem predictBranch_state (h : Sim p s) (ip : Word) :
    let s' := (s.predictBranch ip).2
    let sum := p.weightedSum (p.getIdx ip) p.specHistory
    s'.perceptronStateBuf s'.u =
      { dummyCounter := if decide (sum ≥ 0) then 3 else 0
        prediction := decide (sum ≥ 0)
        output := sum
        history := p.specHistory
        perc := p.getIdx ip } := by
  have hidx : p.getIdx ip < 512 := Nat.mod_lt _ (by omega)
  dsimp only
  rw [h.same.sum_eq hidx p.specHistory, h.specHistory]
  exact Function.update_self _ _ _

/-- **One step of the simulation.** -/
theorem sim_step (p : Perceptron 7 512 8) (s : ReferencePerceptron) (b : Word × Bool)
    (h : Sim p s) :
    (MyPerceptron.execute p b).1 = (ReferencePerceptron.execute s b).1 ∧
      Sim (MyPerceptron.execute p b).2 (ReferencePerceptron.execute s b).2 := by
  obtain ⟨ip, taken⟩ := b
  have hidx : p.getIdx ip < 512 := Nat.mod_lt _ (by omega)
  have hstate := predictBranch_state h ip
  have hdequeue := Perceptron.predictFrom_dequeue p ip p.specHistory h.settled
  obtain ⟨hsettled, hreal⟩ := Perceptron.pair_settled p ip p.specHistory h.settled taken
  have hout : decide (p.weightedSum (p.getIdx ip) p.specHistory ≥ 0) =
      (s.predictBranch ip).1 := by
    rw [h.same.sum_eq hidx p.specHistory, h.specHistory]
    rfl
  have hglobal : (ReferencePerceptron.execute s (ip, taken)).2.globalHistory =
      shiftIn s.globalHistory taken := lastBranchResult_globalHistory _ taken
  have hwrite : SameWeights (p.predict ip).2 (s.predictBranch ip).2 := h.same.congr rfl rfl rfl
  refine ⟨hout, ?_, ?_, ?_, hsettled⟩
  · exact hwrite.update hdequeue (by rw [hstate]; rfl) (by rw [hstate]) (by rw [hstate]) taken
  · show ((p.predict ip).2.update ip taken).specHistory =
      ((s.predictBranch ip).2.lastBranchResult taken).specGlobalHistory
    have hspec : (s.predictBranch ip).2.specGlobalHistory =
        shiftIn s.specGlobalHistory (s.predictBranch ip).1 := rfl
    have hglobal' : (s.predictBranch ip).2.globalHistory = s.globalHistory := rfl
    rw [Perceptron.update_specHistory, lastBranchResult_specGlobalHistory, hstate, hspec, hglobal',
      ← hout, ← h.specHistory, ← h.realHistory]
    exact congrArg (fun state => if decide (Pstate.sum state ≥ 0) != taken
      then shiftIn p.realHistory taken else (p.predict ip).2.specHistory) hdequeue
  · rw [hglobal, ← h.realHistory]
    exact hreal

/-- The simulation relation without what only keeps it. -/
theorem Sim.corresponds (h : Sim p s) : Corresponds p s where
  weights := h.same.weights
  bias := h.same.bias
  specHistory := h.specHistory
  realHistory := h.realHistory

theorem sim_start (s : ReferencePerceptron) :
    Sim MyPerceptron.initializeBranchPredictor s.initializeBranchPredictor := by
  refine ⟨⟨?_, ?_, ?_⟩, rfl, rfl, Perceptron.settled_new⟩
  · intro idx hidx i hi
    exact (if_pos ⟨hidx, hi⟩).symm
  · intro idx hidx
    exact (if_pos ⟨hidx, Nat.zero_le _⟩).symm
  · intro idx hidx i hi
    have h0 : s.initializeBranchPredictor.perceptrons idx i = 0 := if_pos ⟨hidx, hi⟩
    rw [h0]
    decide

/-- **The two predictors are one.** From what their `initialize_branch_predictor` leave,
every trace of branches gives the same predictions, and leads to states whose weights,
biases and histories correspond. -/
theorem MyPerceptron.reimplements_reference (s : ReferencePerceptron) (tr : List (Word × Bool)) :
    Perceptron.threshold 7 = 28 ∧ theta = 27 ∧
    Mealy.outputs MyPerceptron.execute MyPerceptron.initializeBranchPredictor tr =
      Mealy.outputs ReferencePerceptron.execute s.initializeBranchPredictor tr ∧
    Corresponds (Mealy.run MyPerceptron.execute MyPerceptron.initializeBranchPredictor tr)
      (Mealy.run ReferencePerceptron.execute s.initializeBranchPredictor tr) := by
  obtain ⟨houts, hsim⟩ := Mealy.simulation sim_step tr _ _ (sim_start s)
  exact ⟨by decide, by decide, houts, hsim.corresponds⟩

end correspondence

end SandboxPredictor
