import SandboxPredictor.Lib.Saturating
import SandboxPredictor.Predictor

/- `Perceptron` (`perceptron.cc`) and its queue of pending predictions.

   `Perceptron ghrLen tableSize weightLen` is an object constructed with these
   parameters. Row `idx` of `weights` is the stretch of the source's flat array at
   `idx * ghrLen`, and the sums are integers (they overflow `int` only if
   `(ghrLen + 1) * 2^(weightLen - 1)` does).

   Executed pair by pair a perceptron is settled between pairs: nothing is
   pending and the speculative history is the real one (`pair_settled`). -/
namespace SandboxPredictor
open ShiftRegister

/-- `pstate`: what a prediction leaves for its update. -/
structure Pstate where
  history : Word
  sum : Int
  deriving DecidableEq, Repr

/-- The direction a saved sum predicts. -/
def Pstate.guess (state : Pstate) : Bool := decide (state.sum ≥ 0)

/-- `Pstate_queue`: a ring of `QUEUE_SIZE = 4` states. -/
structure PstateQueue where
  head : Fin 4
  tail : Fin 4
  storage : Fin 4 → Pstate
  deriving DecidableEq

namespace PstateQueue

/-- `dequeue`. The ring keeps no count: nothing is checked. -/
def dequeue (q : PstateQueue) : Pstate × PstateQueue :=
  (q.storage q.head, { q with head := q.head + 1 })

def enqueue (q : PstateQueue) (state : Pstate) : PstateQueue :=
  { q with storage := Function.update q.storage q.tail state, tail := q.tail + 1 }

/-- `reset`: the storage keeps its contents. -/
def reset (q : PstateQueue) : PstateQueue := { q with head := 0, tail := 0 }

/-- What is dequeued after an `enqueue` to an empty queue is what was enqueued, and
the queue is empty again. -/
theorem dequeue_enqueue {q : PstateQueue} (h : q.head = q.tail) (state : Pstate) :
    (q.enqueue state).dequeue.1 = state ∧
      (q.enqueue state).dequeue.2.head = (q.enqueue state).dequeue.2.tail := by
  simp [dequeue, enqueue, h]

end PstateQueue

/-- `Perceptron`. -/
structure Perceptron (ghrLen tableSize weightLen : Nat) where
  weights : Nat → Nat → Int
  bias : Nat → Int
  realHistory : Word
  specHistory : Word
  pendingBP : PstateQueue

namespace Perceptron

variable {ghrLen tableSize weightLen : Nat}

/-- `(1 << (weightLen - 1)) - 1`. -/
def weightMax (weightLen : Nat) : Int := 2 ^ (weightLen - 1) - 1

def weightMin (weightLen : Nat) : Int := -(weightMax weightLen + 1)

/-- `ceil(1.93 * GHRLen) + 14`, for the history lengths below 100 (a history has 64
bits): the rounding of the product does not reach the next integer. -/
def threshold (ghrLen : Nat) : Int := (193 * ghrLen + 99) / 100 + 14

def getIdx (_ : Perceptron ghrLen tableSize weightLen) (pc : Word) : Nat := pc.toNat % tableSize

/-- `reset`. -/
def reset (p : Perceptron ghrLen tableSize weightLen) :
    Perceptron ghrLen tableSize weightLen where
  weights := fun _ _ => 0
  bias := fun _ => 0
  realHistory := 0
  specHistory := 0
  pendingBP := p.pendingBP.reset

/-- A constructed object: the queue starts with `pstate(0, 0)` everywhere. -/
def new (ghrLen tableSize weightLen : Nat) : Perceptron ghrLen tableSize weightLen where
  weights := fun _ _ => 0
  bias := fun _ => 0
  realHistory := 0
  specHistory := 0
  pendingBP := ⟨0, 0, fun _ => ⟨0, 0⟩⟩

/-- The vector product of the weights of row `idx` and a history. -/
def weightedSum (p : Perceptron ghrLen tableSize weightLen) (idx : Nat) (history : Word) : Int :=
  (List.range ghrLen).foldl
    (fun sum i => if bitAt history i then sum + p.weights idx i else sum - p.weights idx i)
    (p.bias idx)

/-- The body both overloads of `predict` share, from the history they read. -/
def predictFrom (p : Perceptron ghrLen tableSize weightLen) (pc history : Word) :
    Prediction × Perceptron ghrLen tableSize weightLen :=
  let sum := p.weightedSum (p.getIdx pc) history
  (⟨decide (sum ≥ 0), sum.natAbs⟩,
    { p with
      pendingBP := p.pendingBP.enqueue ⟨history, sum⟩
      specHistory := shiftIn p.specHistory (decide (sum ≥ 0)) })

def predict (p : Perceptron ghrLen tableSize weightLen) (pc : Word) :
    Prediction × Perceptron ghrLen tableSize weightLen :=
  p.predictFrom pc p.specHistory

/-- The history `predict(pc, addon, addon_len)` reads. -/
def addonHistory (p : Perceptron ghrLen tableSize weightLen) (addon : Word) (addonLen : Nat) :
    Word :=
  (p.specHistory <<< addonLen) ||| (addon &&& lowMask addonLen)

def predictAddon (p : Perceptron ghrLen tableSize weightLen) (pc addon : Word) (addonLen : Nat) :
    Prediction × Perceptron ghrLen tableSize weightLen :=
  p.predictFrom pc (p.addonHistory addon addonLen)

/-- The training of row `idx`: every weight whose history bit agrees with the
outcome moves up, the others down, and the bias follows the outcome. -/
def train (p : Perceptron ghrLen tableSize weightLen) (idx : Nat) (history : Word)
    (taken : Bool) : Perceptron ghrLen tableSize weightLen :=
  let move := Saturating.step (weightMin weightLen) (weightMax weightLen)
  { p with
    weights := Function.update p.weights idx (fun i =>
      if i < ghrLen then move (taken == bitAt history i) (p.weights idx i) else p.weights idx i)
    bias := Function.update p.bias idx (move taken (p.bias idx)) }

def update (p : Perceptron ghrLen tableSize weightLen) (pc : Word) (taken : Bool) :
    Perceptron ghrLen tableSize weightLen :=
  let idx := p.getIdx pc
  let state := p.pendingBP.dequeue.1
  let mispredicted := decide (state.sum ≥ 0) != taken
  let q : Perceptron ghrLen tableSize weightLen := { p with pendingBP := p.pendingBP.dequeue.2 }
  let q := if mispredicted || decide (state.sum.natAbs < threshold ghrLen)
    then q.train idx state.history taken else q
  let realHistory := shiftIn q.realHistory taken
  { q with
    realHistory := realHistory
    specHistory := if mispredicted then realHistory else q.specHistory }

instance : Predictor (Perceptron ghrLen tableSize weightLen) Unit where
  predict := predict
  predictAddon := predictAddon
  update p _ pc taken := p.update pc taken
  reset := reset

/-! ## The weights stay in range -/

structure InRange (p : Perceptron ghrLen tableSize weightLen) : Prop where
  weights : ∀ idx i, weightMin weightLen ≤ p.weights idx i ∧ p.weights idx i ≤ weightMax weightLen
  bias : ∀ idx, weightMin weightLen ≤ p.bias idx ∧ p.bias idx ≤ weightMax weightLen

theorem weightMax_nonneg (weightLen : Nat) : 0 ≤ weightMax weightLen := by
  have hpos : (0 : Int) < 2 ^ (weightLen - 1) := Int.pow_pos (by decide)
  simp only [weightMax]
  omega

theorem reset_inRange (p : Perceptron ghrLen tableSize weightLen) : InRange p.reset := by
  have hmax := weightMax_nonneg weightLen
  have hzero : weightMin weightLen ≤ 0 ∧ 0 ≤ weightMax weightLen := by
    simp only [weightMin]
    omega
  exact ⟨fun _ _ => hzero, fun _ => hzero⟩

/-! ## One call after another -/

/-- Nothing is pending, and the speculative history has caught up with the real one. -/
structure Settled (p : Perceptron ghrLen tableSize weightLen) : Prop where
  empty : p.pendingBP.head = p.pendingBP.tail
  caughtUp : p.specHistory = p.realHistory

theorem settled_new : Settled (new ghrLen tableSize weightLen) := ⟨rfl, rfl⟩

theorem settled_reset (p : Perceptron ghrLen tableSize weightLen) : Settled p.reset := ⟨rfl, rfl⟩

section train
variable (p : Perceptron ghrLen tableSize weightLen) (idx : Nat) (history : Word) (taken : Bool)

theorem train_weights {i : Nat} (hi : i < ghrLen) (idx' : Nat) :
    (p.train idx history taken).weights idx' i =
      if idx' = idx then Saturating.step (weightMin weightLen) (weightMax weightLen)
        (taken == bitAt history i) (p.weights idx i) else p.weights idx' i := by
  by_cases he : idx' = idx <;> simp [train, he, hi]

theorem train_bias (idx' : Nat) :
    (p.train idx history taken).bias idx' =
      if idx' = idx then Saturating.step (weightMin weightLen) (weightMax weightLen) taken
        (p.bias idx) else p.bias idx' := by
  by_cases he : idx' = idx <;> simp [train, he]

theorem train_inRange {p : Perceptron ghrLen tableSize weightLen} (h : InRange p) :
    InRange (p.train idx history taken) := by
  refine ⟨?_, ?_⟩
  · intro idx' i
    by_cases hi : i < ghrLen
    · rw [train_weights p idx history taken hi]
      split
      · exact Saturating.step_range _ (h.weights idx i)
      · exact h.weights idx' i
    · have hsame : (p.train idx history taken).weights idx' i = p.weights idx' i := by
        by_cases he : idx' = idx <;> simp [train, he, hi]
      rw [hsame]
      exact h.weights idx' i
  · intro idx'
    rw [train_bias]
    split
    · exact Saturating.step_range _ (h.bias idx)
    · exact h.bias idx'

end train

section update
variable (p : Perceptron ghrLen tableSize weightLen) (pc : Word) (taken : Bool)

@[simp] theorem update_realHistory :
    (p.update pc taken).realHistory = shiftIn p.realHistory taken := by
  simp only [update]; split <;> rfl

@[simp] theorem update_pendingBP : (p.update pc taken).pendingBP = p.pendingBP.dequeue.2 := by
  simp only [update]; split <;> rfl

/-- A misprediction puts the real history in the place of the speculative one. -/
theorem update_specHistory :
    (p.update pc taken).specHistory =
      if decide (p.pendingBP.dequeue.1.sum ≥ 0) != taken then shiftIn p.realHistory taken
      else p.specHistory := by
  simp only [update]
  generalize (decide (p.pendingBP.dequeue.1.sum ≥ 0) != taken) = mispredicted
  cases mispredicted
  · show (if _ then _ else _ : Perceptron ghrLen tableSize weightLen).specHistory = p.specHistory
    split <;> rfl
  · rfl

/-- The weights are trained on a misprediction and on a sum below the threshold. -/
theorem update_weights_bias :
    ((p.update pc taken).weights, (p.update pc taken).bias) =
      let state := p.pendingBP.dequeue.1
      let q := if (decide (state.sum ≥ 0) != taken) || decide (state.sum.natAbs < threshold ghrLen)
        then p.train (p.getIdx pc) state.history taken else p
      (q.weights, q.bias) := by
  simp only [update]
  split <;> rfl

/-- What an update does to the rows, from the state it uses. -/
def trainWith (p : Perceptron ghrLen tableSize weightLen) (state : Pstate) (pc : Word)
    (taken : Bool) : Perceptron ghrLen tableSize weightLen :=
  if (state.guess != taken) || decide (state.sum.natAbs < threshold ghrLen)
  then p.train (p.getIdx pc) state.history taken else p

/-- `q` is what an update of `pc` makes of `p` when it is trained on `state`. -/
structure TrainedOn (p q : Perceptron ghrLen tableSize weightLen) (state : Pstate) (pc : Word)
    (taken : Bool) : Prop where
  weights : q.weights = (p.trainWith state pc taken).weights
  bias : q.bias = (p.trainWith state pc taken).bias
  realHistory : q.realHistory = shiftIn p.realHistory taken
  specHistory : q.specHistory =
    if state.guess != taken then shiftIn p.realHistory taken else p.specHistory

/-- An update trains on the state it takes from the queue. -/
theorem update_trainedOn {state : Pstate} (h : p.pendingBP.dequeue.1 = state) :
    TrainedOn p (p.update pc taken) state pc taken := by
  have hrows := Prod.mk.inj (update_weights_bias p pc taken)
  have hspec := update_specHistory p pc taken
  rw [h] at hrows hspec
  exact ⟨hrows.1, hrows.2, update_realHistory p pc taken, hspec⟩

theorem update_inRange {p : Perceptron ghrLen tableSize weightLen} (h : InRange p) (pc : Word)
    (taken : Bool) : InRange (p.update pc taken) := by
  obtain ⟨hweights, hbias⟩ := Prod.mk.inj (update_weights_bias p pc taken)
  have hrow : InRange (if (decide (p.pendingBP.dequeue.1.sum ≥ 0) != taken) ||
      decide (p.pendingBP.dequeue.1.sum.natAbs < threshold ghrLen)
      then p.train (p.getIdx pc) p.pendingBP.dequeue.1.history taken else p) := by
    split
    · exact train_inRange _ _ _ h
    · exact h
  refine ⟨?_, ?_⟩
  · rw [hweights]
    exact hrow.weights
  · rw [hbias]
    exact hrow.bias

/-- An update trains the row of its branch only. -/
theorem update_bias_other {idx : Nat} (hidx : idx ≠ p.getIdx pc) :
    (p.update pc taken).bias idx = p.bias idx := by
  have hbias := congrArg Prod.snd (update_weights_bias p pc taken)
  dsimp only at hbias
  rw [hbias]
  split
  · rw [train_bias, if_neg hidx]
  · rfl

end update

section predictFrom
variable (p : Perceptron ghrLen tableSize weightLen) (pc history : Word)

theorem predictFrom_inRange {p : Perceptron ghrLen tableSize weightLen} (h : InRange p) :
    InRange (p.predictFrom pc history).2 := ⟨h.weights, h.bias⟩

/-- What a prediction leaves is what the next update of a settled perceptron takes. -/
theorem predictFrom_dequeue (h : p.Settled) :
    (p.predictFrom pc history).2.pendingBP.dequeue.1 =
      ⟨history, p.weightedSum (p.getIdx pc) history⟩ :=
  (PstateQueue.dequeue_enqueue h.empty _).1

/-- The update after a prediction of a settled perceptron settles it again, with the
outcome taken into the real history. -/
theorem pair_settled (h : p.Settled) (taken : Bool) :
    ((p.predictFrom pc history).2.update pc taken).Settled ∧
      ((p.predictFrom pc history).2.update pc taken).realHistory =
        shiftIn p.realHistory taken := by
  refine ⟨⟨?_, ?_⟩, update_realHistory _ pc taken⟩
  · rw [update_pendingBP]
    exact (PstateQueue.dequeue_enqueue h.empty _).2
  · rw [update_realHistory, update_specHistory, predictFrom_dequeue p pc history h]
    -- either the histories are made equal, or the bit predicted is the outcome
    split
    · rfl
    next hright =>
      have hbit : decide (p.weightedSum (p.getIdx pc) history ≥ 0) = taken := by
        simpa using hright
      rw [← hbit]
      show shiftIn p.specHistory _ = shiftIn p.realHistory _
      rw [h.caughtUp]

end predictFrom

end Perceptron

end SandboxPredictor
