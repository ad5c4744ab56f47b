import SandboxPredictor.MissCache
import SandboxPredictor.Perceptron

/- `VIP<T>` (`vip.cc`): a default predictor, and private predictors for the
   branches the last snapshot of a miss cache has an index for. A scoreboard
   keeps, for every private predictor, how it competes with the default one.

   `VIP δ π n snapInterval ghrLen` has `n + 1` private predictors of type `π` that
   share nothing, as copies of a `Perceptron` do. (The copies the source makes of a
   `NestLoop` share one table.) A draw of an update is the one of the default
   predictor's update and the `rand()` result of a cache access. -/
namespace SandboxPredictor
open ShiftRegister

structure VIP (δ π : Type) (n snapInterval ghrLen : Nat) where
  defaultBP : δ
  mCache : MissCache (n + 1)
  privateBP : Fin (n + 1) → π
  currCount : BitVec 32
  history : Word
  scoreboard : Fin (n + 1) → Int
  lastDefault : Bool
  lastPrivate : Bool

namespace VIP

variable {δ ρ π : Type} [Predictor δ ρ] [Predictor π Unit] {n snapInterval ghrLen : Nat}

def minScore : Int := -2
def maxScore : Int := 1

/-- `reset`: `lastDefault` and `lastPrivate` keep what they hold. -/
def reset (s : VIP δ π n snapInterval ghrLen) : VIP δ π n snapInterval ghrLen :=
  { s with
    defaultBP := Predictor.reset s.defaultBP
    mCache := s.mCache.reset
    privateBP := fun i => Predictor.reset (s.privateBP i)
    scoreboard := fun _ => 0
    currCount := 0
    history := 0 }

/-- A constructed object: the private predictors are copies of the prototype. -/
def new (defaultBP : δ) (prototypeBP : π) (mCache : MissCache (n + 1))
    (snapInterval ghrLen : Nat) : VIP δ π n snapInterval ghrLen :=
  reset ⟨defaultBP, mCache, fun _ => prototypeBP, 0, 0, fun _ => 0, false, false⟩

/-- The prediction of the private predictor at `i` for `pc`. -/
def predictPrivate (s : VIP δ π n snapInterval ghrLen) (i : Fin (n + 1)) (pc : Word) :
    Prediction × π :=
  Predictor.predictAddon (s.privateBP i) pc s.history ghrLen

def predict (s : VIP δ π n snapInterval ghrLen) (pc : Word) :
    Prediction × VIP δ π n snapInterval ghrLen :=
  let (defaultPred, defaultBP) := Predictor.predict s.defaultBP pc
  match s.mCache.getIdx pc with
  | none => (defaultPred, { s with defaultBP := defaultBP, lastDefault := defaultPred.taken })
  | some i =>
    let (privatePred, privateBP) := s.predictPrivate i pc
    (if s.scoreboard i < 0 then privatePred else defaultPred,
      { s with
        defaultBP := defaultBP
        privateBP := Function.update s.privateBP i privateBP
        lastPrivate := privatePred.taken
        lastDefault := defaultPred.taken })

/-- `updateScoreBoard`, on the score at `idx`. -/
def updateScore (dPred pPred real : Bool) (score : Int) : Int :=
  if dPred = pPred then score
  else if dPred = real ∧ score < maxScore then score + 1
  else if score > minScore then score - 1
  else score

/-- The miss cache is accessed when the default prediction was wrong. -/
def accessOnMiss (s : VIP δ π n snapInterval ghrLen) (randBase : Nat) (pc : Word) (taken : Bool) :
    MissCache (n + 1) :=
  if taken ≠ s.lastDefault then (s.mCache.access pc randBase).2 else s.mCache

/-- The index `update` reads, after the access. -/
def updateIdx (s : VIP δ π n snapInterval ghrLen) (randBase : Nat) (pc : Word) (taken : Bool) :
    Option (Fin (n + 1)) :=
  (s.accessOnMiss randBase pc taken).getIdx pc

/-- The update of the private predictor and of its score. -/
def updatePrivate (s : VIP δ π n snapInterval ghrLen) (i : Fin (n + 1)) (pc : Word) (taken : Bool) :
    VIP δ π n snapInterval ghrLen :=
  { s with
    privateBP := Function.update s.privateBP i (Predictor.update (s.privateBP i) () pc taken)
    scoreboard := Function.update s.scoreboard i
      (updateScore s.lastDefault s.lastPrivate taken (s.scoreboard i)) }

/-- The end of `update`: a snapshot every `snapInterval` updates, and the history. -/
def endUpdate (s : VIP δ π n snapInterval ghrLen) (taken : Bool) : VIP δ π n snapInterval ghrLen :=
  let currCount := s.currCount + 1
  { s with
    currCount := if currCount = BitVec.ofNat 32 snapInterval then 0 else currCount
    mCache := if currCount = BitVec.ofNat 32 snapInterval then s.mCache.snapshot else s.mCache
    history := shiftIn s.history taken }

def update (s : VIP δ π n snapInterval ghrLen) (draw : ρ × Nat) (pc : Word) (taken : Bool) :
    VIP δ π n snapInterval ghrLen :=
  let s' : VIP δ π n snapInterval ghrLen :=
    { s with
      mCache := s.accessOnMiss draw.2 pc taken
      defaultBP := Predictor.update s.defaultBP draw.1 pc taken }
  match s.updateIdx draw.2 pc taken with
  | some i => (s'.updatePrivate i pc taken).endUpdate taken
  | none => s'.endUpdate taken

instance : Predictor (VIP δ π n snapInterval ghrLen) (ρ × Nat) where
  predict := predict
  update := update
  reset := reset

/-! ## One pair -/

section
variable {s : VIP δ π n snapInterval ghrLen}

theorem execute_eq (s : VIP δ π n snapInterval ghrLen) (b : Branch (ρ × Nat)) :
    execute s b = ((s.predict b.pc).1, (s.predict b.pc).2.update b.draw b.pc b.taken) := rfl

theorem predict_routed {pc : Word} {i : Fin (n + 1)} (h : s.mCache.getIdx pc = some i) :
    (s.predict pc).2 =
      { s with
        defaultBP := (Predictor.predict s.defaultBP pc).2
        privateBP := Function.update s.privateBP i (s.predictPrivate i pc).2
        lastPrivate := (s.predictPrivate i pc).1.taken
        lastDefault := (Predictor.predict s.defaultBP pc).1.taken } := by
  simp only [predict]
  rw [h]

theorem predict_unrouted {pc : Word} (h : s.mCache.getIdx pc = none) :
    (s.predict pc).2 =
      { s with
        defaultBP := (Predictor.predict s.defaultBP pc).2
        lastDefault := (Predictor.predict s.defaultBP pc).1.taken } := by
  simp only [predict]
  rw [h]

/-- A prediction does not touch the miss cache. -/
theorem predict_mCache (s : VIP δ π n snapInterval ghrLen) (pc : Word) :
    (s.predict pc).2.mCache = s.mCache := by
  cases h : s.mCache.getIdx pc with
  | none => rw [predict_unrouted h]
  | some i => rw [predict_routed h]

omit [Predictor π Unit] in
/-- The access in between does not move the index of the branch. -/
theorem updateIdx_eq (s : VIP δ π n snapInterval ghrLen) (randBase : Nat) (pc : Word)
    (taken : Bool) : s.updateIdx randBase pc taken = s.mCache.getIdx pc := by
  simp only [updateIdx, accessOnMiss]
  split
  · exact MissCache.getIdx_access s.mCache pc randBase pc
  · rfl

/-- The update of a pair reads the index its prediction read. -/
theorem updateIdx_predict (s : VIP δ π n snapInterval ghrLen) (randBase : Nat) (pc : Word)
    (taken : Bool) : (s.predict pc).2.updateIdx randBase pc taken = s.mCache.getIdx pc := by
  rw [updateIdx_eq, predict_mCache]

/-- A pair routed to slot `i` predicts and updates the private predictor there, and
scores the two predictions. -/
theorem execute_routed (b : Branch (ρ × Nat)) {i : Fin (n + 1)}
    (h : s.mCache.getIdx b.pc = some i) :
    (execute s b).2.privateBP = Function.update s.privateBP i
        (Predictor.update (s.predictPrivate i b.pc).2 () b.pc b.taken) ∧
      (execute s b).2.scoreboard = Function.update s.scoreboard i
        (updateScore (Predictor.predict s.defaultBP b.pc).1.taken
          (s.predictPrivate i b.pc).1.taken b.taken (s.scoreboard i)) := by
  have hidx := (updateIdx_predict s b.draw.2 b.pc b.taken).trans h
  rw [execute_eq]
  simp only [update]
  rw [hidx, predict_routed h]
  simp [updatePrivate, endUpdate]

/-- A pair of a branch without an index leaves them all alone. -/
theorem execute_unrouted (b : Branch (ρ × Nat)) (h : s.mCache.getIdx b.pc = none) :
    (execute s b).2.privateBP = s.privateBP ∧ (execute s b).2.scoreboard = s.scoreboard := by
  have hidx := (updateIdx_predict s b.draw.2 b.pc b.taken).trans h
  rw [execute_eq]
  simp only [update]
  rw [hidx, predict_unrouted h]
  exact ⟨rfl, rfl⟩

/-- The state with another value in `lastPrivate`. -/
def withLastPrivate (s : VIP δ π n snapInterval ghrLen) (v : Bool) :
    VIP δ π n snapInterval ghrLen := { s with lastPrivate := v }

/-- A pair routed to a slot does not read the old `lastPrivate`. -/
theorem execute_routed_lastPrivate (b : Branch (ρ × Nat)) {i : Fin (n + 1)}
    (h : s.mCache.getIdx b.pc = some i) (v : Bool) :
    execute (s.withLastPrivate v) b = execute s b := by
  have hpredict : (s.withLastPrivate v).predict b.pc = s.predict b.pc := by
    have h' : (s.withLastPrivate v).mCache.getIdx b.pc = some i := h
    simp only [predict]
    rw [h, h']
    rfl
  rw [execute_eq, execute_eq, hpredict]

/-- A pair of a branch without an index neither reads nor writes it. -/
theorem execute_unrouted_lastPrivate (b : Branch (ρ × Nat)) (h : s.mCache.getIdx b.pc = none)
    (v : Bool) :
    execute (s.withLastPrivate v) b = ((execute s b).1, (execute s b).2.withLastPrivate v) := by
  have hidx := (updateIdx_predict s b.draw.2 b.pc b.taken).trans h
  have hpredict : (s.withLastPrivate v).predict b.pc =
      ((s.predict b.pc).1, (s.predict b.pc).2.withLastPrivate v) := by
    have h' : (s.withLastPrivate v).mCache.getIdx b.pc = none := h
    simp only [predict]
    rw [h, h']
    rfl
  have hupdate : ∀ t : VIP δ π n snapInterval ghrLen,
      t.updateIdx b.draw.2 b.pc b.taken = none →
      (t.withLastPrivate v).update b.draw b.pc b.taken =
        (t.update b.draw b.pc b.taken).withLastPrivate v := by
    intro t ht
    have ht' : (t.withLastPrivate v).updateIdx b.draw.2 b.pc b.taken = none := ht
    simp only [update]
    rw [ht, ht']
    rfl
  rw [execute_eq, execute_eq, hpredict]
  congr 1
  exact hupdate _ hidx

end

/-! ## Private perceptrons -/

section
variable {len tableSize weightLen : Nat}

/-- What a pair does to the private perceptrons: the one at the index of the branch
predicts and is trained on what it saved, and the others are left alone. What `lastPrivate`
held before the pair is not read: with any other value there the pair does the same. -/
structure PairConsumes (s : VIP δ (Perceptron len tableSize weightLen) n snapInterval ghrLen)
    (b : Branch (ρ × Nat)) : Prop where
  sameIdx : (s.predict b.pc).2.updateIdx b.draw.2 b.pc b.taken = s.mCache.getIdx b.pc
  routed : ∀ i, s.mCache.getIdx b.pc = some i →
    let t := (s.predict b.pc).2
    let p := s.privateBP i
    let history := p.addonHistory s.history ghrLen
    let state : Pstate := ⟨history, p.weightedSum (p.getIdx b.pc) history⟩
    t.privateBP i = (p.predictAddon b.pc s.history ghrLen).2 ∧
      t.lastPrivate = (p.predictAddon b.pc s.history ghrLen).1.taken ∧
      (t.privateBP i).pendingBP.dequeue.1 = state ∧
      (execute s b).2.privateBP i = (t.privateBP i).update b.pc b.taken ∧
      Perceptron.TrainedOn (t.privateBP i) ((execute s b).2.privateBP i) state b.pc b.taken ∧
      ∀ v, execute (s.withLastPrivate v) b = execute s b
  unrouted : ∀ i, s.mCache.getIdx b.pc ≠ some i →
    (s.predict b.pc).2.privateBP i = s.privateBP i ∧ (execute s b).2.privateBP i = s.privateBP i
  notRead : s.mCache.getIdx b.pc = none → ∀ v,
    execute (s.withLastPrivate v) b = ((execute s b).1, (execute s b).2.withLastPrivate v)

/-- The outcomes of the pairs of a run that were routed to slot `i`. -/
def routedOutcomes (s : VIP δ π n snapInterval ghrLen) (i : Fin (n + 1))
    (tr : List (Branch (ρ × Nat))) : List Bool :=
  (Mealy.observe execute (fun s b => (s.mCache.getIdx b.pc, b.taken)) s tr).filterMap
    (fun x => if x.1 = some i then some x.2 else none)

theorem routedOutcomes_snoc (s : VIP δ π n snapInterval ghrLen) (i : Fin (n + 1))
    (tr : List (Branch (ρ × Nat))) (b : Branch (ρ × Nat)) :
    routedOutcomes s i (tr ++ [b]) = routedOutcomes s i tr ++
      if (afterTrace s tr).mCache.getIdx b.pc = some i then [b.taken] else [] := by
  simp only [routedOutcomes]
  rw [Mealy.observe_snoc, List.filterMap_append]
  congr 1
  split_ifs with h <;> simp [h]

variable {s : VIP δ (Perceptron len tableSize weightLen) n snapInterval ghrLen}

theorem pair_consumes (h : ∀ i, (s.privateBP i).Settled) (b : Branch (ρ × Nat)) :
    PairConsumes s b where
  sameIdx := updateIdx_predict s b.draw.2 b.pc b.taken
  routed := by
    intro i hi t p history state
    have hself : t.privateBP i = (s.predictPrivate i b.pc).2 := by
      simp only [t]
      rw [predict_routed hi]
      exact Function.update_self _ _ _
    have hsaved : (t.privateBP i).pendingBP.dequeue.1 = state := by
      rw [hself]
      exact Perceptron.predictFrom_dequeue _ b.pc _ (h i)
    have hupdate : (execute s b).2.privateBP i = (t.privateBP i).update b.pc b.taken := by
      rw [(execute_routed b hi).1, Function.update_self, hself]
      rfl
    refine ⟨hself, ?_, hsaved, hupdate, ?_, execute_routed_lastPrivate b hi⟩
    · simp only [t]
      rw [predict_routed hi]
      rfl
    · rw [hupdate]
      exact Perceptron.update_trainedOn _ b.pc b.taken hsaved
  unrouted := by
    intro i hi
    cases hidx : s.mCache.getIdx b.pc with
    | none =>
      rw [(execute_unrouted b hidx).1, predict_unrouted hidx]
      exact ⟨rfl, rfl⟩
    | some j =>
      have hne : i ≠ j := by
        intro heq
        exact hi (heq ▸ hidx)
      rw [(execute_routed b hidx).1, predict_routed hidx]
      exact ⟨Function.update_of_ne hne _ _, Function.update_of_ne hne _ _⟩
  notRead := execute_unrouted_lastPrivate b

/-- What a pair keeps: the perceptrons are settled, and the one at the index of the branch
takes the outcome into its history. -/
theorem execute_settled (h : ∀ i, (s.privateBP i).Settled) (b : Branch (ρ × Nat)) (i : Fin (n + 1)) :
    ((execute s b).2.privateBP i).Settled ∧
      ((execute s b).2.privateBP i).realHistory =
        if s.mCache.getIdx b.pc = some i then shiftIn (s.privateBP i).realHistory b.taken
        else (s.privateBP i).realHistory := by
  have hpair := pair_consumes h b
  by_cases hi : s.mCache.getIdx b.pc = some i
  · obtain ⟨hpred, _, _, hupd, _⟩ := hpair.routed i hi
    rw [if_pos hi, hupd, hpred]
    exact Perceptron.pair_settled (s.privateBP i) b.pc _ (h i) b.taken
  · rw [if_neg hi, (hpair.unrouted i hi).2]
    exact ⟨h i, rfl⟩

/-- **Every private prediction is consumed by its own update.** Over any miss cache, any
interval of snapshots and any default predictor: between pairs no private perceptron has
anything pending and its histories are the outcomes routed to its slot, and every pair
trains the perceptron that predicted in it on what that prediction saved, and reads no
`lastPrivate` but the one it has written. -/
theorem private_predictions_consumed
    (s : VIP δ (Perceptron len tableSize weightLen) n snapInterval ghrLen)
    (tr : List (Branch (ρ × Nat))) :
    (∀ i, ((afterTrace s.reset tr).privateBP i).Settled ∧
      Records ((afterTrace s.reset tr).privateBP i).realHistory (routedOutcomes s.reset i tr)) ∧
    ∀ b, PairConsumes (afterTrace s.reset tr) b := by
  have hinv : ∀ i, ((afterTrace s.reset tr).privateBP i).Settled ∧
      Records ((afterTrace s.reset tr).privateBP i).realHistory (routedOutcomes s.reset i tr) := by
    induction tr using List.reverseRecOn with
    | nil => exact fun i => ⟨Perceptron.settled_reset (s.privateBP i), Records.nil⟩
    | append_singleton tr b ih =>
      intro i
      obtain ⟨hsettled, hreal⟩ := execute_settled (fun j => (ih j).1) b i
      rw [afterTrace, Mealy.run_snoc]
      refine ⟨hsettled, ?_⟩
      rw [hreal, routedOutcomes_snoc]
      split_ifs
      · exact (ih i).2.shiftIn b.taken
      · rw [List.append_nil]
        exact (ih i).2
  exact ⟨hinv, pair_consumes (fun i => (hinv i).1)⟩

end

end VIP

end SandboxPredictor
