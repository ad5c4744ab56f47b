import SandboxPredictor.Perceptron

/- The arithmetic of `Perceptron` in the `int` of the source.

   The sums of the model are integers. Here the loop of `predict` is run on 32 bits
   as well (`partialSumInt`), where sums wrap. Whatever is called, in whatever
   order, the weights stay in `[weightMin, weightMax]`, so that each step of the
   loop moves the sum by `2^(weightLen - 1)` at most, and as long as
   `(GHRLen + 1) * 2^(weightLen - 1)` fits no sum wraps, nor does its absolute
   value. -/
namespace SandboxPredictor

namespace Perceptron

variable {ghrLen tableSize weightLen : Nat}

/-- The sum of `predict` after `n` iterations of its loop. -/
def partialSum (p : Perceptron ghrLen tableSize weightLen) (idx : Nat) (history : Word)
    (n : Nat) : Int :=
  (List.range n).foldl
    (fun sum i => if bitAt history i then sum + p.weights idx i else sum - p.weights idx i)
    (p.bias idx)

/-- The same on an `int`. -/
def partialSumInt (p : Perceptron ghrLen tableSize weightLen) (idx : Nat) (history : Word)
    (n : Nat) : BitVec 32 :=
  (List.range n).foldl
    (fun sum i => if bitAt history i then sum + BitVec.ofInt 32 (p.weights idx i)
      else sum - BitVec.ofInt 32 (p.weights idx i))
    (BitVec.ofInt 32 (p.bias idx))

/-- `abs(sum)`, as the confidence of the prediction. -/
def confidenceInt (p : Perceptron ghrLen tableSize weightLen) (idx : Nat) (history : Word) : Nat :=
  (p.partialSumInt idx history ghrLen).abs.toNat

/-- The bound of the sums. -/
def sumBound (ghrLen weightLen : Nat) : Nat := (ghrLen + 1) * 2 ^ (weightLen - 1)

/-- What holds whatever has been called: the weights and the saved sums are in range. -/
structure Bounded (p : Perceptron ghrLen tableSize weightLen) : Prop where
  inRange : p.InRange
  saved : ∀ i, (p.pendingBP.storage i).sum.natAbs ≤ sumBound ghrLen weightLen

section
variable {p : Perceptron ghrLen tableSize weightLen} {idx : Nat} {history : Word} {n : Nat}

theorem partialSum_succ (p : Perceptron ghrLen tableSize weightLen) (idx : Nat) (history : Word)
    (n : Nat) : p.partialSum idx history (n + 1) =
      if bitAt history n then p.partialSum idx history n + p.weights idx n
      else p.partialSum idx history n - p.weights idx n := by
  simp only [partialSum, List.range_succ, List.foldl_append, List.foldl_cons, List.foldl_nil]

theorem partialSumInt_succ (p : Perceptron ghrLen tableSize weightLen) (idx : Nat)
    (history : Word) (n : Nat) : p.partialSumInt idx history (n + 1) =
      if bitAt history n then p.partialSumInt idx history n + BitVec.ofInt 32 (p.weights idx n)
      else p.partialSumInt idx history n - BitVec.ofInt 32 (p.weights idx n) := by
  simp only [partialSumInt, List.range_succ, List.foldl_append, List.foldl_cons, List.foldl_nil]

/-- A weight in range has at most the absolute value of the lower bound. -/
theorem natAbs_le_of_range {x : Int} (hx : weightMin weightLen ≤ x ∧ x ≤ weightMax weightLen) :
    x.natAbs ≤ 2 ^ (weightLen - 1) := by
  have hcast : ((2 ^ (weightLen - 1) : Nat) : Int) = 2 ^ (weightLen - 1) := by simp
  simp only [weightMin, weightMax] at hx
  omega

/-- After `n` iterations `n` weights and the bias have been added or subtracted. -/
theorem partialSum_bound (h : p.InRange) (idx : Nat) (history : Word) (n : Nat) :
    (p.partialSum idx history n).natAbs ≤ sumBound n weightLen := by
  induction n with
  | zero => simpa [partialSum, sumBound] using natAbs_le_of_range (h.bias idx)
  | succ n ih =>
    have hweight := natAbs_le_of_range (h.weights idx n)
    have hbound : sumBound (n + 1) weightLen = sumBound n weightLen + 2 ^ (weightLen - 1) :=
      Nat.succ_mul (n + 1) _
    rw [partialSum_succ, hbound]
    split <;> omega

theorem sumBound_mono {m : Nat} (hmn : m ≤ n) : sumBound m weightLen ≤ sumBound n weightLen :=
  Nat.mul_le_mul_right _ (Nat.succ_le_succ hmn)

/-- Integers below `2^31` are the same as an `int`. -/
theorem bmod_of_natAbs_lt {x : Int} (hx : x.natAbs < 2 ^ 31) : x.bmod (2 ^ 32) = x := by
  apply Int.bmod_eq_of_le <;> omega

/-- **No sum wraps.** -/
theorem partialSumInt_toInt (h : p.InRange) (hfit : sumBound ghrLen weightLen < 2 ^ 31)
    (idx : Nat) (history : Word) (hn : n ≤ ghrLen) :
    (p.partialSumInt idx history n).toInt = p.partialSum idx history n := by
  induction n with
  | zero =>
    have hbias := partialSum_bound h idx history 0
    have hle : sumBound 0 weightLen ≤ sumBound ghrLen weightLen := sumBound_mono hn
    rw [partialSumInt, List.range_zero, List.foldl_nil, BitVec.toInt_ofInt]
    exact bmod_of_natAbs_lt (by simpa [partialSum] using hbias.trans_lt (hle.trans_lt hfit))
  | succ n ih =>
    have hsum := partialSum_bound h idx history (n + 1)
    have hle : sumBound (n + 1) weightLen ≤ sumBound ghrLen weightLen := sumBound_mono hn
    have hpow : 2 ^ (weightLen - 1) ≤ sumBound ghrLen weightLen :=
      Nat.le_mul_of_pos_left _ (Nat.succ_pos ghrLen)
    have hweight := natAbs_le_of_range (h.weights idx n)
    have hword : (BitVec.ofInt 32 (p.weights idx n)).toInt = p.weights idx n := by
      rw [BitVec.toInt_ofInt]
      exact bmod_of_natAbs_lt (by omega)
    rw [partialSum_succ] at hsum ⊢
    rw [partialSumInt_succ]
    split
    next hbit =>
      rw [if_pos hbit] at hsum
      rw [BitVec.toInt_add, ih (by omega), hword]
      exact bmod_of_natAbs_lt (by omega)
    next hbit =>
      rw [if_neg hbit] at hsum
      rw [BitVec.toInt_sub, ih (by omega), hword]
      exact bmod_of_natAbs_lt (by omega)

/-- Nor does the absolute value of the last one. -/
theorem confidenceInt_eq (h : p.InRange) (hfit : sumBound ghrLen weightLen < 2 ^ 31) (idx : Nat)
    (history : Word) : p.confidenceInt idx history = (p.weightedSum idx history).natAbs := by
  have hbound := partialSum_bound h idx history ghrLen
  have hsum : (p.partialSumInt idx history ghrLen).toInt = p.weightedSum idx history :=
    partialSumInt_toInt h hfit idx history (le_refl ghrLen)
  have hlt : (p.weightedSum idx history).natAbs < 2 ^ 31 := hbound.trans_lt hfit
  have hword := (p.partialSumInt idx history ghrLen).isLt
  rw [BitVec.toInt_eq_msb_cond] at hsum
  rw [confidenceInt, BitVec.toNat_abs]
  split
  next hneg =>
    rw [if_pos hneg] at hsum
    omega
  next hpos =>
    rw [if_neg hpos] at hsum
    omega

/-! ## Whatever is called -/

theorem new_bounded (ghrLen tableSize weightLen : Nat) :
    Bounded (new ghrLen tableSize weightLen) :=
  ⟨reset_inRange (new ghrLen tableSize weightLen), fun _ => Nat.zero_le _⟩

theorem predictFrom_bounded (h : Bounded p) (pc history : Word) :
    Bounded (p.predictFrom pc history).2 := by
  refine ⟨predictFrom_inRange pc history h.inRange, ?_⟩
  intro i
  by_cases hi : i = p.pendingBP.tail
  · subst hi
    have hstored : (p.predictFrom pc history).2.pendingBP.storage p.pendingBP.tail =
        ⟨history, p.weightedSum (p.getIdx pc) history⟩ := Function.update_self _ _ _
    rw [hstored]
    exact partialSum_bound h.inRange _ history ghrLen
  · have hstored : (p.predictFrom pc history).2.pendingBP.storage i = p.pendingBP.storage i :=
      Function.update_of_ne hi _ _
    rw [hstored]
    exact h.saved i

/-- **Step.** Stale states may be dequeued: an update moves weights within their range
whatever it takes from the queue. -/
theorem call_bounded (h : Bounded p) (c : Call Unit) : Bounded (call p c).2 := by
  cases c with
  | predict pc => exact predictFrom_bounded h pc _
  | predictAddon pc addon addonLen => exact predictFrom_bounded h pc _
  | update pc taken draw =>
    refine ⟨update_inRange h.inRange pc taken, ?_⟩
    intro i
    have hqueue : (call p (.update pc taken draw)).2.pendingBP = p.pendingBP.dequeue.2 :=
      update_pendingBP p pc taken
    rw [hqueue]
    exact h.saved i
  | reset => exact ⟨reset_inRange p, h.saved⟩

end

/-- **The arithmetic stays in range.** After every sequence of calls, when the bound of the
sums fits in an `int`: every weight and bias is in its range, and so is every sum a
prediction has left for its update; and in a prediction from whatever history each partial
sum is below the bound and the same on an `int`, the absolute value of the last one too, so
that the confidence is the absolute value of the sum. -/
theorem arithmetic_in_range (hfit : (ghrLen + 1) * 2 ^ (weightLen - 1) < 2 ^ 31)
    (calls : List (Call Unit)) :
    let p := afterCalls (new ghrLen tableSize weightLen) calls
    (∀ idx i, weightMin weightLen ≤ p.weights idx i ∧ p.weights idx i ≤ weightMax weightLen) ∧
    (∀ idx, weightMin weightLen ≤ p.bias idx ∧ p.bias idx ≤ weightMax weightLen) ∧
    (∀ i, (p.pendingBP.storage i).sum.natAbs ≤ (ghrLen + 1) * 2 ^ (weightLen - 1)) ∧
    (∀ pc history n, n ≤ ghrLen →
      (p.partialSum (p.getIdx pc) history n).natAbs ≤ (ghrLen + 1) * 2 ^ (weightLen - 1) ∧
      (p.partialSumInt (p.getIdx pc) history n).toInt = p.partialSum (p.getIdx pc) history n) ∧
    ∀ pc history, (p.predictFrom pc history).1.confidence = p.confidenceInt (p.getIdx pc) history ∧
      p.confidenceInt (p.getIdx pc) history =
        (p.partialSum (p.getIdx pc) history ghrLen).natAbs := by
  intro p
  have h : Bounded p :=
    Mealy.run_invariant (P := Bounded) (fun _ c h => call_bounded h c) (new_bounded _ _ _) calls
  refine ⟨h.inRange.weights, h.inRange.bias, h.saved, ?_, ?_⟩
  · intro pc history n hn
    refine ⟨?_, partialSumInt_toInt h.inRange hfit _ history hn⟩
    exact (partialSum_bound h.inRange _ history n).trans (sumBound_mono hn)
  · intro pc history
    have hconfidence := confidenceInt_eq h.inRange hfit (p.getIdx pc) history
    exact ⟨hconfidence.symm, hconfidence⟩

/-- The sizes of `myperceptron.bpred`, after an update of a branch never predicted. -/
theorem arithmetic_in_range_stale :
    ((afterCalls (new 7 512 8) [.update 0x400a10 false ()]).predict 0x400a10).1.confidence =
      (afterCalls (new 7 512 8) [.update 0x400a10 false ()]).confidenceInt
        ((afterCalls (new 7 512 8) [.update 0x400a10 false ()]).getIdx 0x400a10)
        (afterCalls (new 7 512 8) [.update 0x400a10 false ()]).specHistory :=
  ((arithmetic_in_range (by decide) _).2.2.2.2 0x400a10 _).1

end Perceptron

end SandboxPredictor
