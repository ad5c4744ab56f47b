import Mathlib.Algebra.Order.BigOperators.Group.Finset
import SandboxPredictor.Perceptron

/- A `Perceptron` that sees one branch with one outcome settles on it.

   After `GHRLen` pairs the history holds this outcome `d` only. From then on
   every training moves all weights of the row up and the bias towards `d`, so
   the sum never moves away from `d`: a prediction that is right stays right. One
   that is wrong trains the row, and a row with no room left is right. -/
namespace SandboxPredictor
open ShiftRegister

namespace Perceptron

variable {ghrLen tableSize weightLen : Nat}

theorem weightedSum_eq (p : Perceptron ghrLen tableSize weightLen) (idx : Nat) (history : Word) :
    p.weightedSum idx history = p.bias idx + ∑ i ∈ Finset.range ghrLen,
      if bitAt history i then p.weights idx i else -p.weights idx i := by
  have hprefix : ∀ n, (List.range n).foldl (fun sum i => if bitAt history i
      then sum + p.weights idx i else sum - p.weights idx i) (p.bias idx) =
      p.bias idx + ∑ i ∈ Finset.range n,
        if bitAt history i then p.weights idx i else -p.weights idx i := by
    intro n
    induction n with
    | zero => simp
    | succ n ih =>
      rw [List.range_succ, List.foldl_append, ih, Finset.sum_range_succ, ← Int.add_assoc]
      simp only [List.foldl_cons, List.foldl_nil]
      split
      · rfl
      · exact Int.sub_eq_add_neg
  exact hprefix ghrLen

/-- The sum a settled perceptron predicts from. -/
def sumAt (p : Perceptron ghrLen tableSize weightLen) (pc : Word) : Int :=
  p.weightedSum (p.getIdx pc) p.realHistory

/-- The prediction for `pc` is `d`. -/
def Right (d : Bool) (pc : Word) (p : Perceptron ghrLen tableSize weightLen) : Prop :=
  decide (p.sumAt pc ≥ 0) = d

/-- Between pairs, once the history holds `d` only. -/
structure Steady (d : Bool) (p : Perceptron ghrLen tableSize weightLen) : Prop where
  settled : p.Settled
  inRange : p.InRange
  filled : ∀ i, i < ghrLen → bitAt p.realHistory i = d

/-- No counter of the row of `pc` is more than `n` moves away from its end for `d`. -/
structure Within (d : Bool) (pc : Word) (n : Nat) (p : Perceptron ghrLen tableSize weightLen) :
    Prop where
  weights : ∀ i, i < ghrLen → Saturating.room (weightMin weightLen) (weightMax weightLen) true
    (p.weights (p.getIdx pc) i) ≤ n
  bias : Saturating.room (weightMin weightLen) (weightMax weightLen) d (p.bias (p.getIdx pc)) ≤ n

section
variable {p q : Perceptron ghrLen tableSize weightLen} {pc : Word} {d : Bool} {n : Nat}

theorem Steady.predict_taken (h : Steady d p) (pc : Word) :
    (p.predict pc).1.taken = decide (p.sumAt pc ≥ 0) := by
  show decide (p.weightedSum (p.getIdx pc) p.specHistory ≥ 0) = _
  rw [h.settled.caughtUp]
  rfl

/-- The sum under a history that holds `d` only. -/
theorem Steady.sumAt_eq (h : Steady d p) (pc : Word) :
    p.sumAt pc = p.bias (p.getIdx pc) + ∑ i ∈ Finset.range ghrLen,
      if d then p.weights (p.getIdx pc) i else -p.weights (p.getIdx pc) i := by
  rw [sumAt, weightedSum_eq]
  congr 1
  apply Finset.sum_congr rfl
  intro i hi
  rw [h.filled i (Finset.mem_range.1 hi)]

/-- Weights that went up and a bias that went towards `d` predict `d` all the more. -/
theorem Right.mono (hp : Steady d p) (hq : Steady d q) (h : Right d pc p)
    (hweights : ∀ i, i < ghrLen → p.weights (p.getIdx pc) i ≤ q.weights (q.getIdx pc) i)
    (hbias : if d then p.bias (p.getIdx pc) ≤ q.bias (q.getIdx pc)
      else q.bias (q.getIdx pc) ≤ p.bias (p.getIdx pc)) : Right d pc q := by
  simp only [Right] at h ⊢
  rw [hp.sumAt_eq] at h
  rw [hq.sumAt_eq]
  cases d with
  | true =>
    have hsum : ∑ i ∈ Finset.range ghrLen, p.weights (p.getIdx pc) i ≤
        ∑ i ∈ Finset.range ghrLen, q.weights (q.getIdx pc) i :=
      Finset.sum_le_sum fun i hi => hweights i (Finset.mem_range.1 hi)
    simp only [if_true, decide_eq_true_eq] at h hbias ⊢
    omega
  | false =>
    have hsum : ∑ i ∈ Finset.range ghrLen, -q.weights (q.getIdx pc) i ≤
        ∑ i ∈ Finset.range ghrLen, -p.weights (p.getIdx pc) i :=
      Finset.sum_le_sum fun i hi => Int.neg_le_neg (hweights i (Finset.mem_range.1 hi))
    simp only [Bool.false_eq_true, if_false, decide_eq_false_iff_not] at h hbias ⊢
    omega

/-- A row with no room left predicts `d`: the bounds are not symmetric, and a sum of 0 is
taken. -/
theorem Within.right (h : Within d pc 0 p) (hp : Steady d p) : Right d pc p := by
  have hmax := weightMax_nonneg weightLen
  have hbias := Saturating.eq_of_room (hp.inRange.bias (p.getIdx pc)) (Nat.le_zero.1 h.bias)
  have hweights : ∀ i, i < ghrLen → p.weights (p.getIdx pc) i = weightMax weightLen := by
    intro i hi
    exact Saturating.eq_of_room (hp.inRange.weights _ i) (Nat.le_zero.1 (h.weights i hi))
  have hsum : p.sumAt pc = p.bias (p.getIdx pc) +
      ghrLen * (if d then weightMax weightLen else -weightMax weightLen) := by
    rw [hp.sumAt_eq]
    congr 1
    calc ∑ i ∈ Finset.range ghrLen,
          (if d then p.weights (p.getIdx pc) i else -p.weights (p.getIdx pc) i)
        = ∑ i ∈ Finset.range ghrLen, if d then weightMax weightLen else -weightMax weightLen := by
          apply Finset.sum_congr rfl
          intro i hi
          rw [hweights i (Finset.mem_range.1 hi)]
      _ = ghrLen * (if d then weightMax weightLen else -weightMax weightLen) := by
          rw [Finset.sum_const, Finset.card_range, nsmul_eq_mul]
  have hprod : 0 ≤ (ghrLen : Int) * weightMax weightLen :=
    Int.mul_nonneg (Int.natCast_nonneg _) hmax
  simp only [Right, hsum, hbias]
  cases d with
  | true =>
    simp only [if_true, decide_eq_true_eq]
    omega
  | false =>
    simp only [Bool.false_eq_true, if_false, decide_eq_false_iff_not, weightMin, Int.mul_neg]
    omega

/-- The rows after one pair, from the sum the prediction read. -/
theorem pair_weights_bias (h : p.Settled) (pc : Word) (taken : Bool) :
    (((p.predict pc).2.update pc taken).weights, ((p.predict pc).2.update pc taken).bias) =
      let q := if (decide (p.sumAt pc ≥ 0) != taken) ||
        decide ((p.sumAt pc).natAbs < threshold ghrLen)
        then p.train (p.getIdx pc) p.realHistory taken else p
      (q.weights, q.bias) := by
  have hstate : (p.predict pc).2.pendingBP.dequeue.1 = ⟨p.realHistory, p.sumAt pc⟩ := by
    rw [predict, p.predictFrom_dequeue pc p.specHistory h, h.caughtUp]
    rfl
  rw [update_weights_bias, hstate]
  dsimp only
  split <;> rfl

/-- A pair that keeps the perceptron steady. -/
theorem Steady.pair (h : Steady d p) (pc : Word) (hlen : ghrLen ≤ 64) :
    Steady d ((p.predict pc).2.update pc d) := by
  obtain ⟨hsettled, hreal⟩ := p.pair_settled pc p.specHistory h.settled d
  refine ⟨hsettled, update_inRange (p.predictFrom_inRange pc _ h.inRange) pc d, ?_⟩
  intro i hi
  rw [bitAt_eq]
  show ((p.predictFrom pc p.specHistory).2.update pc d).realHistory.getLsbD i = d
  rw [hreal, shiftIn_getLsbD _ _ (by omega)]
  split
  · rfl
  · rw [← bitAt_eq]
    exact h.filled (i - 1) (by omega)

/-- A training moves every weight of the row towards its end for `d`. -/
theorem Steady.train_weights (h : Steady d p) (pc : Word) {i : Nat} (hi : i < ghrLen) :
    (p.train (p.getIdx pc) p.realHistory d).weights (p.getIdx pc) i =
      Saturating.step (weightMin weightLen) (weightMax weightLen) true
        (p.weights (p.getIdx pc) i) := by
  rw [Perceptron.train_weights p _ _ _ hi, if_pos rfl, h.filled i hi, beq_self_eq_true]

theorem train_bias_self (p : Perceptron ghrLen tableSize weightLen) (idx : Nat) (history : Word)
    (taken : Bool) : (p.train idx history taken).bias idx =
      Saturating.step (weightMin weightLen) (weightMax weightLen) taken (p.bias idx) := by
  rw [train_bias, if_pos rfl]

/-- A branch predicted right stays so. -/
theorem Right.pair (hright : Right d pc p) (h : Steady d p) (hlen : ghrLen ≤ 64) :
    Right d pc ((p.predict pc).2.update pc d) := by
  obtain ⟨hweights, hbias⟩ := Prod.mk.inj (pair_weights_bias h.settled pc d)
  apply Right.mono h (h.pair pc hlen) hright
  · intro i hi
    show _ ≤ ((p.predict pc).2.update pc d).weights (p.getIdx pc) i
    rw [hweights]
    split
    · rw [h.train_weights pc hi]
      exact Saturating.le_step _ _ _
    · exact le_refl _
  · cases d with
    | true =>
      show _ ≤ ((p.predict pc).2.update pc true).bias (p.getIdx pc)
      rw [hbias]
      split
      · rw [train_bias_self]
        exact Saturating.le_step _ _ _
      · exact le_refl _
    | false =>
      show ((p.predict pc).2.update pc false).bias (p.getIdx pc) ≤ _
      rw [hbias]
      split
      · rw [train_bias_self]
        exact Saturating.step_le _ _ _
      · exact le_refl _

/-- A wrong prediction trains the row. -/
theorem Within.pair (hwithin : Within d pc (n + 1) p) (h : Steady d p)
    (hwrong : ¬ Right d pc p) : Within d pc n ((p.predict pc).2.update pc d) := by
  obtain ⟨hweights, hbias⟩ := Prod.mk.inj (pair_weights_bias h.settled pc d)
  have htrains : (decide (p.sumAt pc ≥ 0) != d) = true := by
    rw [bne_iff_ne]
    exact hwrong
  rw [htrains, Bool.true_or, if_pos rfl] at hweights hbias
  refine ⟨?_, ?_⟩
  · intro i hi
    show Saturating.room _ _ true (((p.predict pc).2.update pc d).weights (p.getIdx pc) i) ≤ n
    rw [hweights, h.train_weights pc hi, Saturating.room_step (h.inRange.weights _ i)]
    exact Nat.sub_le_of_le_add (hwithin.weights i hi)
  · show Saturating.room _ _ d (((p.predict pc).2.update pc d).bias (p.getIdx pc)) ≤ n
    rw [hbias, train_bias_self, Saturating.room_step (h.inRange.bias _)]
    exact Nat.sub_le_of_le_add hwithin.bias

/-- **Step.** The prediction is right after the pair, or one move less is left. -/
theorem right_or_within_pair (h : Steady d p) (hlen : ghrLen ≤ 64)
    (hstep : Right d pc p ∨ Within d pc (n + 1) p) :
    Right d pc ((p.predict pc).2.update pc d) ∨
      Within d pc n ((p.predict pc).2.update pc d) := by
  by_cases hright : Right d pc p
  · exact Or.inl (hright.pair h hlen)
  · exact Or.inr ((hstep.resolve_left hright).pair h hright)

/-! ## Runs on one branch -/

/-- `n` pairs of the branch at `pc` with outcome `d`. -/
def constantTrace (pc : Word) (d : Bool) (n : Nat) : List (Branch Unit) :=
  List.replicate n ⟨pc, d, ()⟩

theorem constantTrace_succ (pc : Word) (d : Bool) (n : Nat) :
    constantTrace pc d (n + 1) = constantTrace pc d n ++ [⟨pc, d, ()⟩] :=
  List.replicate_succ'

theorem execute_settled_inRange (hp : p.Settled ∧ p.InRange) (b : Branch Unit) :
    (execute p b).2.Settled ∧ (execute p b).2.InRange :=
  ⟨(p.pair_settled b.pc p.specHistory hp.1 b.taken).1,
    update_inRange (p.predictFrom_inRange b.pc _ hp.2) b.pc b.taken⟩

/-- After `GHRLen` pairs the history holds `d` only, and no counter has more than
`2^weightLen` moves to go. -/
theorem steady_of_warmup (hp : p.Settled ∧ p.InRange) (pc : Word) (d : Bool)
    (hlen : ghrLen ≤ 64) : Steady d (afterTrace p (constantTrace pc d ghrLen)) := by
  have hinv := Mealy.run_invariant
    (P := fun s : Perceptron ghrLen tableSize weightLen => s.Settled ∧ s.InRange)
    (fun _ b hs => execute_settled_inRange hs b) hp (constantTrace pc d ghrLen)
  have hnewest : ∀ n, Newest (afterTrace p (constantTrace pc d n)).realHistory
      (List.replicate n d) := by
    intro n
    induction n with
    | zero => exact Newest.nil _
    | succ n ih =>
      rw [constantTrace_succ, afterTrace, Mealy.run_snoc, List.replicate_succ']
      show Newest (((afterTrace p (constantTrace pc d n)).predict pc).2.update pc d).realHistory _
      rw [update_realHistory]
      exact ih.shiftIn d
  refine ⟨hinv.1, hinv.2, ?_⟩
  intro i hi
  have hbit := hnewest ghrLen i (by omega) (by simpa using hi)
  rw [List.reverse_replicate, List.getElem?_replicate, if_pos hi] at hbit
  rw [bitAt_eq]
  exact (Option.some.inj hbit).symm

theorem within_of_inRange (hp : p.InRange) (d : Bool) (pc : Word) :
    Within d pc (2 ^ weightLen) p := by
  have hwidth : weightMax weightLen - weightMin weightLen ≤ ((2 ^ weightLen : Nat) : Int) := by
    have hpos : (0 : Int) < 2 ^ weightLen := Int.pow_pos (by decide)
    have hcast : ((2 ^ weightLen : Nat) : Int) = 2 ^ weightLen := by simp
    cases weightLen with
    | zero => simp [weightMax, weightMin]
    | succ m =>
      simp only [weightMin, weightMax, Nat.add_sub_cancel, pow_succ] at hcast ⊢
      omega
  exact ⟨fun i _ => Saturating.room_le (hp.weights _ i) hwidth,
    Saturating.room_le (hp.bias _) hwidth⟩

/-- **Run.** Of the moves of the row, `n` pairs leave `2^weightLen - n`, unless the branch is
predicted right already. -/
theorem right_or_within_run (h : Steady d p) (pc : Word) (hlen : ghrLen ≤ 64) (n : Nat)
    (hn : n ≤ 2 ^ weightLen) :
    Steady d (afterTrace p (constantTrace pc d n)) ∧
      (Right d pc (afterTrace p (constantTrace pc d n)) ∨
        Within d pc (2 ^ weightLen - n) (afterTrace p (constantTrace pc d n))) := by
  induction n with
  | zero => exact ⟨h, Or.inr (within_of_inRange h.inRange d pc)⟩
  | succ n ih =>
    obtain ⟨hsteady, hstep⟩ := ih (by omega)
    rw [constantTrace_succ, afterTrace, Mealy.run_snoc]
    refine ⟨hsteady.pair pc hlen, right_or_within_pair hsteady hlen ?_⟩
    rw [show 2 ^ weightLen - (n + 1) + 1 = 2 ^ weightLen - n by omega]
    exact hstep

/-- **The perceptron settles on a constant branch.** From any state that pairs reach, when
only the branch at `pc` is executed, with outcome `d`, no prediction after the first
`GHRLen + 2^weightLen` pairs is wrong. -/
theorem constant_branch_settles (p : Perceptron ghrLen tableSize weightLen)
    (tr : List (Branch Unit)) (pc : Word) (d : Bool) (n : Nat) (hlen : ghrLen ≤ 64) :
    ∀ pred ∈ (predictions (afterTrace p.reset tr) (constantTrace pc d n)).drop
      (ghrLen + 2 ^ weightLen), pred.taken = d := by
  have hstart := Mealy.run_invariant
    (P := fun s : Perceptron ghrLen tableSize weightLen => s.Settled ∧ s.InRange)
    (fun _ b hs => execute_settled_inRange hs b) ⟨settled_reset p, reset_inRange p⟩ tr
  rcases Nat.lt_or_ge n (ghrLen + 2 ^ weightLen) with hn | hn
  · have hshort : (predictions (afterTrace p.reset tr) (constantTrace pc d n)).length ≤
        ghrLen + 2 ^ weightLen := by
      rw [predictions, Mealy.length_outputs, constantTrace, List.length_replicate]
      exact hn.le
    rw [List.drop_eq_nil_of_le hshort]
    exact fun _ hpred => absurd hpred List.not_mem_nil
  · have hsplit : constantTrace pc d n = constantTrace pc d ghrLen ++
        constantTrace pc d (2 ^ weightLen) ++
          constantTrace pc d (n - (ghrLen + 2 ^ weightLen)) := by
      simp only [constantTrace, ← List.replicate_add]
      congr 1
      omega
    have hlength : ghrLen + 2 ^ weightLen =
        (constantTrace pc d ghrLen ++ constantTrace pc d (2 ^ weightLen)).length := by
      simp [constantTrace]
    rw [hsplit, predictions, hlength, Mealy.drop_outputs, Mealy.run_append]
    obtain ⟨hsteady, hdone⟩ := right_or_within_run (steady_of_warmup hstart pc d hlen) pc hlen
      (2 ^ weightLen) (le_refl _)
    -- after the last move the prediction is right, and it stays right
    have hright := hdone.elim id fun hwithin => by
      rw [Nat.sub_self] at hwithin
      exact hwithin.right hsteady
    apply Mealy.forall_outputs (C := fun b : Branch Unit => b = ⟨pc, d, ()⟩)
      (I := fun s => Steady d s ∧ Right d pc s) (G := fun pred : Prediction => pred.taken = d) ?_ ?_
      ⟨hsteady, hright⟩
    · rintro s b ⟨hs, hr⟩ rfl
      exact ⟨(hs.predict_taken pc).trans hr, hs.pair pc hlen, hr.pair hs hlen⟩
    · exact fun b hb => List.eq_of_mem_replicate hb

/-- A row that twelve pairs have trained the other way. -/
theorem constant_branch_settles_opposite :
    let p := afterTrace (new 4 2 3).reset (constantTrace 0x400a10 true 12)
    ((predictions p (constantTrace 0x400a10 false 24)).drop (4 + 2 ^ 3)).all
      (fun pred => !pred.taken) = true := by
  intro p
  rw [List.all_eq_true]
  intro pred hpred
  have hright := constant_branch_settles (new 4 2 3) (constantTrace 0x400a10 true 12) 0x400a10
    false 24 (by decide) pred hpred
  rw [hright]
  rfl

end

end Perceptron

end SandboxPredictor
