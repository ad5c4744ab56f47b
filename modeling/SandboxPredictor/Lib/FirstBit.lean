import Mathlib.Data.Set.Card
import Mathlib.Data.Nat.Bitwise
import Mathlib.Order.Interval.Finset.Nat

/- The first set bit of a number of `k` bits: over all of them it is bit `j` in
   `2^(k - 1 - j)`, and there is none in one. The recursion is that of a loop that
   looks at the lowest bit and shifts it out. -/
namespace FirstBit

/-- Bit `j` is set, and no bit below it. -/
def IsFirst (r j : Nat) : Prop := r.testBit j = true ∧ ∀ i < j, r.testBit i = false

/-- The first `k` bits are not set. -/
def NoneOf (r k : Nat) : Prop := ∀ i < k, r.testBit i = false

theorem isFirst_zero {r : Nat} : IsFirst r 0 ↔ r % 2 = 1 := by
  simp [IsFirst, Nat.testBit_zero]

theorem isFirst_succ {r j : Nat} : IsFirst r (j + 1) ↔ r % 2 = 0 ∧ IsFirst (r / 2) j := by
  simp only [IsFirst, Nat.testBit_succ]
  refine ⟨?_, ?_⟩
  · intro ⟨hj, hbelow⟩
    have h0 := hbelow 0 (Nat.succ_pos j)
    rw [Nat.testBit_zero, decide_eq_false_iff_not] at h0
    refine ⟨by omega, hj, ?_⟩
    intro i hi
    have hi' := hbelow (i + 1) (Nat.succ_lt_succ hi)
    rwa [Nat.testBit_succ] at hi'
  · intro ⟨heven, hj, hbelow⟩
    refine ⟨hj, ?_⟩
    intro i hi
    cases i with
    | zero =>
      rw [Nat.testBit_zero, decide_eq_false_iff_not]
      omega
    | succ i =>
      rw [Nat.testBit_succ]
      exact hbelow i (Nat.lt_of_succ_lt_succ hi)

theorem ncard_below (n : Nat) : {r | r < n}.ncard = n := by
  have hcoe : {r | r < n} = ((Finset.range n : Finset Nat) : Set Nat) := by
    ext r
    simp
  rw [hcoe, Set.ncard_coe_finset, Finset.card_range]

/-- The odd numbers for `j = 0`, and for the others the halves of the even ones. -/
theorem ncard_isFirst {k j : Nat} (h : j < k) :
    {r | r < 2 ^ k ∧ IsFirst r j}.ncard = 2 ^ (k - 1 - j) := by
  induction k generalizing j with
  | zero => exact absurd h (Nat.not_lt_zero j)
  | succ k ih =>
    have hpow : 2 ^ (k + 1) = 2 * 2 ^ k := by rw [Nat.pow_succ, Nat.mul_comm]
    cases j with
    | zero =>
      have himage : {r | r < 2 ^ (k + 1) ∧ IsFirst r 0} =
          (fun q => 2 * q + 1) '' {q | q < 2 ^ k} := by
        ext r
        simp only [Set.mem_ofPred_eq, Set.mem_image, isFirst_zero]
        refine ⟨?_, ?_⟩
        · intro ⟨hlt, hodd⟩
          exact ⟨r / 2, by omega, by omega⟩
        · rintro ⟨q, hq, rfl⟩
          omega
      have hinj : Function.Injective (fun q : Nat => 2 * q + 1) := fun _ _ heq => by
        simpa using heq
      rw [himage, Set.ncard_image_of_injective _ hinj, ncard_below]
      rfl
    | succ j =>
      have himage : {r | r < 2 ^ (k + 1) ∧ IsFirst r (j + 1)} =
          (fun q => 2 * q) '' {q | q < 2 ^ k ∧ IsFirst q j} := by
        ext r
        simp only [Set.mem_ofPred_eq, Set.mem_image, isFirst_succ]
        refine ⟨?_, ?_⟩
        · intro ⟨hlt, heven, hfirst⟩
          exact ⟨r / 2, ⟨by omega, hfirst⟩, by omega⟩
        · rintro ⟨q, ⟨hq, hfirst⟩, rfl⟩
          rw [Nat.mul_div_cancel_left q (by decide)]
          exact ⟨by omega, by omega, hfirst⟩
      have hinj : Function.Injective (fun q : Nat => 2 * q) := fun _ _ heq => by
        simpa using heq
      rw [himage, Set.ncard_image_of_injective _ hinj, ih (Nat.lt_of_succ_lt_succ h)]
      congr 1
      omega

theorem noneOf_iff {r k : Nat} (hr : r < 2 ^ k) : NoneOf r k ↔ r = 0 := by
  refine ⟨?_, ?_⟩
  · intro hnone
    apply Nat.eq_of_testBit_eq
    intro i
    rw [Nat.zero_testBit]
    by_cases hi : i < k
    · exact hnone i hi
    · have hle : 2 ^ k ≤ 2 ^ i := Nat.pow_le_pow_right (by decide) (Nat.le_of_not_lt hi)
      exact Nat.testBit_lt_two_pow (Nat.lt_of_lt_of_le hr hle)
  · rintro rfl i _
    exact Nat.zero_testBit i

end FirstBit
