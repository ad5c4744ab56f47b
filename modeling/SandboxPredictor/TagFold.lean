import SandboxPredictor.Lib.XorSum
import SandboxPredictor.TagTable

/- `fold` (`tagtable.cc`), which hashes the history for the index and the tag of a
   table.

   The loop takes `x`, `x >> length`, `x >> 2 * length`, ... into `out` without a
   mask, until what is left of `x` is 0, and masks once at the end. The mask
   commutes with the exclusive or, so what is returned is the exclusive or of the
   chunks of `length` bits (`fold_eq`). It is linear in `x`, and each bit of a
   history goes to one bit of the index. -/
namespace SandboxPredictor

/-- The number of chunks of `length` bits in 64: `64 / length`, rounded up. -/
def chunkCount (length : Nat) : Nat := (64 + length - 1) / length

/-- Chunk `k` of `x`: its bits from `k * length` on, `length` of them. -/
def chunk (x : Word) (length k : Nat) : Word := (x >>> (k * length)) &&& lowMask length

section
variable {length : Nat}

theorem le_chunkCount_mul (hpos : 0 < length) : 64 ≤ chunkCount length * length := by
  have hdiv := Nat.div_add_mod (64 + length - 1) length
  have hmod := Nat.mod_lt (64 + length - 1) hpos
  rw [chunkCount, Nat.mul_comm]
  omega

theorem chunkCount_le (hpos : 0 < length) : chunkCount length ≤ 64 := by
  rw [chunkCount, Nat.div_le_iff_le_mul_add_pred hpos]
  have hle : 64 ≤ length * 64 := Nat.le_mul_of_pos_left 64 hpos
  omega

/-! ## The loop -/

/-- After `fuel` iterations `fuel` shifts of `x` are in `out`. -/
theorem foldLoop_eq (length fuel : Nat) (x out : Word) : foldLoop length fuel x out =
    (x >>> (fuel * length), out ^^^ xorSum (fun k => x >>> (k * length)) fuel) := by
  induction fuel generalizing x out with
  | zero => simp [foldLoop]
  | succ fuel ih =>
    simp only [foldLoop]
    split
    next h0 =>
      -- the loop has ended, and the shifts left out are 0
      have hzero : xorSum (fun k => x >>> (k * length)) (fuel + 1) = 0 :=
        xorSum.eq_zero (fun k _ => by simp [h0])
      rw [hzero]
      simp [h0]
    next =>
      rw [ih, xorSum.succ_left, BitVec.xor_assoc]
      simp only [← BitVec.shiftRight_add, Nat.zero_mul, BitVec.ushiftRight_zero, Nat.add_mul,
        Nat.one_mul, Nat.add_comm length]

theorem shift_eq_zero (hpos : 0 < length) (x : Word) {k : Nat} (hk : chunkCount length ≤ k) :
    x >>> (k * length) = 0 := by
  apply BitVec.ushiftRight_eq_zero
  exact (le_chunkCount_mul hpos).trans (Nat.mul_le_mul_right length hk)

/-- The loop ends within `chunkCount length` iterations: nothing is left of `x`, and further
iterations change nothing. -/
theorem foldLoop_ends (hpos : 0 < length) (x : Word) {fuel : Nat}
    (hfuel : chunkCount length ≤ fuel) : foldLoop length fuel x 0 =
      (0, xorSum (fun k => x >>> (k * length)) (chunkCount length)) := by
  have hsum := xorSum.eq_of_le hfuel fun k hk _ => shift_eq_zero hpos x hk
  rw [foldLoop_eq, shift_eq_zero hpos x hfuel, hsum]
  exact Prod.ext rfl BitVec.zero_xor

/-! ## The chunks -/

theorem fold_eq (hpos : 0 < length) (x : Word) :
    fold x length = xorSum (chunk x length) (chunkCount length) := by
  rw [fold, foldLoop_ends hpos x (chunkCount_le hpos)]
  exact xorSum.and _ _ _

theorem fold_xor (hpos : 0 < length) (x y : Word) :
    fold (x ^^^ y) length = fold x length ^^^ fold y length := by
  rw [fold_eq hpos, fold_eq hpos, fold_eq hpos, ← xorSum.xor]
  apply xorSum.congr
  intro k _
  rw [chunk, BitVec.ushiftRight_xor_distrib, xor_and_distrib]
  rfl

/-- A word that is a single chunk. -/
theorem fold_of_lt (hpos : 0 < length) {x : Word} (hx : x.toNat < 2 ^ length) :
    fold x length = x := by
  have hcount : 0 < chunkCount length := by
    have hmul := le_chunkCount_mul hpos
    by_contra h0
    rw [Nat.eq_zero_of_not_pos h0] at hmul
    omega
  have hhigh : ∀ i, length ≤ i → x.getLsbD i = false := by
    intro i hi
    rw [← BitVec.testBit_toNat]
    exact Nat.testBit_lt_two_pow (Nat.lt_of_lt_of_le hx (Nat.pow_le_pow_right (by decide) hi))
  have hrest : ∀ k < chunkCount length, k ≠ 0 → chunk x length k = 0 := by
    intro k _ hk
    have hle : length ≤ k * length := Nat.le_mul_of_pos_left length (Nat.pos_of_ne_zero hk)
    apply BitVec.eq_of_getLsbD_eq
    intro i _
    rw [chunk, BitVec.getLsbD_and, BitVec.getLsbD_ushiftRight, hhigh _ (by omega)]
    simp
  rw [fold_eq hpos, xorSum.single hcount hrest]
  apply BitVec.eq_of_getLsbD_eq
  intro i hi
  rw [chunk, BitVec.getLsbD_and, lowMask_getLsbD length hi, Nat.zero_mul,
    BitVec.ushiftRight_zero]
  by_cases hlen : i < length
  · simp [hlen]
  · simp [hhigh i (by omega)]

/-- One bit of `x` goes to one bit of the fold. -/
theorem fold_bit (hpos : 0 < length) {i : Nat} (hi : i < 64) :
    fold (1#64 <<< i) length = 1#64 <<< (i % length) := by
  have hdiv := Nat.div_add_mod i length
  have hlt := Nat.mod_lt i hpos
  rw [Nat.mul_comm] at hdiv
  have hbit : ∀ k j, j < 64 → (chunk (1#64 <<< i) length k).getLsbD j =
      decide (j < length ∧ i = k * length + j) := by
    intro k j hj
    show ((BitVec.twoPow 64 i >>> (k * length)) &&& lowMask length).getLsbD j = _
    rw [BitVec.getLsbD_and, lowMask_getLsbD length hj, BitVec.getLsbD_ushiftRight,
      BitVec.getLsbD_twoPow]
    simp [hi, Bool.and_comm]
  have hown : chunk (1#64 <<< i) length (i / length) = 1#64 <<< (i % length) := by
    apply BitVec.eq_of_getLsbD_eq
    intro j hj
    rw [hbit _ j hj]
    show _ = (BitVec.twoPow 64 (i % length)).getLsbD j
    rw [BitVec.getLsbD_twoPow, Bool.eq_iff_iff]
    simp only [decide_eq_true_eq, Bool.and_eq_true]
    omega
  have hcount : i / length < chunkCount length := by
    have hmul := le_chunkCount_mul hpos
    rw [Nat.div_lt_iff_lt_mul hpos]
    omega
  have hother : ∀ k < chunkCount length, k ≠ i / length → chunk (1#64 <<< i) length k = 0 := by
    intro k _ hk
    apply BitVec.eq_of_getLsbD_eq
    intro j hj
    show _ = (0#64).getLsbD j
    rw [hbit k j hj, BitVec.getLsbD_zero, decide_eq_false_iff_not]
    rintro ⟨hjlt, heq⟩
    apply hk
    rw [heq, Nat.mul_comm, Nat.mul_add_div hpos, Nat.div_eq_of_lt hjlt, Nat.add_zero]
  rw [fold_eq hpos, xorSum.single hcount hother, hown]

/-! ## The index -/

/-- Flipping a bit of the history flips a bit of the index. -/
theorem TagTable.getIdx_flip {idxLen tagLen : Nat} (hpos : 0 < idxLen)
    (t : TagTable idxLen tagLen) (pc history : Word) {i : Nat} (hi : i < 64) :
    t.getIdx pc (history ^^^ 1#64 <<< i) = t.getIdx pc history ^^^ 1#64 <<< (i % idxLen) := by
  have hkept : (1#64 <<< (i % idxLen)) &&& lowMask idxLen = 1#64 <<< (i % idxLen) := by
    have hmod := Nat.mod_lt i hpos
    apply BitVec.eq_of_getLsbD_eq
    intro j hj
    show (BitVec.twoPow 64 (i % idxLen) &&& _).getLsbD j = (BitVec.twoPow 64 (i % idxLen)).getLsbD j
    rw [BitVec.getLsbD_and, lowMask_getLsbD idxLen hj, BitVec.getLsbD_twoPow, Bool.eq_iff_iff]
    simp only [Bool.and_eq_true, decide_eq_true_eq]
    omega
  simp only [getIdx]
  rw [fold_xor hpos, fold_bit hpos hi, ← BitVec.xor_assoc, xor_and_distrib, hkept]

/-- **`fold` is the exclusive or of the chunks.** For every length that a table can have:
its loop ends within `64 / length` iterations, rounded up, and returns the exclusive or of
the chunks of `length` bits, a number below `2^length`; it returns what is below `2^length`
as it is, and commutes with the exclusive or; and flipping one bit of a history changes one
bit of the index of every branch. -/
theorem fold_xors_chunks (hpos : 0 < length) (hlen : length ≤ 30) (x : Word) :
    (foldLoop length (chunkCount length) x 0).1 = 0 ∧
    (∀ fuel, chunkCount length ≤ fuel →
      foldLoop length fuel x 0 = foldLoop length (chunkCount length) x 0) ∧
    fold x length = xorSum (chunk x length) (chunkCount length) ∧
    (fold x length).toNat < 2 ^ length ∧
    (x.toNat < 2 ^ length → fold x length = x) ∧
    (∀ y, fold (x ^^^ y) length = fold x length ^^^ fold y length) ∧
    ∀ (tagLen : Nat) (t : TagTable length tagLen) (pc : Word) (i : Nat), i < 64 →
      ∃! j, (t.getIdx pc (x ^^^ 1#64 <<< i)).getLsbD j ≠ (t.getIdx pc x).getLsbD j := by
  have hends := foldLoop_ends hpos x (le_refl (chunkCount length))
  refine ⟨?_, ?_, fold_eq hpos x, and_lowMask_toNat_lt _ length, fold_of_lt hpos, fold_xor hpos x, ?_⟩
  · rw [hends]
  · intro fuel hfuel
    rw [foldLoop_ends hpos x hfuel, hends]
  · intro tagLen t pc i hi
    have hmod := Nat.mod_lt i hpos
    have hbits : ∀ j, (t.getIdx pc (x ^^^ 1#64 <<< i)).getLsbD j =
        ((t.getIdx pc x).getLsbD j ^^ decide (i % length = j)) := by
      intro j
      rw [t.getIdx_flip hpos pc x hi, BitVec.getLsbD_xor]
      show (_ ^^ (BitVec.twoPow 64 (i % length)).getLsbD j) = _
      rw [BitVec.getLsbD_twoPow]
      have hlt : i % length < 64 := by omega
      simp [hlt]
    refine ⟨i % length, ?_, ?_⟩
    · dsimp only
      rw [hbits]
      simp
    · intro j hj
      rw [hbits] at hj
      by_contra hne
      simp [Ne.symm hne] at hj

end

/-- A history folded to the nine bits of the index of `tage.bpred`. -/
theorem fold_xors_chunks_nine : fold 0xdeadbeef 9 = xorSum (chunk 0xdeadbeef 9) 8 :=
  (@fold_xors_chunks 9 (by decide) (by decide) 0xdeadbeef).2.2.1

end SandboxPredictor
