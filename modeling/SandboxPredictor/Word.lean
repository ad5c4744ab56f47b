import SandboxPredictor.Lib.ShiftRegister

/- The machine words of the predictors: `uint64_t` program counters, histories
   and tags are `Word`, and the masks and single bits the sources take of them.

   A shift of a C++ operand by its width or more has no defined value. Here
   every shift has one (the bits shifted out are lost), and what is read off a
   definition for such an amount says nothing about the program. -/
namespace SandboxPredictor

/-- `uint64_t`. -/
abbrev Word := BitVec 64

/-- `(1 << len) - 1`. -/
def lowMask (len : Nat) : Word := (1#64 <<< len) - 1#64

/-- `(h >> i) & 1`. -/
def bitAt (h : Word) (i : Nat) : Bool := (h >>> i) &&& 1#64 == 1#64

theorem bitAt_eq (h : Word) (i : Nat) : bitAt h i = h.getLsbD i := by
  unfold bitAt
  rw [BitVec.and_one_eq_setWidth_ofBool_getLsbD, BitVec.getLsbD_ushiftRight, Nat.add_zero]
  cases h.getLsbD i <;> decide

theorem lowMask_getLsbD (len : Nat) {i : Nat} (hi : i < 64) :
    (lowMask len).getLsbD i = decide (i < len) := by
  unfold lowMask
  by_cases hlen : len < 64
  · have hone : (1#64 <<< len) - 1#64 = BitVec.ofNat 64 (2 ^ len - 1) := by
      have hpos : 0 < 2 ^ len := Nat.two_pow_pos len
      have hlt : 2 ^ len < 2 ^ 64 := Nat.pow_lt_pow_right (by decide) hlen
      apply BitVec.eq_of_toNat_eq
      rw [BitVec.toNat_sub, BitVec.toNat_shiftLeft, BitVec.toNat_ofNat, BitVec.toNat_ofNat,
        Nat.shiftLeft_eq]
      omega
    rw [hone, BitVec.getLsbD_ofNat, Nat.testBit_two_pow_sub_one]
    simp [hi]
  · -- every bit of the mask is set
    have hzero : 1#64 <<< len = 0#64 := BitVec.shiftLeft_eq_zero (by omega)
    have hall : 0#64 - 1#64 = BitVec.allOnes 64 := by decide
    rw [hzero, hall, BitVec.getLsbD_allOnes]
    simp [hi]
    omega

theorem and_lowMask_toNat_lt (x : Word) (len : Nat) : (x &&& lowMask len).toNat < 2 ^ len := by
  apply Nat.lt_pow_two_of_testBit
  intro i hi
  rw [BitVec.testBit_toNat, BitVec.getLsbD_and]
  by_cases hw : i < 64
  · rw [lowMask_getLsbD len hw]
    simp [Nat.not_lt.2 hi]
  · rw [BitVec.getLsbD_of_ge _ _ (by omega), Bool.false_and]

end SandboxPredictor
