import Mathlib.Data.BitVec

/- Exclusive ors of families of words: `xorSum f n` is `f 0 ^^^ ... ^^^ f (n - 1)`.
   It commutes with the exclusive or and with masks, and a family that is 0 but
   for one word sums up to this word. -/

theorem xor_and_distrib {w : Nat} (x y m : BitVec w) :
    (x ^^^ y) &&& m = (x &&& m) ^^^ (y &&& m) := by
  ext i
  simp [Bool.and_xor_distrib_right]

/-- The exclusive or of the first `n` words of a family. -/
def xorSum {w : Nat} (f : Nat → BitVec w) : Nat → BitVec w
  | 0 => 0
  | n + 1 => xorSum f n ^^^ f n

namespace xorSum

variable {w : Nat} {f g : Nat → BitVec w} {n : Nat}

@[simp] theorem zero (f : Nat → BitVec w) : xorSum f 0 = 0 := rfl

theorem succ (f : Nat → BitVec w) (n : Nat) : xorSum f (n + 1) = xorSum f n ^^^ f n := rfl

/-- The first word taken off. -/
theorem succ_left (f : Nat → BitVec w) (n : Nat) :
    xorSum f (n + 1) = f 0 ^^^ xorSum (fun k => f (k + 1)) n := by
  induction n with
  | zero => simp [succ]
  | succ n ih => rw [succ, ih, succ, BitVec.xor_assoc]

theorem congr (h : ∀ k < n, f k = g k) : xorSum f n = xorSum g n := by
  induction n with
  | zero => rfl
  | succ n ih =>
    rw [succ, succ, ih (fun k hk => h k (Nat.lt_succ_of_lt hk)), h n (Nat.lt_succ_self n)]

/-- Words that are 0 add nothing. -/
theorem eq_zero (h : ∀ k < n, f k = 0) : xorSum f n = 0 := by
  induction n with
  | zero => rfl
  | succ n ih =>
    rw [succ, ih (fun k hk => h k (Nat.lt_succ_of_lt hk)), h n (Nat.lt_succ_self n)]
    simp

theorem eq_of_le {m : Nat} (hmn : m ≤ n) (h : ∀ k, m ≤ k → k < n → f k = 0) :
    xorSum f n = xorSum f m := by
  induction n, hmn using Nat.le_induction with
  | base => rfl
  | succ n hmn ih =>
    rw [succ, ih (fun k hmk hk => h k hmk (Nat.lt_succ_of_lt hk)), h n hmn (Nat.lt_succ_self n)]
    simp

/-- A family with one word that is not 0. -/
theorem single {a : Nat} (ha : a < n) (h : ∀ k < n, k ≠ a → f k = 0) : xorSum f n = f a := by
  have hbefore : xorSum f a = 0 := eq_zero (fun k hk => h k (by omega) (by omega))
  have hafter : xorSum f n = xorSum f (a + 1) :=
    eq_of_le (by omega) (fun k hak hk => h k hk (by omega))
  rw [hafter, succ, hbefore]
  simp

theorem xor (f g : Nat → BitVec w) (n : Nat) :
    xorSum (fun k => f k ^^^ g k) n = xorSum f n ^^^ xorSum g n := by
  induction n with
  | zero => simp
  | succ n ih =>
    simp only [succ, ih]
    ac_rfl

theorem and (f : Nat → BitVec w) (m : BitVec w) (n : Nat) :
    xorSum f n &&& m = xorSum (fun k => f k &&& m) n := by
  induction n with
  | zero => simp
  | succ n ih =>
    simp only [succ]
    rw [← ih]
    exact xor_and_distrib _ _ _

end xorSum
