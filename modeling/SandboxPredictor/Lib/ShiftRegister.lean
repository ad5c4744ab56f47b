import Mathlib.Data.BitVec

/- Outcome histories kept in a shift register of `w` bits: the newest outcome is
   shifted in at bit 0 and the oldest falls off the top. `Records h outs` says
   that the register `h` holds the outcomes `outs` (oldest first), and is kept by
   `shiftIn`. `Newest h outs` says the same of the newest outcomes only, whatever
   the register held before them. -/
namespace ShiftRegister

variable {w : Nat}

/-- Shift one outcome in: `(h << 1) | (b ? 1 : 0)`. -/
def shiftIn (h : BitVec w) (b : Bool) : BitVec w := (h <<< 1) ||| (if b then 1#w else 0#w)

/-- Bit `i` of the register is the `i`-th most recent of the outcomes, and zero
before the first one. -/
def Records (h : BitVec w) (outs : List Bool) : Prop :=
  ∀ i, i < w → h.getLsbD i = outs.reverse.getD i false

theorem shiftIn_getLsbD (h : BitVec w) (b : Bool) {i : Nat} (hi : i < w) :
    (shiftIn h b).getLsbD i = if i = 0 then b else h.getLsbD (i - 1) := by
  unfold shiftIn
  cases i with
  | zero => cases b <;> simp [hi]
  | succ i =>
    have hi' : i < w := by omega
    cases b <;> simp [hi, hi', BitVec.getLsbD_eq_getElem]

theorem Records.nil : Records (0#w) [] := by
  intro i _; simp

theorem Records.shiftIn {h : BitVec w} {outs : List Bool} (hr : Records h outs) (b : Bool) :
    Records (ShiftRegister.shiftIn h b) (outs ++ [b]) := by
  intro i hi
  rw [shiftIn_getLsbD h b hi, List.reverse_append]
  cases i with
  | zero => simp
  | succ i => simpa using hr i (by omega)

/-- The outcomes `outs` are the newest ones in the register. -/
def Newest (h : BitVec w) (outs : List Bool) : Prop :=
  ∀ i, i < w → i < outs.length → outs.reverse[i]? = some (h.getLsbD i)

theorem Newest.nil (h : BitVec w) : Newest h [] :=
  fun _ _ hi => absurd hi (Nat.not_lt_zero _)

theorem Newest.shiftIn {h : BitVec w} {outs : List Bool} (hn : Newest h outs) (b : Bool) :
    Newest (ShiftRegister.shiftIn h b) (outs ++ [b]) := by
  intro i hi hlen
  rw [List.length_append, List.length_singleton] at hlen
  rw [shiftIn_getLsbD h b hi, List.reverse_append]
  cases i with
  | zero => simp
  | succ i => simpa using hn i (by omega) (by omega)

/-- The register is determined by what it records. -/
theorem Records.unique {h h' : BitVec w} {outs : List Bool} (hr : Records h outs)
    (hr' : Records h' outs) : h = h' := by
  apply BitVec.eq_of_getLsbD_eq
  intro i hi
  rw [hr i hi, hr' i hi]

end ShiftRegister
