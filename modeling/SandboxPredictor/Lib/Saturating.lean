import Mathlib.Data.Int.Basic
import Mathlib.Tactic.SplitIfs

/- Saturating counters: `step lo hi up` moves a counter one up or down and stays
   put at the end of its range. Testing before the move (`step`), testing the end
   moved towards after it (`clampStep`) and clamping the result (`clamp`) agree on
   counters that are in range.

   A counter read by its sign says `true` from 0 on. `distance` is how many moves
   it takes to say `d`, and `room` how many until it is at its end for `d`; a move
   towards `d` takes one off both. -/
namespace Saturating

/-- One move of a counter saturating in `[lo, hi]`. -/
def step (lo hi : Int) (up : Bool) (x : Int) : Int :=
  if up then (if x < hi then x + 1 else x) else if lo < x then x - 1 else x

/-- `x` when it is in `[lo, hi]`, else the end it is beyond. -/
def clamp (lo hi x : Int) : Int := if hi < x then hi else if x < lo then lo else x

/-- The move made first, and taken back when it left the range. -/
def clampStep (lo hi : Int) (up : Bool) (x : Int) : Int :=
  if up then (if hi < x + 1 then hi else x + 1) else if x - 1 < lo then lo else x - 1

variable {lo hi x : Int}

theorem step_range (up : Bool) (hx : lo ≤ x ∧ x ≤ hi) :
    lo ≤ step lo hi up x ∧ step lo hi up x ≤ hi := by
  unfold step
  cases up <;> simp only [Bool.false_eq_true, if_true, if_false] <;> split_ifs <;> omega

theorem le_step (lo hi x : Int) : x ≤ step lo hi true x := by
  simp only [step, if_true]
  split_ifs <;> omega

theorem step_le (lo hi x : Int) : step lo hi false x ≤ x := by
  simp only [step, Bool.false_eq_true, if_false]
  split_ifs <;> omega

theorem clampStep_eq (up : Bool) (hx : lo ≤ x ∧ x ≤ hi) : clampStep lo hi up x = step lo hi up x := by
  unfold clampStep step
  cases up <;> simp only [Bool.false_eq_true, if_true, if_false] <;> split_ifs <;> omega

theorem clamp_eq (up : Bool) (hx : lo ≤ x ∧ x ≤ hi) :
    clamp lo hi (if up then x + 1 else x - 1) = step lo hi up x := by
  unfold clamp step
  cases up <;> simp only [Bool.false_eq_true, if_true, if_false] <;> split_ifs <;> omega

/-- The moves until the sign of the counter says `d`. -/
def distance (d : Bool) (x : Int) : Nat := (if d then -x else x + 1).toNat

/-- The moves until the counter is at its end for `d`. -/
def room (lo hi : Int) (d : Bool) (x : Int) : Nat := (if d then hi - x else x - lo).toNat

variable {d : Bool}

theorem distance_step (hlo : lo < 0) (hhi : 0 ≤ hi) :
    distance d (step lo hi d x) = distance d x - 1 := by
  simp only [distance, step]
  cases d <;> simp only [Bool.false_eq_true, if_true, if_false] <;> split_ifs <;> omega

theorem distance_pos (hx : decide (x ≥ 0) ≠ d) : 0 < distance d x := by
  simp only [distance]
  cases d <;> simp at hx ⊢ <;> omega

theorem distance_le {n : Nat} (hx : -n ≤ x ∧ x < n) : distance d x ≤ n := by
  simp only [distance]
  cases d <;> simp only [Bool.false_eq_true, if_true, if_false] <;> omega

theorem room_step (hx : lo ≤ x ∧ x ≤ hi) :
    room lo hi d (step lo hi d x) = room lo hi d x - 1 := by
  simp only [room, step]
  cases d <;> simp only [Bool.false_eq_true, if_true, if_false] <;> split_ifs <;> omega

theorem room_le {n : Nat} (hx : lo ≤ x ∧ x ≤ hi) (hn : hi - lo ≤ n) : room lo hi d x ≤ n := by
  simp only [room]
  cases d <;> simp only [Bool.false_eq_true, if_true, if_false] <;> omega

/-- A counter that has no room left is at its end. -/
theorem eq_of_room (hx : lo ≤ x ∧ x ≤ hi) (h : room lo hi d x = 0) : x = if d then hi else lo := by
  simp only [room] at h
  cases d <;> simp only [Bool.false_eq_true, if_true, if_false] at h ⊢ <;> omega

end Saturating
