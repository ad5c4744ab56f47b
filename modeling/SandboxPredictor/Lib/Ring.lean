import Mathlib.Data.Fin.Basic
import Mathlib.Data.Nat.ModEq
import Mathlib.Logic.Function.Basic

/- A ring buffer of `n + 1` cells that keeps no count: `head` is where the next
   item is taken, `tail` where the next one is put, and they are equal when the
   ring is empty and when it is full.

   `Holds head tail storage L` says which of the two it is: the cells from `head`
   up to `tail` hold the queue `L`. It is kept by putting while there is room and
   by taking while there is something to take. -/
namespace Ring

variable {α : Type} {n : Nat}

/-- The cell `i` places after `head`. -/
def cell (head : Fin (n + 1)) (i : Nat) : Fin (n + 1) :=
  ⟨(head + i) % (n + 1), Nat.mod_lt _ (Nat.succ_pos n)⟩

@[simp] theorem cell_zero (head : Fin (n + 1)) : cell head 0 = head :=
  Fin.ext (Nat.mod_eq_of_lt head.isLt)

theorem cell_add_one (head : Fin (n + 1)) (i : Nat) : cell head i + 1 = cell head (i + 1) := by
  apply Fin.ext
  simp only [cell, Fin.val_add, Fin.val_one', Nat.add_mod_mod, Nat.mod_add_mod]
  rw [Nat.add_assoc]

theorem cell_succ (head : Fin (n + 1)) (i : Nat) : cell (head + 1) i = cell head (i + 1) := by
  apply Fin.ext
  simp only [cell, Fin.val_add, Fin.val_one', Nat.add_mod_mod, Nat.mod_add_mod]
  rw [Nat.add_assoc, Nat.add_comm 1 i]

/-- No two of `n + 1` consecutive cells are the same. -/
theorem cell_inj (head : Fin (n + 1)) {i j : Nat} (hi : i ≤ n) (hj : j ≤ n)
    (h : cell head i = cell head j) : i = j := by
  have hmod : (head.val + i) % (n + 1) = (head.val + j) % (n + 1) := congrArg Fin.val h
  have hcancel : Nat.ModEq (n + 1) i j := Nat.ModEq.add_left_cancel' head.val hmod
  exact Nat.ModEq.eq_of_lt_of_lt hcancel (Nat.lt_succ_of_le hi) (Nat.lt_succ_of_le hj)

/-- The cells from `head` up to `tail` hold `L`, oldest first. -/
structure Holds (head tail : Fin (n + 1)) (storage : Fin (n + 1) → α) (L : List α) : Prop where
  fits : L.length ≤ n + 1
  tail_eq : tail = cell head L.length
  cells : ∀ i, i < L.length → L[i]? = some (storage (cell head i))

namespace Holds

variable {head tail : Fin (n + 1)} {storage : Fin (n + 1) → α} {L : List α}

/-- Nothing is held where the two ends meet, whatever the cells contain. -/
theorem nil (head : Fin (n + 1)) (storage : Fin (n + 1) → α) : Holds head head storage [] where
  fits := Nat.zero_le _
  tail_eq := (cell_zero head).symm
  cells := fun i hi => absurd hi (Nat.not_lt_zero i)

theorem push (h : Holds head tail storage L) (hroom : L.length < n + 1) (a : α) :
    Holds head (tail + 1) (Function.update storage tail a) (L ++ [a]) where
  fits := by simpa [Nat.lt_succ_iff] using hroom
  tail_eq := by rw [h.tail_eq, cell_add_one, List.length_append, List.length_singleton]
  cells := by
    intro i hi
    rw [List.length_append, List.length_singleton] at hi
    rcases Nat.lt_succ_iff_lt_or_eq.1 hi with hold | rfl
    · -- an item put before: its cell is not the tail's
      have hne : cell head i ≠ tail := by
        rw [h.tail_eq]
        intro he
        have := cell_inj head (by omega) (by omega) he
        omega
      rw [List.getElem?_append_left hold, h.cells i hold, Function.update_of_ne hne]
    · rw [List.getElem?_concat_length, ← h.tail_eq, Function.update_self]

theorem pop {a : α} (h : Holds head tail storage (a :: L)) :
    storage head = a ∧ Holds (head + 1) tail storage L := by
  refine ⟨?_, ?_, ?_, ?_⟩
  · have hhead := h.cells 0 (Nat.succ_pos _)
    simpa using hhead.symm
  · have hfits := h.fits
    rw [List.length_cons] at hfits
    omega
  · rw [h.tail_eq, cell_succ, List.length_cons]
  · intro i hi
    rw [cell_succ]
    exact h.cells (i + 1) (Nat.succ_lt_succ hi)

end Holds

end Ring
