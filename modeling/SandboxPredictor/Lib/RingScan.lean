import Mathlib.Data.List.Range
import SandboxPredictor.Lib.Ring

/- Ring buffers whose owner clears what it takes: the cells outside the queue hold
   a `blank`, so that a cell can be seen to be free, and the queue is searched from
   its head, in one stretch or in two when it wraps around the end of the array. -/
namespace Ring

variable {α : Type} {n : Nat}

/-- The cell after `i`, the first one after the last. -/
def next (i : Fin (n + 1)) : Fin (n + 1) := cell i 1

/-- The first cell of the array. -/
def first : Fin (n + 1) := next (Fin.last n)

theorem next_eq (i : Fin (n + 1)) : next i = i + 1 := by
  rw [next, ← cell_add_one, cell_zero]

theorem first_eq : (first : Fin (n + 1)) = 0 := by
  apply Fin.ext
  simp [first, next, cell]

/-- The ring holds `L` and is blank everywhere else. -/
structure Clean (blank : α) (head tail : Fin (n + 1)) (storage : Fin (n + 1) → α) (L : List α) :
    Prop extends Holds head tail storage L where
  rest : ∀ i, L.length ≤ i → i < n + 1 → storage (cell head i) = blank

/-- How many places after the head a cell is. -/
def age (head c : Fin (n + 1)) : Nat := (c.val + (n + 1) - head.val) % (n + 1)

theorem age_lt (head c : Fin (n + 1)) : age head c < n + 1 := Nat.mod_lt _ (Nat.succ_pos n)

theorem cell_age (head c : Fin (n + 1)) : cell head (age head c) = c := by
  have hc := c.isLt
  have hh := head.isLt
  have hsum : head.val + (c.val + (n + 1) - head.val) = c.val + (n + 1) := by omega
  apply Fin.ext
  calc (head.val + age head c) % (n + 1) = (head.val + (c.val + (n + 1) - head.val)) % (n + 1) :=
        Nat.add_mod_mod _ _ _
    _ = c.val := by rw [hsum, Nat.add_mod_right, Nat.mod_eq_of_lt hc]

theorem age_cell (head : Fin (n + 1)) {i : Nat} (hi : i < n + 1) : age head (cell head i) = i :=
  cell_inj head (Nat.lt_succ_iff.1 (age_lt head _)) (Nat.lt_succ_iff.1 hi) (cell_age head _)

theorem age_inj {head c d : Fin (n + 1)} (h : age head c = age head d) : c = d := by
  rw [← cell_age head c, h, cell_age]

theorem age_head (head : Fin (n + 1)) : age head head = 0 := by
  have h := age_cell head (Nat.succ_pos n)
  rwa [cell_zero] at h

/-- When the head moves on, the other cells come one place nearer. -/
theorem age_next {head c : Fin (n + 1)} (h : c ≠ head) : age head c = age (next head) c + 1 := by
  have hlt := age_lt (next head) c
  have hcell : cell head (age (next head) c + 1) = c := by
    rw [← cell_succ, ← next_eq, cell_age]
  rcases Nat.lt_or_eq_of_le (Nat.succ_le_of_lt hlt) with hin | hlast
  · calc age head c = age head (cell head (age (next head) c + 1)) := by rw [hcell]
      _ = age (next head) c + 1 := age_cell head hin
  · -- the cell `n + 1` places after the head is the head
    refine absurd ?_ h
    rw [← hcell, show age (next head) c + 1 = n + 1 from hlast]
    apply Fin.ext
    simp only [cell, Nat.add_mod_right, Nat.mod_eq_of_lt head.isLt]

/-- The head that has moved on is last. -/
theorem age_next_head (head : Fin (n + 1)) : age (next head) head = n := by
  have hcell : cell (next head) n = head := by
    apply Fin.ext
    rw [next_eq, cell_succ]
    simp only [cell, Nat.add_mod_right, Nat.mod_eq_of_lt head.isLt]
  calc age (next head) head = age (next head) (cell (next head) n) := by rw [hcell]
    _ = n := age_cell (next head) (Nat.lt_succ_self n)

/-- Every cell is some number of places after the head. -/
theorem cell_ne (head : Fin (n + 1)) {i j : Nat} (hi : i < n + 1) (hj : j < n + 1) (h : i ≠ j) :
    cell head i ≠ cell head j :=
  fun he => h (cell_inj head (Nat.lt_succ_iff.1 hi) (Nat.lt_succ_iff.1 hj) he)

theorem cell_succ_ne_head (head : Fin (n + 1)) {i : Nat} (hi : i + 1 < n + 1) :
    cell head (i + 1) ≠ head := by
  have h := cell_ne head hi (Nat.succ_pos n) (Nat.succ_ne_zero i)
  rwa [cell_zero] at h

theorem cell_next (head : Fin (n + 1)) (i : Nat) : cell (next head) i = cell head (i + 1) := by
  rw [next_eq, cell_succ]

namespace Clean

variable {blank : α} {head tail : Fin (n + 1)} {storage : Fin (n + 1) → α} {L : List α}

theorem nil (blank : α) (head : Fin (n + 1)) : Clean blank head head (fun _ => blank) [] where
  toHolds := Holds.nil head _
  rest := fun _ _ _ => rfl

/-- The cell where the next item is put is blank while there is room. -/
theorem tail_blank (h : Clean blank head tail storage L) (hroom : L.length < n + 1) :
    storage tail = blank := by
  rw [h.tail_eq]
  exact h.rest L.length le_rfl hroom

/-- The cell of the first item is blank when there is none. -/
theorem head_blank (h : Clean blank head tail storage []) : storage head = blank := by
  have hrest := h.rest 0 le_rfl (Nat.succ_pos n)
  rwa [cell_zero] at hrest

theorem head_eq {a : α} (h : Clean blank head tail storage (a :: L)) : storage head = a :=
  h.toHolds.pop.1

theorem push (h : Clean blank head tail storage L) (hroom : L.length < n + 1) (a : α) :
    Clean blank head (next tail) (Function.update storage tail a) (L ++ [a]) where
  toHolds := by
    rw [next_eq]
    exact h.toHolds.push hroom a
  rest := by
    intro i hi hin
    rw [List.length_append, List.length_singleton] at hi
    have hne : cell head i ≠ tail := by
      rw [h.tail_eq]
      exact cell_ne head hin hroom (by omega)
    rw [Function.update_of_ne hne]
    exact h.rest i (by omega) hin

/-- Taking the first item and clearing its cell. -/
theorem pop {a : α} (h : Clean blank head tail storage (a :: L)) :
    Clean blank (next head) tail (Function.update storage head blank) L where
  toHolds := by
    obtain ⟨-, hpop⟩ := h.toHolds.pop
    rw [← next_eq] at hpop
    have hfits := h.fits
    rw [List.length_cons] at hfits
    refine ⟨hpop.fits, hpop.tail_eq, ?_⟩
    intro i hi
    have hne : cell (next head) i ≠ head := by
      rw [cell_next]
      exact cell_succ_ne_head head (by omega)
    rw [Function.update_of_ne hne]
    exact hpop.cells i hi
  rest := by
    intro i hi hin
    rw [cell_next]
    rcases Nat.lt_or_eq_of_le (Nat.succ_le_of_lt hin) with hlt | heq
    · rw [Function.update_of_ne (cell_succ_ne_head head hlt)]
      exact h.rest (i + 1) (by rw [List.length_cons]; omega) hlt
    · -- the last cell is the one that was just cleared
      have hhead : cell head (i + 1) = head := by
        apply Fin.ext
        simp only [cell]
        rw [show i + 1 = n + 1 from heq, Nat.add_mod_right, Nat.mod_eq_of_lt head.isLt]
      rw [hhead, Function.update_self]

/-- Changing an item where it lies. -/
theorem modify (h : Clean blank head tail storage L) {i : Nat} (hi : i < L.length) (f : α → α) :
    Clean blank head tail (Function.update storage (cell head i) (f (storage (cell head i))))
      (L.modify i f) where
  toHolds := by
    refine ⟨?_, ?_, ?_⟩
    · rw [List.length_modify]
      exact h.fits
    · rw [List.length_modify]
      exact h.tail_eq
    · intro j hj
      rw [List.length_modify] at hj
      have hfits := h.fits
      rw [List.getElem?_modify, h.cells j hj]
      by_cases hij : i = j
      · subst hij
        simp
      · have hne : cell head j ≠ cell head i :=
          cell_ne head (by omega) (by omega) (Ne.symm hij)
        simp [hij, Function.update_of_ne hne]
  rest := by
    intro j hj hjn
    rw [List.length_modify] at hj
    have hfits := h.fits
    have hne : cell head j ≠ cell head i := cell_ne head hjn (by omega) (by omega)
    rw [Function.update_of_ne hne]
    exact h.rest j hj hjn

end Clean

/-- An item of the queue lies in a cell. -/
theorem Holds.exists_cell {α : Type} {head tail : Fin (n + 1)} {storage : Fin (n + 1) → α}
    {L : List α} (h : Holds head tail storage L) {a : α} (ha : a ∈ L) : ∃ c, storage c = a := by
  obtain ⟨i, hi, rfl⟩ := List.getElem_of_mem ha
  have hcell := h.cells i hi
  rw [List.getElem?_eq_getElem hi] at hcell
  exact ⟨cell head i, (Option.some.inj hcell).symm⟩

/-! ## Searching from the head -/

/-- `for (i=lo; i<hi; i++)` over the cells. -/
def upTo (lo hi : Nat) : List (Fin (n + 1)) :=
  (List.range' lo (hi - lo)).filterMap fun i => if h : i < n + 1 then some ⟨i, h⟩ else none

/-- The cells from `head` to before `tail`, wrapping unless `head` is below `tail`. -/
def scan (head tail : Fin (n + 1)) : List (Fin (n + 1)) :=
  if head < tail then upTo head tail else upTo head (n + 1) ++ upTo 0 tail

theorem upTo_eq (head : Fin (n + 1)) {hi : Nat} (h : hi ≤ n + 1) :
    upTo head hi = (List.range (hi - head)).map (cell head) := by
  unfold upTo
  rw [List.range'_eq_map_range, List.filterMap_map, ← List.filterMap_eq_map]
  apply List.filterMap_congr
  intro i hi'
  rw [List.mem_range] at hi'
  have hlt : head.val + i < n + 1 := by omega
  simp only [Function.comp_apply, dif_pos hlt, cell, Nat.mod_eq_of_lt hlt]

/-- The cells from the first one on, as cells after `head`. -/
theorem upTo_zero_eq (head : Fin (n + 1)) {hi : Nat} (h : hi ≤ n + 1) :
    upTo 0 hi = (List.range' (n + 1 - head) hi).map (cell head) := by
  unfold upTo
  rw [List.range'_eq_map_range, List.range'_eq_map_range, List.filterMap_map, List.map_map,
    ← List.filterMap_eq_map, Nat.sub_zero]
  apply List.filterMap_congr
  intro i hi'
  rw [List.mem_range] at hi'
  have hh := head.isLt
  have hlt : 0 + i < n + 1 := by omega
  have hwrap : head.val + (n + 1 - head.val + i) = (0 + i) + (n + 1) := by omega
  simp only [Function.comp_apply, dif_pos hlt, cell, hwrap, Nat.add_mod_right,
    Nat.mod_eq_of_lt hlt]

/-- The cells before the one that is `m` places after the head, from the head on. -/
theorem scan_cell (head : Fin (n + 1)) {m : Nat} (hpos : 0 < m) (hm : m ≤ n + 1) :
    scan head (cell head m) = (List.range m).map (cell head) := by
  have hh := head.isLt
  have htail : (cell head m).val = (head.val + m) % (n + 1) := rfl
  have hlast := (cell head m).isLt.le
  unfold scan
  by_cases hwrap : head.val + m < n + 1
  · rw [Nat.mod_eq_of_lt hwrap] at htail
    have hlt : head < cell head m := by
      rw [Fin.lt_def]
      omega
    rw [if_pos hlt, upTo_eq head hlast, htail, Nat.add_sub_cancel_left]
  · have hmod : (head.val + m) % (n + 1) = head.val + m - (n + 1) := by
      rw [Nat.mod_eq_sub_mod (by omega), Nat.mod_eq_of_lt (by omega)]
    rw [hmod] at htail
    have hnlt : ¬ head < cell head m := by
      rw [Fin.lt_def]
      omega
    have hjoin : List.range (n + 1 - head.val) ++ List.range' (n + 1 - head.val) (cell head m).val
        = List.range m := by
      have happend := List.range'_append_1 (s := 0) (m := n + 1 - head.val) (n := (cell head m).val)
      rw [Nat.zero_add, show n + 1 - head.val + (cell head m).val = m by omega] at happend
      rw [List.range_eq_range', List.range_eq_range', happend]
    rw [if_neg hnlt, upTo_eq head le_rfl, upTo_zero_eq head hlast, ← List.map_append, hjoin]

/-- A queue that is not empty is searched item by item, oldest first. -/
theorem Holds.scan_eq {head tail : Fin (n + 1)} {storage : Fin (n + 1) → α} {L : List α}
    (h : Holds head tail storage L) (hL : L ≠ []) :
    scan head tail = (List.range L.length).map (cell head) := by
  rw [h.tail_eq]
  exact scan_cell head (List.length_pos_iff.2 hL) h.fits

/-- The youngest cell with the property among the first `m`. -/
theorem find?_reverse_eq_some {head c : Fin (n + 1)} {m : Nat} (hm : m ≤ n + 1)
    {q : Fin (n + 1) → Bool} :
    ((List.range m).map (cell head)).reverse.find? q = some c
      ↔ age head c < m ∧ q c = true
        ∧ ∀ d, age head d < m → q d = true → age head d ≤ age head c := by
  induction m with
  | zero => simp
  | succ m ih =>
    have hage : age head (cell head m) = m := age_cell head hm
    rw [List.range_succ, List.map_append, List.reverse_append, List.map_singleton,
      List.reverse_singleton, List.singleton_append, List.find?_cons]
    cases hq : q (cell head m) with
    | true =>
      constructor
      · intro hc
        obtain rfl := Option.some.inj hc
        exact ⟨by omega, hq, fun d hd _ => by omega⟩
      · rintro ⟨hlt, hqc, hmax⟩
        have hle := hmax (cell head m) (by omega) hq
        have heq : age head c = age head (cell head m) := by omega
        exact congrArg some (age_inj heq).symm
    | false =>
      have hne : ∀ d, q d = true → age head d < m + 1 → age head d < m := by
        intro d hd hlt
        rcases Nat.lt_succ_iff_lt_or_eq.1 hlt with hlt | heq
        · exact hlt
        · rw [age_inj (heq.trans hage.symm), hq] at hd
          cases hd
      simp only [ih (by omega)]
      constructor
      · rintro ⟨hlt, hqc, hmax⟩
        exact ⟨by omega, hqc, fun d hd hqd => hmax d (hne d hqd hd) hqd⟩
      · rintro ⟨hlt, hqc, hmax⟩
        exact ⟨hne c hqc hlt, hqc, fun d hd hqd => hmax d (by omega) hqd⟩

theorem find?_range (m : Nat) (q : Nat → Bool) :
    (List.range m).find? q = (List.range m).findIdx? q := by
  rw [List.find?_eq_bind_findIdx?_getElem?]
  cases hq : (List.range m).findIdx? q with
  | none => rfl
  | some i =>
    have hi : i < m := by
      simpa using (List.findIdx?_eq_some_iff_getElem.1 hq).1
    simp [List.getElem?_range hi]

/-- The search of a queue finds the first item with the property, and its place. -/
theorem Holds.find?_scan {head tail : Fin (n + 1)} {storage : Fin (n + 1) → α} {L : List α}
    (h : Holds head tail storage L) (hL : L ≠ []) (p : α → Bool) :
    (scan head tail).find? (fun c => p (storage c)) = (L.findIdx? p).map (cell head) := by
  have hmap : (List.range L.length).map (fun i => storage (cell head i)) = L := by
    apply List.ext_getElem
    · simp
    · intro i hi hi'
      have hcell := h.cells i hi'
      rw [List.getElem?_eq_getElem hi'] at hcell
      simpa using (Option.some.inj hcell).symm
  have hfind : L.findIdx? p = (List.range L.length).find? (fun i => p (storage (cell head i))) := by
    conv_lhs => rw [← hmap]
    rw [List.findIdx?_map, find?_range]
    rfl
  rw [h.scan_eq hL, List.find?_map, hfind]
  rfl

end Ring
