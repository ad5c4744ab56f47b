import Mathlib.Algebra.BigOperators.Group.Finset.Piecewise
import Mathlib.Data.Fintype.Card
import Mathlib.Data.List.FinRange
import Mathlib.Logic.Function.Basic

/- Tables searched by a key, with a count of the entries in use. An entry is in use
   when its key is not `free`; a new one goes to the first free place, and no two
   entries in use have one key. -/
namespace KeyTable

variable {α K : Type} [DecidableEq K] {n : Nat}

/-- The first entry with the key. -/
def find (key : α → K) (t : Fin n → α) (k : K) : Option (Fin n) :=
  (List.finRange n).find? (fun i => key (t i) = k)

/-- The places in use. -/
def used (key : α → K) (free : K) (t : Fin n → α) : Finset (Fin n) :=
  Finset.univ.filter (fun i => key (t i) ≠ free)

/-- No key twice, and `occupancy` entries. -/
structure Keyed (key : α → K) (free : K) (t : Fin n → α) (occupancy : Nat) : Prop where
  inj : ∀ i j, key (t i) ≠ free → key (t i) = key (t j) → i = j
  count : (used key free t).card = occupancy

/-- How many entries have the property. -/
def tally (P : α → Bool) (t : Fin n → α) : Nat :=
  (Finset.univ.filter fun i => P (t i) = true).card

variable {key : α → K} {free k : K} {t : Fin n → α} {occupancy : Nat} {i : Fin n}

/-! ## Tallies -/

section tally

variable {P : α → Bool} {t' : Fin n → α}

theorem tally_congr (h : ∀ i, P (t' i) = P (t i)) : tally P t' = tally P t := by
  simp only [tally, h]

theorem tally_eq_zero : tally P t = 0 ↔ ∀ i, P (t i) = false := by
  simp [tally, Finset.card_eq_zero, Finset.filter_eq_empty_iff]

theorem tally_pos (hi : P (t i) = true) : 0 < tally P t := by
  rw [Nat.pos_iff_ne_zero]
  intro h0
  rw [tally_eq_zero.1 h0 i] at hi
  cases hi

/-- A change of one entry. -/
theorem tally_update (P : α → Bool) (t : Fin n → α) (i : Fin n) (a : α) :
    tally P (Function.update t i a) + (if P (t i) then 1 else 0)
      = tally P t + (if P a then 1 else 0) := by
  have hrest : ∑ j ∈ Finset.univ.erase i, (if P (Function.update t i a j) then 1 else 0)
      = ∑ j ∈ Finset.univ.erase i, (if P (t j) then 1 else 0) := by
    refine Finset.sum_congr rfl ?_
    intro j hj
    rw [Function.update_of_ne (Finset.ne_of_mem_erase hj)]
  have hnew := Finset.add_sum_erase Finset.univ
    (fun j => if P (Function.update t i a j) then 1 else 0) (Finset.mem_univ i)
  have hold := Finset.add_sum_erase Finset.univ
    (fun j => if P (t j) then 1 else 0) (Finset.mem_univ i)
  simp only [Function.update_self] at hnew
  rw [tally, tally, Finset.card_filter, Finset.card_filter, ← hnew, ← hold, hrest]
  omega

end tally

theorem find_eq_none : find key t k = none ↔ ∀ i, key (t i) ≠ k := by
  simp [find, List.find?_eq_none]

theorem key_of_find (h : find key t k = some i) : key (t i) = k := by
  simpa using List.find?_some h

/-- No entry before the one that is found has the key. -/
theorem find_first {j : Fin n} (h : find key t k = some i) (hj : j < i) : key (t j) ≠ k := by
  obtain ⟨-, m, hm, hget, hbefore⟩ := List.find?_eq_some_iff_getElem.1 h
  rw [List.getElem_finRange] at hget
  have hmi : m = i.val := congrArg Fin.val hget
  intro hkey
  have hnot := hbefore j.val (hmi ▸ hj)
  rw [List.getElem_finRange] at hnot
  simp [hkey] at hnot

theorem find_isSome (i : Fin n) (h : key (t i) = k) : ∃ j, find key t k = some j := by
  rw [← Option.isSome_iff_exists, find, List.find?_isSome]
  exact ⟨i, List.mem_finRange i, by simp [h]⟩

namespace Keyed

theorem empty {a : α} (h : key a = free) : Keyed key free (fun _ : Fin n => a) 0 where
  inj := fun _ _ hi => absurd h hi
  count := by simp [used, h]

/-- An entry in use is the one that a search for its key finds. -/
theorem find_eq (h : Keyed key free t occupancy) (hk : key (t i) = k) (hu : k ≠ free) :
    find key t k = some i := by
  obtain ⟨j, hj⟩ := find_isSome i hk
  have hkey := key_of_find hj
  rw [hj, h.inj i j (hk ▸ hu) (hk.trans hkey.symm)]

/-- While not all places are counted, a search for a free one finds one. -/
theorem exists_free (h : Keyed key free t occupancy) (hroom : occupancy < n) :
    ∃ i, find key t free = some i := by
  by_contra hnone
  have hall : ∀ i, key (t i) ≠ free :=
    find_eq_none.1 (Option.eq_none_iff_forall_not_mem.2 (fun i hi => hnone ⟨i, hi⟩))
  have hcount := h.count
  have huniv : used key free t = Finset.univ := by
    simp [used, hall]
  rw [huniv, Finset.card_univ, Fintype.card_fin] at hcount
  omega

/-- A new entry at a free place. -/
theorem put (h : Keyed key free t occupancy) (hi : key (t i) = free) {a : α} (ha : key a ≠ free)
    (hnew : ∀ j, key (t j) ≠ key a) :
    Keyed key free (Function.update t i a) (occupancy + 1) where
  inj := by
    intro j l hj hjl
    by_cases hji : j = i <;> by_cases hli : l = i
    · rw [hji, hli]
    · subst hji
      rw [Function.update_self, Function.update_of_ne hli] at hjl
      exact absurd hjl.symm (hnew l)
    · subst hli
      rw [Function.update_self, Function.update_of_ne hji] at hjl
      exact absurd hjl (hnew j)
    · rw [Function.update_of_ne hji] at hj hjl
      rw [Function.update_of_ne hli] at hjl
      exact h.inj j l hj hjl
  count := by
    have hset : used key free (Function.update t i a) = insert i (used key free t) := by
      ext j
      by_cases hji : j = i
      · subst hji
        simp [used, ha]
      · simp [used, hji]
    have hnot : i ∉ used key free t := by simp [used, hi]
    rw [hset, Finset.card_insert_of_notMem hnot, h.count]

/-- An entry in use is given up. -/
theorem clear (h : Keyed key free t occupancy) (hi : key (t i) ≠ free) {a : α}
    (ha : key a = free) : Keyed key free (Function.update t i a) (occupancy - 1) where
  inj := by
    intro j l hj hjl
    have hji : j ≠ i := by
      rintro rfl
      rw [Function.update_self] at hj
      exact hj ha
    rw [Function.update_of_ne hji] at hj hjl
    by_cases hli : l = i
    · subst hli
      rw [Function.update_self] at hjl
      exact absurd (hjl.trans ha) hj
    · rw [Function.update_of_ne hli] at hjl
      exact h.inj j l hj hjl
  count := by
    have hset : used key free (Function.update t i a) = (used key free t).erase i := by
      ext j
      by_cases hji : j = i
      · subst hji
        simp [used, ha]
      · simp [used, hji]
    have hmem : i ∈ used key free t := by simp [used, hi]
    rw [hset, Finset.card_erase_of_mem hmem, h.count]

/-- Changes that leave every key alone. -/
theorem congr (h : Keyed key free t occupancy) {t' : Fin n → α}
    (hkey : ∀ j, key (t' j) = key (t j)) : Keyed key free t' occupancy where
  inj := by
    intro j l hj hjl
    rw [hkey] at hj hjl
    rw [hkey] at hjl
    exact h.inj j l hj hjl
  count := by
    rw [← h.count]
    congr 1
    ext j
    simp [used, hkey]

theorem alter (h : Keyed key free t occupancy) (a : α) (ha : key a = key (t i)) :
    Keyed key free (Function.update t i a) occupancy := by
  refine h.congr ?_
  intro j
  by_cases hji : j = i
  · subst hji
    rw [Function.update_self, ha]
  · rw [Function.update_of_ne hji]

/-- A key in use is there once. -/
theorem tally_le_one (h : Keyed key free t occupancy) (hk : k ≠ free) :
    tally (fun a => decide (key a = k)) t ≤ 1 := by
  rw [tally, Finset.card_le_one]
  intro i hi j hj
  have hi' : key (t i) = k := by simpa using hi
  have hj' : key (t j) = k := by simpa using hj
  exact h.inj i j (hi' ▸ hk) (hi'.trans hj'.symm)

theorem pos (h : Keyed key free t occupancy) (hi : key (t i) ≠ free) : 0 < occupancy := by
  rw [← h.count, Finset.card_pos]
  exact ⟨i, by simp [used, hi]⟩

end Keyed

end KeyTable
