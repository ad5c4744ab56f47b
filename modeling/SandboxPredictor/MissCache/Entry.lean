import Mathlib.Data.Fin.Tuple.Basic
import SandboxPredictor.Lib.Recency
import SandboxPredictor.Word

/- What the miss caches share: the aged entry of `miss_cache.h`, the search of
   the saved state (`get_idx`, the same loop in every class), and the update of
   the cached `lru` index inside the ageing loops.

   A cache of `numEntries` entries keeps its arrays as functions on
   `Fin numEntries`; a loop over the entries whose iterations each touch only
   their own entry is a pointwise definition. -/
namespace SandboxPredictor
open Recency

/-- `lru_entry_t`. -/
structure LRUEntry where
  valid : Bool
  pc : Word
  age : Nat
  deriving DecidableEq, Repr

/-- The ageing loop of `LRUMCache::access` and `Segment::bump`: the age of every
entry younger than `pcAge` is incremented. -/
def ageYounger {m : Nat} (entries : Fin m → LRUEntry) (pcAge : Nat) : Fin m → LRUEntry :=
  fun i => if (entries i).age < pcAge then { entries i with age := (entries i).age + 1 }
    else entries i

/-- The first index whose saved pc is `pc`; `none` is the `-1` of the sources. -/
def savedIdx {m : Nat} (savedState : Fin m → Word) (pc : Word) : Option (Fin m) :=
  Fin.find? (fun i => savedState i == pc)

/-- The ageing loop increments the age of the entries in `younger`, and every
time one reaches `numEntries - 1` it sets `lru` to it: the last one stays. -/
def lruAfter {n : Nat} (younger : Fin (n + 1) → Bool) (age : Fin (n + 1) → Nat)
    (lru : Fin (n + 1)) : Fin (n + 1) :=
  (Fin.findRev? (fun i => younger i && age i + 1 == n)).getD lru

/-- After an ageing loop that leaves the entry `i₀` youngest, `lru` is an entry of
age `numEntries - 1` if there is one: either it has just reached that age, or it
is the entry that `lru` already named. -/
theorem lruAfter_oldest {n : Nat} {younger : Fin (n + 1) → Bool} {age : Fin (n + 1) → Nat}
    {lru : Fin (n + 1)} (age' : Fin (n + 1) → Nat) (i₀ : Fin (n + 1)) (h0 : age' i₀ = 0)
    (hage : ∀ j, j ≠ i₀ → age' j = if younger j then age j + 1 else age j)
    (hi : younger i₀ = true → age i₀ + 1 ≠ n) (hex : ∃ j, age' j = n)
    (hlru : ∀ j, j ≠ i₀ → younger j = false → age j = n → lru = j) :
    age' (lruAfter younger age lru) = n := by
  have hreach : ∀ i, (younger i && age i + 1 == n) = true → age' i = n := by
    intro i hp
    simp only [Bool.and_eq_true, beq_iff_eq] at hp
    have hne : i ≠ i₀ := fun e => hi (e ▸ hp.1) (e ▸ hp.2)
    rw [hage i hne, if_pos hp.1]
    exact hp.2
  unfold lruAfter
  cases hf : Fin.findRev? (fun i => younger i && age i + 1 == n) with
  | some i => exact hreach i (Fin.findRev?_eq_some_iff.mp hf).1
  | none =>
    have hnone := Fin.findRev?_eq_none_iff.mp hf
    obtain ⟨j, hj⟩ := hex
    by_cases hji : j = i₀
    · -- the youngest entry has age `n` only when there is one entry
      rw [hji, h0] at hj
      subst hj
      rw [Option.getD_none, show lru = i₀ from Fin.ext (by omega), h0]
    · have hy : younger j = false := by
        cases hy : younger j
        · rfl
        · have := hnone j
          rw [hage j hji, if_pos hy] at hj
          simp [hy, hj] at this
      have hn : age j = n := by rw [hage j hji, hy] at hj; simpa using hj
      rw [Option.getD_none, hlru j hji hy hn, hj]

end SandboxPredictor
