import Mathlib.Logic.Function.Basic

/- Arrays of slots, each empty or holding a key. `Once` says that no key is in two
   slots, and `Put` is what a cache does to its slots when a key is accessed: it
   leaves them, or writes the key to one slot, which is the key's own or, when the
   key is in no slot, any. `Put` keeps `Once`, and moves no key from one slot to
   another. -/
namespace Slots

variable {ι K : Type} [DecidableEq ι]

/-- No key is in two slots. -/
def Once (s : ι → Option K) : Prop := ∀ i j x, s i = some x → s j = some x → i = j

/-- From `s` to `s'` the key `x` is accessed. -/
def Put (s s' : ι → Option K) (x : K) : Prop :=
  s' = s ∨ ∃ i, s' = Function.update s i (some x) ∧ (s i = some x ∨ ∀ j, s j ≠ some x)

omit [DecidableEq ι] in
theorem Once.empty : Once (fun _ : ι => (none : Option K)) := by
  intro i j x hi
  cases hi

section
variable {s s' : ι → Option K} {x y : K} {i j : ι}

/-- What is in a slot afterwards is the key accessed, or was there before. -/
theorem Put.mem (h : Put s s' x) (hj : s' j = some y) : y = x ∨ s j = some y := by
  obtain rfl | ⟨k, rfl, _⟩ := h
  · exact Or.inr hj
  · by_cases hk : j = k
    · subst hk
      rw [Function.update_self] at hj
      exact Or.inl (Option.some.inj hj).symm
    · rw [Function.update_of_ne hk] at hj
      exact Or.inr hj

/-- A key that is in a slot before and after is in the same one. -/
theorem Put.stays (h : Put s s' x) (hs : Once s) (hi : s i = some y) (hj : s' j = some y) :
    i = j := by
  obtain rfl | ⟨k, rfl, hk⟩ := h
  · exact hs i j y hi hj
  · by_cases hjk : j = k
    · subst hjk
      rw [Function.update_self] at hj
      obtain rfl := Option.some.inj hj
      obtain hk | hk := hk
      · exact hs i j x hi hk
      · exact absurd hi (hk i)
    · rw [Function.update_of_ne hjk] at hj
      exact hs i j y hi hj

theorem Put.once (h : Put s s' x) (hs : Once s) : Once s' := by
  intro i j y hi hj
  obtain rfl | hi' := h.mem hi
  · obtain rfl | ⟨k, rfl, hk⟩ := h
    · exact hs i j y hi hj
    · -- the key accessed is in the slot written only
      have hat : ∀ l, Function.update s k (some y) l = some y → l = k := by
        intro l hl
        by_contra hlk
        rw [Function.update_of_ne hlk] at hl
        obtain hk | hk := hk
        · exact hlk (hs l k y hl hk)
        · exact hk l hl
      rw [hat i hi, hat j hj]
  · exact h.stays hs hi' hj

end

end Slots
