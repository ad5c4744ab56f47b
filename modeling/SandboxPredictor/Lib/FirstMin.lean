import Mathlib.Data.List.FinRange
import Mathlib.Data.List.Induction
import Mathlib.Order.Basic

/- The loop that goes through an array and keeps the first of the cheapest entries
   with a property, starting from a bound: an entry is taken only when it costs
   strictly less than what has been found so far. -/
namespace FirstMin

variable {n : Nat} {κ : Type} [LinearOrder κ]

/-- One round of the loop. -/
def look (p : Fin n → Bool) (cost : Fin n → κ) (best : Option (Fin n) × κ) (i : Fin n) :
    Option (Fin n) × κ :=
  if p i && decide (cost i < best.2) then (some i, cost i) else best

/-- The entry found and what it costs; `none` and the bound when there is none. -/
def firstMin (p : Fin n → Bool) (cost : Fin n → κ) (bound : κ) : Option (Fin n) × κ :=
  (List.finRange n).foldl (look p cost) (none, bound)

/-- What has been found among the entries of `l`. -/
structure Found (p : Fin n → Bool) (cost : Fin n → κ) (bound : κ) (l : List (Fin n))
    (best : Option (Fin n) × κ) : Prop where
  le_bound : best.2 ≤ bound
  le_cost : ∀ i ∈ l, p i = true → best.2 ≤ cost i
  eq_bound : best.1 = none → best.2 = bound
  is_entry : ∀ j, best.1 = some j → j ∈ l ∧ p j = true ∧ cost j = best.2 ∧ best.2 < bound
  is_first : ∀ j, best.1 = some j → ∀ i ∈ l, i < j → p i = true → best.2 < cost i

variable {p : Fin n → Bool} {cost : Fin n → κ} {bound : κ}

theorem Found.nil : Found p cost bound [] (none, bound) where
  le_bound := le_refl _
  le_cost := by simp
  eq_bound := fun _ => rfl
  is_entry := by simp
  is_first := by simp

theorem Found.snoc {l : List (Fin n)} {best : Option (Fin n) × κ} (h : Found p cost bound l best)
    (a : Fin n) (ha : ∀ i ∈ l, i < a) : Found p cost bound (l ++ [a]) (look p cost best a) := by
  unfold look
  split
  · next hcond =>
    obtain ⟨hp, hlt⟩ := by simpa using hcond
    refine ⟨?_, ?_, ?_, ?_, ?_⟩
    · exact le_of_lt (lt_of_lt_of_le hlt h.le_bound)
    · intro i hi hpi
      rcases List.mem_append.1 hi with hi | hi
      · exact le_of_lt (lt_of_lt_of_le hlt (h.le_cost i hi hpi))
      · rw [List.mem_singleton.1 hi]
    · simp
    · intro j hj
      obtain rfl : a = j := by simpa using hj
      exact ⟨by simp, hp, rfl, lt_of_lt_of_le hlt h.le_bound⟩
    · intro j hj i hi hij hpi
      obtain rfl : a = j := by simpa using hj
      rcases List.mem_append.1 hi with hi | hi
      · exact lt_of_lt_of_le hlt (h.le_cost i hi hpi)
      · rw [List.mem_singleton.1 hi] at hij
        exact absurd hij (lt_irrefl _)
  · next hcond =>
    have hskip : p a = true → best.2 ≤ cost a := by
      intro hp
      by_contra hlt
      exact hcond (by simp [hp, not_le.1 hlt])
    refine ⟨h.le_bound, ?_, h.eq_bound, ?_, ?_⟩
    · intro i hi hpi
      rcases List.mem_append.1 hi with hi | hi
      · exact h.le_cost i hi hpi
      · rw [List.mem_singleton.1 hi] at hpi ⊢
        exact hskip hpi
    · intro j hj
      obtain ⟨hmem, hentry⟩ := h.is_entry j hj
      exact ⟨List.mem_append_left _ hmem, hentry⟩
    · intro j hj i hi hij hpi
      rcases List.mem_append.1 hi with hi | hi
      · exact h.is_first j hj i hi hij hpi
      · rw [List.mem_singleton.1 hi] at hij
        exact absurd (ha j (h.is_entry j hj).1) (lt_asymm hij)

theorem found (p : Fin n → Bool) (cost : Fin n → κ) (bound : κ) :
    Found p cost bound (List.finRange n) (firstMin p cost bound) := by
  have hsorted := List.pairwise_lt_finRange n
  unfold firstMin
  generalize List.finRange n = l at hsorted
  induction l using List.reverseRecOn with
  | nil => exact Found.nil
  | append_singleton l a ih =>
    obtain ⟨hl, -, hla⟩ := List.pairwise_append.1 hsorted
    rw [List.foldl_append]
    exact (ih hl).snoc a (fun i hi => hla i hi a List.mem_cons_self)

/-- Only the entries with the property, and what those cost, matter. -/
theorem firstMin_congr {p' : Fin n → Bool} {cost' : Fin n → κ} (hp : ∀ i, p' i = p i)
    (hcost : ∀ i, p i = true → cost' i = cost i) :
    firstMin p' cost' bound = firstMin p cost bound := by
  have hlook : look p' cost' = look p cost := by
    funext best i
    unfold look
    rw [hp]
    cases hpi : p i with
    | false => rfl
    | true => rw [hcost i hpi]
  rw [firstMin, hlook, firstMin]

/-- The entry is the first of the cheapest with the property. -/
structure IsFirstMin (p : Fin n → Bool) (cost : Fin n → κ) (j : Fin n) : Prop where
  holds : p j = true
  least : ∀ i, p i = true → cost j ≤ cost i
  first : ∀ i, i < j → p i = true → cost j < cost i

theorem IsFirstMin.unique {i j : Fin n} (hi : IsFirstMin p cost i) (hj : IsFirstMin p cost j) :
    i = j := by
  rcases lt_trichotomy i j with hlt | heq | hgt
  · exact absurd (hi.least j hj.holds) (not_le.2 (hj.first i hlt hi.holds))
  · exact heq
  · exact absurd (hj.least i hi.holds) (not_le.2 (hi.first j hgt hj.holds))

theorem firstMin_eq_none :
    (firstMin p cost bound).1 = none ↔ ∀ i, p i = true → bound ≤ cost i := by
  have h := found p cost bound
  constructor
  · intro hnone i hi
    rw [← h.eq_bound hnone]
    exact h.le_cost i (List.mem_finRange i) hi
  · intro hall
    cases hj : (firstMin p cost bound).1 with
    | none => rfl
    | some j =>
      obtain ⟨-, hp, hc, hlt⟩ := h.is_entry j hj
      exact absurd (hall j hp) (not_le.2 (hc ▸ hlt))

/-- A cost below the bound is one that was found. -/
theorem exists_of_lt_bound (h : (firstMin p cost bound).2 < bound) :
    ∃ j, (firstMin p cost bound).1 = some j := by
  cases hj : (firstMin p cost bound).1 with
  | none => exact absurd ((found p cost bound).eq_bound hj) (ne_of_lt h)
  | some j => exact ⟨j, rfl⟩

theorem firstMin_spec {j : Fin n} (hj : (firstMin p cost bound).1 = some j) :
    IsFirstMin p cost j ∧ cost j < bound ∧ (firstMin p cost bound).2 = cost j := by
  have h := found p cost bound
  obtain ⟨-, hp, hc, hlt⟩ := h.is_entry j hj
  refine ⟨⟨hp, ?_, ?_⟩, hc ▸ hlt, hc.symm⟩
  · intro i hi
    rw [hc]
    exact h.le_cost i (List.mem_finRange i) hi
  · intro i hij hi
    rw [hc]
    exact h.is_first j hj i (List.mem_finRange i) hij hi

/-! ## A remembered result -/

/-- `index` and `least` are what the loop found. An index is remembered only when there was
an entry to find; otherwise it says nothing. -/
structure Cached (p : Fin n → Bool) (cost : Fin n → κ) (bound : κ) (index : Option (Fin n))
    (least : κ) : Prop where
  least : least = (firstMin p cost bound).2
  index : ∀ i, (firstMin p cost bound).1 = some i → index = some i

namespace Cached

variable {index : Option (Fin n)} {least : κ}

theorem fresh (p : Fin n → Bool) (cost : Fin n → κ) (bound : κ) :
    Cached p cost bound (firstMin p cost bound).1 (firstMin p cost bound).2 :=
  ⟨rfl, fun _ hi => hi⟩

/-- Before the loop has ever run, when there is nothing to find. -/
theorem init (hp : ∀ i, p i = false) : Cached p cost bound index bound := by
  have hnone : (firstMin p cost bound).1 = none :=
    firstMin_eq_none.2 (fun i hi => by rw [hp i] at hi; cases hi)
  refine ⟨((found p cost bound).eq_bound hnone).symm, ?_⟩
  intro i hi
  rw [hnone] at hi
  cases hi

theorem congr (h : Cached p cost bound index least) {p' : Fin n → Bool} {cost' : Fin n → κ}
    (hp : ∀ i, p' i = p i) (hcost : ∀ i, p i = true → cost' i = cost i) :
    Cached p' cost' bound index least := by
  have heq : firstMin p' cost' bound = firstMin p cost bound := firstMin_congr hp hcost
  exact ⟨h.least.trans (congrArg Prod.snd heq.symm), fun i hi => h.index i (heq ▸ hi)⟩

/-- A remembered cost below the bound is that of the remembered entry. -/
theorem isFirstMin (h : Cached p cost bound index least) (hlt : least < bound) {i : Fin n}
    (hi : index = some i) : IsFirstMin p cost i ∧ cost i = least := by
  obtain ⟨j, hj⟩ := exists_of_lt_bound (h.least ▸ hlt)
  obtain rfl : i = j := Option.some.inj (hi.symm.trans (h.index j hj))
  obtain ⟨hmin, -, hcost⟩ := firstMin_spec hj
  exact ⟨hmin, hcost.symm.trans h.least.symm⟩

/-- The entry that there is to find is remembered. -/
theorem eq_some (h : Cached p cost bound index least) {i : Fin n} (hi : IsFirstMin p cost i)
    (hlt : cost i < bound) : index = some i ∧ least = cost i := by
  have hsome : (firstMin p cost bound).1 ≠ none := fun hnone =>
    absurd (firstMin_eq_none.1 hnone i hi.holds) (not_le.2 hlt)
  obtain ⟨j, hj⟩ := Option.ne_none_iff_exists'.1 hsome
  obtain ⟨hmin, -, hcost⟩ := firstMin_spec hj
  obtain rfl := hi.unique hmin
  exact ⟨h.index i hj, h.least.trans hcost⟩

end Cached

end FirstMin
