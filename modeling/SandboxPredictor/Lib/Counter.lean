import Mathlib.Data.List.MinMax
import Mathlib.Data.List.Induction

/- Counting what occurs in a list, as Python's `Counter` does: an entry for each
   key, in the order in which the keys first occur. `mostCommon` is the first of
   the entries with the greatest count, so that it names the mode of the list, the
   one that occurs first if there are several (`exists_mostCommon`). -/
namespace Counter

variable {K : Type} [DecidableEq K]

/-- One more `x`. -/
def add : List (K × Nat) → K → List (K × Nat)
  | [], x => [(x, 1)]
  | (k, m) :: c, x => if k = x then (k, m + 1) :: c else (k, m) :: add c x

def count (t : List K) : List (K × Nat) := t.foldl add []

/-- `most_common(1)`. -/
def mostCommon (c : List (K × Nat)) : Option (K × Nat) := c.argmax Prod.snd

/-- `x` occurs most often in `t`, and before the keys that occur as often. -/
structure IsMode (t : List K) (x : K) : Prop where
  mem : x ∈ t
  max : ∀ y, t.count y ≤ t.count x
  first : ∀ y, t.count y = t.count x → t.idxOf x ≤ t.idxOf y

theorem IsMode.unique {t : List K} {x y : K} (hx : IsMode t x) (hy : IsMode t y) : x = y := by
  have hcount : t.count x = t.count y := Nat.le_antisymm (hy.max x) (hx.max y)
  have hidx := Nat.le_antisymm (hx.first y hcount.symm) (hy.first x hcount)
  exact (List.idxOf_inj hx.mem).1 hidx

/-- `c` counts the keys of `t`. -/
structure Counts (t : List K) (c : List (K × Nat)) : Prop where
  order : (c.map Prod.fst).Pairwise (fun k l => t.idxOf k < t.idxOf l)
  mem : ∀ k, k ∈ c.map Prod.fst ↔ k ∈ t
  value : ∀ p ∈ c, p.2 = t.count p.1

theorem keys_add (c : List (K × Nat)) (x : K) : (add c x).map Prod.fst =
    if x ∈ c.map Prod.fst then c.map Prod.fst else c.map Prod.fst ++ [x] := by
  induction c with
  | nil => simp [add]
  | cons p c ih =>
    obtain ⟨k, m⟩ := p
    rw [add]
    by_cases hk : k = x
    · simp [hk]
    · rw [if_neg hk, List.map_cons, ih]
      by_cases hx : x ∈ c.map Prod.fst <;> simp [hx, Ne.symm hk]

theorem mem_add {c : List (K × Nat)} (hnodup : (c.map Prod.fst).Nodup) {x : K} {p : K × Nat}
    (hp : p ∈ add c x) : p.1 ≠ x ∧ p ∈ c ∨ p.1 = x ∧ x ∉ c.map Prod.fst ∧ p.2 = 1 ∨
      p.1 = x ∧ ∃ m, (x, m) ∈ c ∧ p.2 = m + 1 := by
  induction c with
  | nil =>
    rw [add, List.mem_singleton] at hp
    simp [hp]
  | cons q c ih =>
    obtain ⟨k, m⟩ := q
    rw [List.map_cons, List.nodup_cons] at hnodup
    rw [add] at hp
    by_cases hk : k = x
    · subst hk
      rw [if_pos rfl] at hp
      rcases List.mem_cons.1 hp with rfl | hp
      · exact Or.inr (Or.inr ⟨rfl, m, List.mem_cons_self, rfl⟩)
      · refine Or.inl ⟨?_, List.mem_cons_of_mem _ hp⟩
        intro hpk
        exact hnodup.1 (hpk ▸ (List.mem_map_of_mem hp : p.1 ∈ c.map Prod.fst))
    · rw [if_neg hk] at hp
      rcases List.mem_cons.1 hp with rfl | hp
      · exact Or.inl ⟨hk, List.mem_cons_self⟩
      · obtain ⟨hne, hmem⟩ | ⟨heq, hnew, hone⟩ | ⟨heq, m', hmem, hsucc⟩ := ih hnodup.2 hp
        · exact Or.inl ⟨hne, List.mem_cons_of_mem _ hmem⟩
        · refine Or.inr (Or.inl ⟨heq, ?_, hone⟩)
          simpa [Ne.symm hk] using hnew
        · exact Or.inr (Or.inr ⟨heq, m', List.mem_cons_of_mem _ hmem, hsucc⟩)

theorem Counts.nodup {t : List K} {c : List (K × Nat)} (h : Counts t c) :
    (c.map Prod.fst).Nodup :=
  h.order.imp (fun hlt heq => absurd (congrArg t.idxOf heq) (Nat.ne_of_lt hlt))

/-- One more key. -/
theorem Counts.add {t : List K} {c : List (K × Nat)} (h : Counts t c) (x : K) :
    Counts (t ++ [x]) (add c x) := by
  have hidx : ∀ k ∈ t, (t ++ [x]).idxOf k = t.idxOf k := fun k hk =>
    List.idxOf_append_of_mem hk
  have hkeys : (c.map Prod.fst).Pairwise (fun k l => (t ++ [x]).idxOf k < (t ++ [x]).idxOf l) := by
    apply h.order.imp_of_mem
    intro k l hk hl hlt
    rw [hidx k ((h.mem k).1 hk), hidx l ((h.mem l).1 hl)]
    exact hlt
  refine ⟨?_, ?_, ?_⟩
  · rw [keys_add]
    split
    next => exact hkeys
    next hnew =>
      rw [List.pairwise_append]
      refine ⟨hkeys, List.pairwise_singleton _ _, ?_⟩
      intro k hk l hl
      rw [List.mem_singleton] at hl
      subst hl
      -- the new key comes behind all others
      have hkt := (h.mem k).1 hk
      have hlt : l ∉ t := mt (h.mem l).2 hnew
      rw [hidx k hkt, List.idxOf_append_of_notMem hlt, List.idxOf_cons_self]
      exact Nat.lt_add_right 0 (List.idxOf_lt_length_of_mem hkt)
  · intro k
    rw [keys_add]
    split
    next hold =>
      rw [h.mem, List.mem_append, List.mem_singleton]
      refine ⟨Or.inl, ?_⟩
      rintro (hk | rfl)
      · exact hk
      · exact (h.mem k).1 hold
    next => rw [List.mem_append, List.mem_append, h.mem]
  · intro p hp
    rw [List.count_append, List.count_singleton]
    obtain ⟨hne, hmem⟩ | ⟨heq, hnew, hone⟩ | ⟨heq, m, hmem, hsucc⟩ := mem_add h.nodup hp
    · rw [h.value p hmem]
      simp [Ne.symm hne]
    · have hzero : t.count x = 0 := List.count_eq_zero.2 (mt (h.mem x).2 hnew)
      simp [heq, hone, hzero]
    · have hm : m = t.count x := h.value _ hmem
      simp [heq, hsucc, hm]

theorem count_counts (t : List K) : Counts t (count t) := by
  induction t using List.reverseRecOn with
  | nil => exact ⟨List.Pairwise.nil, fun k => by simp [count], fun p hp => by simp [count] at hp⟩
  | append_singleton t x ih =>
    rw [count, List.foldl_append]
    exact ih.add x

theorem eq_or_of_idxOf_le {α : Type} [DecidableEq α] {R : α → α → Prop} {l : List α}
    (hl : l.Pairwise R) {a b : α} (ha : a ∈ l) (hb : b ∈ l) (hle : l.idxOf a ≤ l.idxOf b) :
    a = b ∨ R a b := by
  rcases Nat.lt_or_eq_of_le hle with hlt | heq
  · have hi := List.idxOf_lt_length_of_mem ha
    have hj := List.idxOf_lt_length_of_mem hb
    have hR := List.pairwise_iff_getElem.1 hl _ _ hi hj hlt
    rw [List.getElem_idxOf, List.getElem_idxOf] at hR
    exact Or.inr hR
  · exact Or.inl ((List.idxOf_inj ha).1 heq)

/-- The most common entry of a list that is not empty names its mode. -/
theorem exists_mostCommon {t : List K} (ht : t ≠ []) :
    ∃ x, IsMode t x ∧ mostCommon (count t) = some (x, t.count x) := by
  have h := count_counts t
  obtain ⟨y, hy⟩ := List.exists_mem_of_ne_nil t ht
  have hne : count t ≠ [] := by
    intro hnil
    have hmem := (h.mem y).2 hy
    simp [hnil] at hmem
  obtain ⟨⟨x, m⟩, hmode⟩ : ∃ p, mostCommon (count t) = some p := by
    cases hc : mostCommon (count t) with
    | none => exact absurd (List.argmax_eq_none.1 hc) hne
    | some p => exact ⟨p, rfl⟩
  obtain ⟨hmem, hmax, hfirst⟩ := List.argmax_eq_some_iff.1 hmode
  obtain rfl : m = t.count x := h.value _ hmem
  have hentry : ∀ y ∈ t, (y, t.count y) ∈ count t := by
    intro y hy
    obtain ⟨⟨y', m⟩, hp, rfl⟩ := List.mem_map.1 ((h.mem y).2 hy)
    rw [← h.value _ hp]
    exact hp
  have hx : x ∈ t := (h.mem x).1 (List.mem_map_of_mem hmem)
  refine ⟨x, ⟨hx, ?_, ?_⟩, hmode⟩
  · intro y
    by_cases hy : y ∈ t
    · exact hmax _ (hentry y hy)
    · rw [List.count_eq_zero.2 hy]
      exact Nat.zero_le _
  · intro y hcount
    by_cases hy : y ∈ t
    · have hle := hfirst _ (hentry y hy) (Nat.le_of_eq hcount.symm)
      rcases eq_or_of_idxOf_le (List.pairwise_map.1 h.order) hmem (hentry y hy) hle with
        heq | hlt
      · have hxy : x = y := congrArg Prod.fst heq
        rw [hxy]
      · exact Nat.le_of_lt hlt
    · rw [List.idxOf_eq_length hy]
      exact List.idxOf_le_length

end Counter
