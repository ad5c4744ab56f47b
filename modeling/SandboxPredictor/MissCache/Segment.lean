import SandboxPredictor.MissCache.Entry

/- `Segment` (`segment.cc`): one recency segment of the SLRU miss cache.

   Unlike in the LRU cache the ages of all entries, valid or not, stay a
   permutation of `0 … numEntries - 1` with the valid entries youngest, and `lru`
   is always the entry of age `numEntries - 1` (`Segment.Inv`). The operations on
   the recency list of the segment:

     `bump_inv`     `pc :: L.erase pc`          (`bump_absent`: no change)
     `add_inv`      `touch numEntries L pc`, returning what falls off the back
     `remove_inv`   `L.erase pc`                (`remove_absent`: no change) -/
namespace SandboxPredictor
open Recency

/-- `Segment`: the entries and the cached oldest entry. -/
structure Segment (numEntries : Nat) where
  entries : Fin numEntries → LRUEntry
  lru : Fin numEntries

namespace Segment

variable {n : Nat}

/-- `reset`: every field is overwritten. -/
def reset (_ : Segment (n + 1)) : Segment (n + 1) where
  entries := fun i => { valid := false, pc := 0, age := i }
  lru := Fin.last n

/-- The search for a valid entry that holds `pc`, the same loop in `contains`,
`bump` and `remove`. -/
def find (s : Segment (n + 1)) (pc : Word) : Option (Fin (n + 1)) :=
  Fin.find? (fun i => (s.entries i).valid && (s.entries i).pc == pc)

def contains (s : Segment (n + 1)) (pc : Word) : Bool := (s.find pc).isSome

/-- `bump`: nothing to do if `pc` is already the youngest or does not exist. -/
def bump (s : Segment (n + 1)) (pc : Word) : Segment (n + 1) :=
  let (pcIdx, pcAge) : Fin (n + 1) × Nat :=
    match s.find pc with
    | some i => (i, (s.entries i).age)
    | none => (0, 0)
  if pcAge ≠ 0 then
    { entries := Function.update (ageYounger s.entries pcAge) pcIdx
        { s.entries pcIdx with age := 0 }
      lru := lruAfter (fun i => decide ((s.entries i).age < pcAge))
        (fun i => (s.entries i).age) s.lru }
  else s

/-- `add`: `pc` takes the entry of `lru` and becomes the youngest. Returns the
evicted pc, or 0 if nothing is evicted. -/
def add (s : Segment (n + 1)) (pc : Word) : Word × Segment (n + 1) :=
  let evict := s.entries s.lru
  let addIdx := s.lru
  let s' : Segment (n + 1) :=
    { entries := Function.update (fun i => { s.entries i with age := (s.entries i).age + 1 })
        addIdx { valid := true, pc := pc, age := 0 }
      lru := lruAfter (fun i => i != addIdx) (fun i => (s.entries i).age) s.lru }
  (if evict.valid then evict.pc else 0, s')

/-- `remove`: the older entries move up and the entry of `pc` becomes the oldest,
empty one. When `pc` is not found `removeIdx` is `lru`. -/
def remove (s : Segment (n + 1)) (pc : Word) : Segment (n + 1) :=
  let removeIdx := (s.find pc).getD s.lru
  let entries : Fin (n + 1) → LRUEntry := fun i =>
    if (s.entries i).age > (s.entries removeIdx).age
    then { s.entries i with age := (s.entries i).age - 1 } else s.entries i
  if (entries removeIdx).pc == pc then
    { entries := Function.update entries removeIdx { valid := false, pc := 0, age := n }
      lru := removeIdx }
  else { s with entries := entries }

/-- `get_all` with room for every entry: an entry that is not valid is written as 0. -/
def getAll (s : Segment (n + 1)) : Fin (n + 1) → Word :=
  fun i => if (s.entries i).valid then (s.entries i).pc else 0

/-- The pc in each entry that is valid. -/
def slots (s : Segment (n + 1)) : Fin (n + 1) → Option Word :=
  fun i => if (s.entries i).valid then some (s.entries i).pc else none

theorem getAll_eq (s : Segment (n + 1)) (i : Fin (n + 1)) : s.getAll i = (s.slots i).getD 0 := by
  unfold getAll slots
  split <;> rfl

/-! ## The invariant -/

/-- The ages of the valid entries spell out the recency list `L`. -/
abbrev Spells (s : Segment (n + 1)) (L : List Word) : Prop :=
  Ranked (fun i => (s.entries i).valid = true) (fun i => (s.entries i).pc)
    (fun i => (s.entries i).age) L

/-- Beside the recency list: the ages of all the entries are a permutation of
`0 … numEntries - 1`, `lru` is the oldest, and an empty entry holds pc 0. -/
structure Inv (s : Segment (n + 1)) (L : List Word) : Prop where
  spells : s.Spells L
  inj : Function.Injective (fun i => (s.entries i).age)
  le : ∀ i, (s.entries i).age ≤ n
  oldest : (s.entries s.lru).age = n
  empty : ∀ i, (s.entries i).valid = false → (s.entries i).pc = 0

theorem reset_inv (s : Segment (n + 1)) : s.reset.Inv [] where
  spells := Ranked.empty (fun _ => by simp [reset])
  inj := fun _ _ h => Fin.ext h
  le := fun i => Nat.le_of_lt_succ i.isLt
  oldest := rfl
  empty := fun _ _ => rfl

section
variable {s : Segment (n + 1)} {L : List Word} {pc : Word}

theorem Spells.length_le (h : s.Spells L) : L.length ≤ n + 1 := by
  simpa using h.length_le_card

theorem Spells.full_iff (h : s.Spells L) :
    L.length = n + 1 ↔ ∀ i, (s.entries i).valid = true := by
  simpa using Ranked.full_iff h

theorem find_some {i : Fin (n + 1)} (h : s.find pc = some i) :
    (s.entries i).valid = true ∧ (s.entries i).pc = pc := by
  simpa using (Fin.find?_eq_some_iff.mp h).1

theorem find_none (h : s.find pc = none) (i : Fin (n + 1)) (hv : (s.entries i).valid = true) :
    (s.entries i).pc ≠ pc := by
  simpa [hv] using Fin.find?_eq_none_iff.mp h i

theorem Spells.contains_iff (h : s.Spells L) : s.contains pc = true ↔ pc ∈ L := by
  unfold contains
  rw [h.mem_iff]
  cases hf : s.find pc with
  | some i => exact ⟨fun _ => ⟨i, find_some hf⟩, fun _ => rfl⟩
  | none =>
    refine ⟨fun hc => absurd hc (by simp), ?_⟩
    intro ⟨i, hv, hpc⟩
    exact absurd hpc (find_none hf i hv)

/-- The search finds a pc of the recency list, in the one entry that holds it. -/
theorem Spells.find_mem (h : s.Spells L) (hpc : pc ∈ L) : ∃ i, s.find pc = some i ∧
    (s.entries i).valid = true ∧ (s.entries i).pc = pc := by
  have hc := h.contains_iff.mpr hpc
  obtain ⟨i, hi⟩ := Option.isSome_iff_exists.mp hc
  exact ⟨i, hi, find_some hi⟩

theorem Spells.find_not_mem (h : s.Spells L) (hpc : pc ∉ L) : s.find pc = none := by
  cases hf : s.find pc with
  | none => rfl
  | some i =>
    obtain ⟨hv, rfl⟩ := find_some hf
    exact absurd (h.key_mem hv) hpc

/-- Every age is taken. -/
theorem Inv.exists_age (h : s.Inv L) {a : Nat} (ha : a ≤ n) : ∃ i, (s.entries i).age = a := by
  let f : Fin (n + 1) → Fin (n + 1) := fun i => ⟨(s.entries i).age, Nat.lt_succ_of_le (h.le i)⟩
  have hf : Function.Injective f := fun i j hij => h.inj (congrArg Fin.val hij)
  obtain ⟨i, hi⟩ := Finite.injective_iff_surjective.mp hf ⟨a, Nat.lt_succ_of_le ha⟩
  exact ⟨i, congrArg Fin.val hi⟩

/-- The oldest entry is empty unless the segment is full. -/
theorem Inv.lru_valid_iff (h : s.Inv L) :
    (s.entries s.lru).valid = true ↔ L.length = n + 1 := by
  refine ⟨?_, fun hlen => h.spells.full_iff.mp hlen _⟩
  intro hv
  have hlt := h.spells.age_lt hv
  have hle := h.spells.length_le
  have hold := h.oldest
  omega

end

/-! ## The operations -/

/-- Re-ageing keeps the ages distinct if the new age of `i₀` is free and the other
ages are mapped injectively. -/
theorem reage_injective {a a' : Fin (n + 1) → Nat} {f : Nat → Nat} (i₀ : Fin (n + 1))
    (h : Function.Injective a) (ha : ∀ j, j ≠ i₀ → a' j = f (a j))
    (hfree : ∀ j, j ≠ i₀ → f (a j) ≠ a' i₀)
    (hf : ∀ x y, x ≠ a i₀ → y ≠ a i₀ → f x = f y → x = y) : Function.Injective a' := by
  intro i j hij
  by_cases hi : i = i₀ <;> by_cases hj : j = i₀
  · rw [hi, hj]
  · rw [hi, ha j hj] at hij
    exact absurd hij.symm (hfree j hj)
  · rw [hj, ha i hi] at hij
    exact absurd hij (hfree i hi)
  · rw [ha i hi, ha j hj] at hij
    exact h (hf _ _ (fun e => hi (h e)) (fun e => hj (h e)) hij)

section
variable {s : Segment (n + 1)} {L : List Word} {pc : Word}

theorem bump_absent (h : s.Spells L) (hpc : pc ∉ L) : s.bump pc = s := by
  simp [bump, h.find_not_mem hpc]

section bump
variable {i : Fin (n + 1)}

theorem bump_youngest (hfind : s.find pc = some i) (hage : (s.entries i).age = 0) :
    s.bump pc = s := by
  simp [bump, hfind, hage]

theorem bump_self (hfind : s.find pc = some i) (hage : (s.entries i).age ≠ 0) :
    (s.bump pc).entries i = { s.entries i with age := 0 } := by
  simp [bump, hfind, hage]

theorem bump_ne (hfind : s.find pc = some i) (hage : (s.entries i).age ≠ 0) {j : Fin (n + 1)}
    (hj : j ≠ i) : (s.bump pc).entries j =
      { s.entries j with
        age := if (s.entries j).age < (s.entries i).age then (s.entries j).age + 1
          else (s.entries j).age } := by
  simp only [bump, hfind, ne_eq, hage, not_false_eq_true, if_true]
  rw [Function.update_of_ne hj, ageYounger]
  split <;> rfl

theorem bump_lru (hfind : s.find pc = some i) (hage : (s.entries i).age ≠ 0) :
    (s.bump pc).lru =
      lruAfter (fun j => decide ((s.entries j).age < (s.entries i).age))
        (fun j => (s.entries j).age) s.lru := by
  simp [bump, hfind, hage]

/-- A bump leaves `lru` at the oldest entry: where it was, or at the entry that was second
oldest when the oldest one is bumped. -/
theorem bump_oldest (h : s.Inv L) (hfind : s.find pc = some i) (hage : (s.entries i).age ≠ 0) :
    ((s.bump pc).entries (s.bump pc).lru).age = n := by
  have hi := h.le i
  have hage' : ∀ j, j ≠ i → ((s.bump pc).entries j).age =
      if (s.entries j).age < (s.entries i).age then (s.entries j).age + 1
        else (s.entries j).age := fun j hj => by rw [bump_ne hfind hage hj]
  rw [bump_lru hfind hage]
  apply lruAfter_oldest (fun j => ((s.bump pc).entries j).age) i (by rw [bump_self hfind hage])
  · intro j hj
    simp only [hage' j hj, decide_eq_true_eq]
  · intro hy
    simp at hy
  · by_cases hold : (s.entries i).age = n
    · obtain ⟨j, hj⟩ := h.exists_age (show n - 1 ≤ n by omega)
      have hji : j ≠ i := by intro e; rw [e] at hj; omega
      refine ⟨j, ?_⟩
      simp only [hage' j hji]
      rw [if_pos (by omega)]
      omega
    · have hlru := h.oldest
      have hji : s.lru ≠ i := by intro e; rw [e] at hlru; omega
      refine ⟨s.lru, ?_⟩
      simp only [hage' _ hji]
      rw [if_neg (by omega)]
      exact hlru
  · intro j _ _ hj
    exact h.inj (by simp only [hj, h.oldest])

end bump

theorem bump_inv (h : s.Inv L) (hpc : pc ∈ L) : (s.bump pc).Inv (pc :: L.erase pc) := by
  obtain ⟨i, hfind, hv, hipc⟩ := h.spells.find_mem hpc
  by_cases hage : (s.entries i).age = 0
  · -- already the youngest
    have hL : L.head? = some pc := by
      rw [List.head?_eq_getElem?, ← hage, ← hipc]
      exact h.spells.get i hv
    obtain ⟨tl, rfl⟩ := List.head?_eq_some_iff.mp hL
    rw [bump_youngest hfind hage, List.erase_cons_head]
    exact h
  · have hself := bump_self hfind hage
    have hne := fun j hj => bump_ne hfind hage (j := j) hj
    have hi := h.le i
    refine ⟨?_, ?_, ?_, bump_oldest h hfind hage, ?_⟩
    · rw [← hipc] at hself hne ⊢
      refine (h.spells.bump hv (by rw [hself]) (fun j _ hj => by rw [hne j hj])).congr ?_ ?_
        (fun _ _ => rfl)
      · intro j
        by_cases hj : j = i
        · rw [hj, hself]
        · rw [hne j hj]
      · intro j _
        by_cases hj : j = i
        · rw [hj, hself]
        · rw [hne j hj]
    · apply reage_injective i
        (f := fun x => if x < (s.entries i).age then x + 1 else x) h.inj
        (fun j hj => by rw [hne j hj])
      · intro j hj
        have hji : (s.entries j).age ≠ (s.entries i).age := fun e => hj (h.inj e)
        rw [hself]
        dsimp only
        split <;> omega
      · intro x y hx hy hxy
        split at hxy <;> split at hxy <;> omega
    · intro j
      by_cases hj : j = i
      · rw [hj, hself]
        exact Nat.zero_le n
      · have hle := h.le j
        rw [hne j hj]
        dsimp only
        split <;> omega
    · intro j hj
      by_cases hji : j = i
      · rw [hji, hself] at hj
        exact absurd hv (by simpa using hj)
      · rw [hne j hji] at hj ⊢
        exact h.empty j hj

theorem add_self : ((s.add pc).2.entries s.lru) = { valid := true, pc := pc, age := 0 } := by
  simp [add]

theorem add_ne {j : Fin (n + 1)} (hj : j ≠ s.lru) :
    (s.add pc).2.entries j = { s.entries j with age := (s.entries j).age + 1 } := by
  simp [add, Function.update_of_ne hj]

/-- A bump moves no pc. -/
theorem bump_slots (s : Segment (n + 1)) (pc : Word) : (s.bump pc).slots = s.slots := by
  cases hfind : s.find pc with
  | none => simp [bump, hfind]
  | some i =>
    by_cases hage : (s.entries i).age = 0
    · rw [bump_youngest hfind hage]
    · funext j
      by_cases hj : j = i
      · subst hj
        simp [slots, bump_self hfind hage]
      · simp [slots, bump_ne hfind hage hj]

theorem add_slots (s : Segment (n + 1)) (pc : Word) :
    (s.add pc).2.slots = Function.update s.slots s.lru (some pc) := by
  funext j
  by_cases hj : j = s.lru
  · subst hj
    simp [slots, add_self]
  · simp [slots, add_ne hj, Function.update_of_ne hj]

/-- A pc that is not found is in no slot. -/
theorem slots_ne_of_find (h : s.find pc = none) (j : Fin (n + 1)) : s.slots j ≠ some pc := by
  intro hj
  simp only [slots] at hj
  split at hj
  next hv => exact find_none h j hv (Option.some.inj hj)
  next => cases hj

/-- A pc in a slot is in the recency list. -/
theorem Spells.mem_of_slots (h : s.Spells L) {j : Fin (n + 1)} (hj : s.slots j = some pc) :
    pc ∈ L := by
  simp only [slots] at hj
  split at hj
  next hv => exact h.mem_iff.2 ⟨j, hv, Option.some.inj hj⟩
  next => cases hj

theorem add_inv (h : s.Inv L) (hpc : pc ∉ L) : (s.add pc).2.Inv (touch (n + 1) L pc) := by
  have hlt : ∀ j, j ≠ s.lru → (s.entries j).age < n := by
    intro j hj
    have hne : (s.entries j).age ≠ n := fun e => hj (h.inj (by simp only [e, h.oldest]))
    have := h.le j
    omega
  refine ⟨?_, ?_, ?_, ?_, ?_⟩
  · refine h.spells.touch s.lru n (by simp) ?_ (by rw [add_self])
      (fun j _ hj => by rw [add_ne hj]) (by rw [add_self]) ?_ ?_
    · intro j
      by_cases hj : j = s.lru
      · simp [hj, add_self]
      · simp [add_ne hj, hj]
    · intro j _ hj
      rw [add_ne hj, if_pos (hlt j hj)]
    · refine Or.inr ⟨hpc, rfl, ?_⟩
      by_cases hv : (s.entries s.lru).valid = true
      · exact Or.inr ⟨h.spells.full_iff.mp (h.lru_valid_iff.mp hv), h.oldest⟩
      · exact Or.inl hv
  · refine reage_injective s.lru (f := fun x => x + 1) h.inj
      (fun j hj => by rw [add_ne hj]) ?_ (fun x y _ _ hxy => by omega)
    intro j _
    rw [add_self]
    exact Nat.succ_ne_zero _
  · intro j
    by_cases hj : j = s.lru
    · rw [hj, add_self]; exact Nat.zero_le n
    · rw [add_ne hj]; exact hlt j hj
  · refine lruAfter_oldest (fun j => ((s.add pc).2.entries j).age) s.lru
      (by rw [add_self]) ?_ (fun hy => by simp at hy) ?_ ?_
    · intro j hj
      simp [add_ne hj, hj]
    · by_cases hn : n = 0
      · exact ⟨s.lru, by simp only [add_self]; omega⟩
      · obtain ⟨j, hj⟩ := h.exists_age (show n - 1 ≤ n by omega)
        have hji : j ≠ s.lru := by intro e; have := h.oldest; rw [e] at hj; omega
        exact ⟨j, by simp only [add_ne hji]; omega⟩
    · intro j hj hy _
      simp [hj] at hy
  · intro j hj
    by_cases hji : j = s.lru
    · rw [hji, add_self] at hj; cases hj
    · rw [add_ne hji] at hj ⊢
      exact h.empty j hj

/-- `add` returns the pc that falls off the back of a full segment. -/
theorem add_evicted (h : s.Inv L) :
    (s.add pc).1 = if L.length = n + 1 then L.getLast?.getD 0 else 0 := by
  show (if (s.entries s.lru).valid then (s.entries s.lru).pc else 0) = _
  by_cases hv : (s.entries s.lru).valid = true
  · have hlen := h.lru_valid_iff.mp hv
    rw [if_pos hv, if_pos hlen, h.spells.getLast hv (by rw [h.oldest, hlen])]
    rfl
  · rw [if_neg hv, if_neg (fun hlen => hv (h.lru_valid_iff.mpr hlen))]

theorem remove_absent (h : s.Inv L) (h0 : pc ≠ 0) (hpc : pc ∉ L) : s.remove pc = s := by
  have hsame : ∀ i, ¬ (s.entries i).age > (s.entries s.lru).age := fun i => by
    have := h.le i
    rw [h.oldest]; omega
  have hne : (s.entries s.lru).pc ≠ pc := by
    by_cases hv : (s.entries s.lru).valid = true
    · exact fun e => hpc (e ▸ h.spells.key_mem hv)
    · rw [h.empty _ (by simpa using hv)]; exact Ne.symm h0
  simp only [remove, h.spells.find_not_mem hpc, Option.getD_none, hsame, if_false, beq_iff_eq, hne]

section remove
variable {i : Fin (n + 1)}

theorem remove_self (hfind : s.find pc = some i) :
    (s.remove pc).entries i = { valid := false, pc := 0, age := n } := by
  simp [remove, hfind, (find_some hfind).2]

theorem remove_ne (hfind : s.find pc = some i) {j : Fin (n + 1)} (hj : j ≠ i) :
    (s.remove pc).entries j =
      { s.entries j with
        age := if (s.entries i).age < (s.entries j).age then (s.entries j).age - 1
          else (s.entries j).age } := by
  simp only [remove, hfind, Option.getD_some, gt_iff_lt, Nat.lt_irrefl, if_false,
    (find_some hfind).2, beq_self_eq_true, if_true]
  rw [Function.update_of_ne hj]
  split <;> rfl

theorem remove_lru (hfind : s.find pc = some i) : (s.remove pc).lru = i := by
  simp [remove, hfind, (find_some hfind).2]

end remove

theorem remove_inv (h : s.Inv L) (hpc : pc ∈ L) : (s.remove pc).Inv (L.erase pc) := by
  obtain ⟨i, hfind, hv, rfl⟩ := h.spells.find_mem hpc
  have hself := remove_self hfind
  have hne := fun j hj => remove_ne hfind (j := j) hj
  have hlru := remove_lru hfind
  refine ⟨?_, ?_, ?_, ?_, ?_⟩
  · refine h.spells.remove hv ?_ (fun j _ hj => by rw [hne j hj]) (fun j _ hj => by rw [hne j hj])
    intro j
    by_cases hj : j = i
    · simp [hj, hself]
    · simp [hne j hj, hj]
  · refine reage_injective i
      (f := fun x => if (s.entries i).age < x then x - 1 else x) h.inj
      (fun j hj => by rw [hne j hj]) ?_ ?_
    · intro j hj
      have hji : (s.entries j).age ≠ (s.entries i).age := fun e => hj (h.inj e)
      have := h.le j
      have := h.le i
      rw [hself]
      dsimp only
      split <;> omega
    · intro x y hx hy hxy
      beta_reduce at hxy
      split at hxy <;> split at hxy <;> omega
  · intro j
    by_cases hj : j = i
    · rw [hj, hself]
    · have := h.le j
      rw [hne j hj]
      dsimp only
      split <;> omega
  · rw [hlru, hself]
  · intro j hj
    by_cases hji : j = i
    · rw [hji, hself]
    · rw [hne j hji] at hj ⊢
      exact h.empty j hj

end

end Segment

end SandboxPredictor
