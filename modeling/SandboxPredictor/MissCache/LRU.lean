import SandboxPredictor.Lib.Mealy
import SandboxPredictor.Lib.Slots
import SandboxPredictor.MissCache.Entry

/- `LRUMCache` (`lru.cc`): a miss cache of `numEntries ≥ 1` aged entries.

   `access_inv` is the step: an access acts on the recency list that the ages
   of the valid entries spell out as `touch` does. While the cache fills, the
   ageing loop also ages entries that are not valid yet; `Inv.fill` keeps them
   behind the valid ones, and the last fill leaves `lru` at the oldest entry. -/
namespace SandboxPredictor
open Recency

/-- `LRUMCache`: the entries, the last snapshot, and the cached oldest entry. -/
structure LRUMCache (numEntries : Nat) where
  entries : Fin numEntries → LRUEntry
  savedState : Fin numEntries → Word
  lru : Fin numEntries

namespace LRUMCache

variable {n : Nat}

/-- `reset`: every field is overwritten. -/
def reset (_ : LRUMCache (n + 1)) : LRUMCache (n + 1) where
  entries := fun i => { valid := false, pc := 0, age := i }
  savedState := fun _ => 0
  lru := Fin.last n

def getIdx (c : LRUMCache (n + 1)) (pc : Word) : Option (Fin (n + 1)) :=
  savedIdx c.savedState pc

/-- The entry `access` uses and the age its ageing loop stops at: `lru` and
`numEntries - 1` by default, the first entry that is not valid if there is one,
and a hit has the highest priority. -/
def target (c : LRUMCache (n + 1)) (pc : Word) : Fin (n + 1) × Nat :=
  match Fin.find? (fun i => (c.entries i).pc == pc && (c.entries i).valid) with
  | some i => (i, (c.entries i).age)
  | none => ((Fin.find? (fun i => !(c.entries i).valid)).getD c.lru, n)

/-- `access`: insertion and eviction are silent; the result is the index of `pc`
in the saved state. -/
def access (c : LRUMCache (n + 1)) (pc : Word) :
    Option (Fin (n + 1)) × LRUMCache (n + 1) :=
  let (pcIdx, pcAge) := c.target pc
  let c' : LRUMCache (n + 1) :=
    { c with
      entries := Function.update (ageYounger c.entries pcAge) pcIdx
        { valid := true, pc := pc, age := 0 }
      lru := lruAfter (fun i => decide ((c.entries i).age < pcAge))
        (fun i => (c.entries i).age) c.lru }
  (c'.getIdx pc, c')

/-- `get_all`: the pcs written to the output array, of which the result is the number. The
loop ends when `count` of them have been written. -/
def getAll (c : LRUMCache (n + 1)) (count : Nat) : List Word :=
  (List.finRange (n + 1)).foldl (fun pcs i =>
    if pcs.length ≥ count then pcs
    else if (c.entries i).age < count then pcs ++ [(c.entries i).pc] else pcs) []

def snapshot (c : LRUMCache (n + 1)) : LRUMCache (n + 1) :=
  { c with savedState := fun i => (c.entries i).pc }

/-- Some valid entry holds `pc`. -/
def Resident (c : LRUMCache (n + 1)) (pc : Word) : Prop :=
  ∃ i, (c.entries i).valid = true ∧ (c.entries i).pc = pc

/-! ## The recency list of the cache -/

/-- The ages of the valid entries spell out the recency list `L`. -/
abbrev Spells (c : LRUMCache (n + 1)) (L : List Word) : Prop :=
  Ranked (fun i => (c.entries i).valid = true) (fun i => (c.entries i).pc)
    (fun i => (c.entries i).age) L

/-- Beside the recency list: an entry that is not valid is never younger than a
valid one, and once every entry is valid `lru` is the one of age `numEntries - 1`. -/
structure Inv (c : LRUMCache (n + 1)) (L : List Word) : Prop where
  spells : c.Spells L
  fill : ∀ i, (c.entries i).valid = false → L.length ≤ (c.entries i).age
  oldest : (∀ i, (c.entries i).valid = true) → (c.entries c.lru).age = n

theorem reset_inv (c : LRUMCache (n + 1)) : c.reset.Inv [] where
  spells := Ranked.empty (fun _ => by simp [reset])
  fill := fun _ _ => Nat.zero_le _
  oldest := fun h => absurd (h 0) (by simp [reset])

theorem Spells.length_le {c : LRUMCache (n + 1)} {L : List Word} (h : c.Spells L) :
    L.length ≤ n + 1 := by
  simpa using h.length_le_card

theorem Spells.full_iff {c : LRUMCache (n + 1)} {L : List Word} (h : c.Spells L) :
    L.length = n + 1 ↔ ∀ i, (c.entries i).valid = true := by
  simpa using Ranked.full_iff h

theorem Spells.resident_iff {c : LRUMCache (n + 1)} {L : List Word} (h : c.Spells L)
    {pc : Word} : c.Resident pc ↔ pc ∈ L := h.mem_iff.symm

/-! ## One access -/

/-- The three ways `access` chooses its entry. -/
theorem target_cases (c : LRUMCache (n + 1)) (pc : Word) :
    (∃ i, (c.entries i).valid = true ∧ (c.entries i).pc = pc ∧
      c.target pc = (i, (c.entries i).age)) ∨
    ¬ c.Resident pc ∧
      ((∃ i, (c.entries i).valid = false ∧ c.target pc = (i, n)) ∨
        (∀ i, (c.entries i).valid = true) ∧ c.target pc = (c.lru, n)) := by
  unfold target
  cases hhit : Fin.find? (fun i => (c.entries i).pc == pc && (c.entries i).valid) with
  | some i =>
    have hi := (Fin.find?_eq_some_iff.mp hhit).1
    simp only [Bool.and_eq_true, beq_iff_eq] at hi
    exact Or.inl ⟨i, hi.2, hi.1, rfl⟩
  | none =>
    have hmiss := Fin.find?_eq_none_iff.mp hhit
    refine Or.inr ⟨?_, ?_⟩
    · intro ⟨i, hv, hpc⟩
      have := hmiss i
      simp [hv, hpc] at this
    · cases hnew : Fin.find? (fun i => !(c.entries i).valid) with
      | some i =>
        have hi := (Fin.find?_eq_some_iff.mp hnew).1
        exact Or.inl ⟨i, by simpa using hi, rfl⟩
      | none =>
        have hall := Fin.find?_eq_none_iff.mp hnew
        exact Or.inr ⟨fun i => by simpa using hall i, rfl⟩

section
variable {c : LRUMCache (n + 1)} {pc : Word} {i : Fin (n + 1)} {age : Nat}

theorem access_entries (ht : c.target pc = (i, age)) : (c.access pc).2.entries =
    Function.update (ageYounger c.entries age) i { valid := true, pc := pc, age := 0 } := by
  simp only [access, ht]

theorem access_lru (ht : c.target pc = (i, age)) : (c.access pc).2.lru =
    lruAfter (fun i => decide ((c.entries i).age < age)) (fun i => (c.entries i).age) c.lru := by
  simp only [access, ht]

theorem access_self (ht : c.target pc = (i, age)) :
    (c.access pc).2.entries i = { valid := true, pc := pc, age := 0 } := by
  rw [access_entries ht, Function.update_self]

theorem access_ne (ht : c.target pc = (i, age)) {j : Fin (n + 1)} (hj : j ≠ i) :
    (c.access pc).2.entries j =
      { c.entries j with
        age := if (c.entries j).age < age then (c.entries j).age + 1 else (c.entries j).age } := by
  rw [access_entries ht, Function.update_of_ne hj, ageYounger]
  split <;> rfl

theorem access_age (ht : c.target pc = (i, age)) {j : Fin (n + 1)} (hj : j ≠ i) :
    ((c.access pc).2.entries j).age =
      if (c.entries j).age < age then (c.entries j).age + 1 else (c.entries j).age := by
  rw [access_ne ht hj]

theorem access_valid (ht : c.target pc = (i, age)) (j : Fin (n + 1)) :
    ((c.access pc).2.entries j).valid = true ↔ j = i ∨ (c.entries j).valid = true := by
  by_cases hj : j = i
  · subst hj; simp [access_self ht]
  · simp [access_ne ht hj, hj]

end

theorem access_spells {c : LRUMCache (n + 1)} {L : List Word} (h : c.Inv L) (pc : Word) :
    (c.access pc).2.Spells (touch (n + 1) L pc) := by
  have hs := h.spells
  obtain ⟨⟨i, age⟩, ht⟩ : ∃ t, c.target pc = t := ⟨_, rfl⟩
  refine hs.touch i age (by simp) (access_valid ht) (by rw [access_self ht])
    (fun j _ hj => by rw [access_ne ht hj]) (by rw [access_self ht])
    (fun j _ hj => access_age ht hj) ?_
  have hL : ¬ c.Resident pc → pc ∉ L := mt hs.resident_iff.mpr
  obtain ⟨k, hv, hpc, hk⟩ | ⟨hmiss, ⟨k, hv, hk⟩ | ⟨hall, hk⟩⟩ := c.target_cases pc
  all_goals
    obtain ⟨rfl, rfl⟩ := Prod.mk.inj (ht.symm.trans hk)
  · exact Or.inl ⟨hv, hpc, rfl⟩
  · exact Or.inr ⟨hL hmiss, rfl, Or.inl (by simp [hv])⟩
  · exact Or.inr ⟨hL hmiss, rfl, Or.inr ⟨hall, h.oldest hall⟩⟩

/-- An entry that is not valid stays at least as old as the list is long. -/
theorem access_fill {c : LRUMCache (n + 1)} {L : List Word} (h : c.Inv L) (pc : Word)
    (j : Fin (n + 1)) (hj : ((c.access pc).2.entries j).valid = false) :
    (touch (n + 1) L pc).length ≤ ((c.access pc).2.entries j).age := by
  have hs := h.spells
  have hs' := access_spells h pc
  have hlen' : (touch (n + 1) L pc).length ≤ n := by
    have hle := hs'.length_le
    have hne : (touch (n + 1) L pc).length ≠ n + 1 := fun e => by
      have hv := hs'.full_iff.mp e j
      rw [hj] at hv; cases hv
    omega
  have hgrow : (touch (n + 1) L pc).length ≤ L.length + 1 := by
    rw [touch, List.length_take, List.length_cons]
    have herase := List.length_erase_le (a := pc) (l := L)
    omega
  obtain ⟨i, hv, hpc, ht⟩ | ⟨hmiss, ⟨i, hv, ht⟩ | ⟨hall, ht⟩⟩ := c.target_cases pc
  · have hji : j ≠ i := by intro e; rw [e, access_self ht] at hj; cases hj
    have hfill := h.fill j (by rw [access_ne ht hji] at hj; exact hj)
    have hmem := hs.resident_iff.mp ⟨i, hv, hpc⟩
    rw [touch_hit hmem hs.length_le, access_age ht hji, List.length_cons,
      List.length_erase_of_mem hmem]
    have hlt := hs.age_lt hv
    split <;> omega
  · have hji : j ≠ i := by intro e; rw [e, access_self ht] at hj; cases hj
    have hfill := h.fill j (by rw [access_ne ht hji] at hj; exact hj)
    rw [access_age ht hji]
    split <;> omega
  · have hv := (access_valid ht j).mpr (Or.inr (hall j))
    rw [hj] at hv; cases hv

/-- The entry accessed is never one that the loop brings to the age `numEntries - 1`, if all
entries are valid after the access. -/
theorem target_not_oldest {c : LRUMCache (n + 1)} {L : List Word} (h : c.Inv L) {pc : Word}
    {i : Fin (n + 1)} {age : Nat} (ht : c.target pc = (i, age))
    (hlen' : (touch (n + 1) L pc).length = n + 1) (hlt : (c.entries i).age < age) :
    (c.entries i).age + 1 ≠ n := by
  intro he
  obtain ⟨k, hv, hpc, hk⟩ | ⟨hmiss, ⟨k, hv, hk⟩ | ⟨hall, hk⟩⟩ := c.target_cases pc
  all_goals
    obtain ⟨hik, hage⟩ := Prod.mk.inj (ht.symm.trans hk)
    subst hik
  · omega
  · have hfill := h.fill i hv
    have hL : pc ∉ L := fun hm => hmiss (h.spells.resident_iff.mpr hm)
    have hroom : L.length < n + 1 := by omega
    rw [touch_room hL hroom, List.length_cons] at hlen'
    omega
  · have hold := h.oldest hall
    omega

theorem access_oldest {c : LRUMCache (n + 1)} {L : List Word} (h : c.Inv L) (pc : Word)
    (hall' : ∀ i, ((c.access pc).2.entries i).valid = true) :
    ((c.access pc).2.entries (c.access pc).2.lru).age = n := by
  have hs := h.spells
  have hs' := access_spells h pc
  have hlen' := hs'.full_iff.mpr hall'
  obtain ⟨⟨i, age⟩, ht⟩ : ∃ t, c.target pc = t := ⟨_, rfl⟩
  rw [access_lru ht]
  refine lruAfter_oldest (fun j => ((c.access pc).2.entries j).age) i
    (by rw [access_self ht]) ?_ ?_ ?_ ?_
  · intro j hj
    simp only [access_age ht hj, decide_eq_true_eq]
  · intro hy
    exact target_not_oldest h ht hlen' (of_decide_eq_true hy)
  · obtain ⟨j, _, hj⟩ := hs'.slot n (by omega)
    exact ⟨j, hj⟩
  · intro j hji hy hj
    have hv : (c.entries j).valid = true := ((access_valid ht j).mp (hall' j)).resolve_left hji
    have hfull : L.length = n + 1 := by
      have hlt := hs.age_lt hv
      have hle := hs.length_le
      omega
    have hall := hs.full_iff.mp hfull
    exact hs.inj _ _ (hall _) hv (by rw [h.oldest hall, hj])

/-- The step: one access acts on the recency list as `touch`, and repairs the
ages of the fill phase and the cached oldest entry. -/
theorem access_inv {c : LRUMCache (n + 1)} {L : List Word} (h : c.Inv L) (pc : Word) :
    (c.access pc).2.Inv (touch (n + 1) L pc) :=
  ⟨access_spells h pc, access_fill h pc, access_oldest h pc⟩

/-! ## The slots of the cache -/

/-- The pc in each entry that is valid. -/
def slots (c : LRUMCache (n + 1)) : Fin (n + 1) → Option Word :=
  fun i => if (c.entries i).valid then some (c.entries i).pc else none

/-- An access writes its pc into one entry: the one that holds it, or, on a miss, any. -/
theorem access_slots (c : LRUMCache (n + 1)) (pc : Word) :
    ∃ i, (c.access pc).2.slots = Function.update c.slots i (some pc) ∧
      (∀ j, ((c.access pc).2.entries j).pc = if j = i then pc else (c.entries j).pc) ∧
      (c.slots i = some pc ∨ ∀ j, c.slots j ≠ some pc) := by
  obtain ⟨⟨i, age⟩, ht⟩ : ∃ t, c.target pc = t := ⟨_, rfl⟩
  refine ⟨i, ?_, ?_, ?_⟩
  · funext j
    by_cases hj : j = i
    · subst hj
      simp [slots, access_self ht]
    · simp [slots, access_ne ht hj, Function.update_of_ne hj]
  · intro j
    by_cases hj : j = i
    · subst hj
      simp [access_self ht]
    · simp [access_ne ht hj, hj]
  · obtain ⟨k, hv, hpc, hk⟩ | ⟨hmiss, _⟩ := c.target_cases pc
    · obtain ⟨rfl, _⟩ := Prod.mk.inj (ht.symm.trans hk)
      exact Or.inl (by simp [slots, hv, hpc])
    · refine Or.inr ?_
      intro j hj
      simp only [slots] at hj
      split at hj
      next hv => exact hmiss ⟨j, hv, Option.some.inj hj⟩
      next => cases hj

/-! ## Runs -/

/-- The cache after accessing the pcs of a trace, from reset. -/
abbrev after (c : LRUMCache (n + 1)) (pcs : List Word) : LRUMCache (n + 1) :=
  Mealy.run access c.reset pcs

theorem after_inv (c : LRUMCache (n + 1)) (pcs : List Word) :
    (c.after pcs).Inv ((recent pcs).take (n + 1)) := by
  refine Mealy.run_induction (P := fun t (s : LRUMCache (n + 1)) => s.Inv ((recent t).take (n + 1))) ?_ ?_ pcs
  · exact c.reset_inv
  · intro t s pc h
    rw [recent_take_snoc]
    exact access_inv h pc

/-- Every rank of the recency list is the age of one valid entry. -/
theorem Spells.exists_unique_age {c : LRUMCache (n + 1)} {L : List Word} (h : c.Spells L) {a : Nat}
    (ha : a < L.length) : ∃! i, (c.entries i).valid = true ∧ (c.entries i).age = a := by
  obtain ⟨i, hi, hia⟩ := h.slot a ha
  exact ⟨i, ⟨hi, hia⟩, fun j hj => h.inj j i hj.1 hi (by rw [hj.2, hia])⟩

/-- A miss of a full cache evicts the pc accessed longest ago. -/
theorem access_evicts_iff {c : LRUMCache (n + 1)} {pcs : List Word}
    (h : c.Inv ((recent pcs).take (n + 1))) {pc q : Word} (hmiss : ¬ c.Resident pc)
    (hall : ∀ i, (c.entries i).valid = true) (hq : c.Resident q) :
    ¬ (c.access pc).2.Resident q ↔ ∀ r, c.Resident r → lastAccess pcs q ≤ lastAccess pcs r := by
  have hs := h.spells
  rw [(access_spells h pc).resident_iff,
    touch_evicts_iff (mt hs.resident_iff.mpr hmiss) (hs.full_iff.mpr hall) (hs.resident_iff.mp hq)]
  exact forall_congr' fun r => imp_congr_left hs.resident_iff.symm

/-- A miss of a cache that is not full evicts nothing. -/
theorem access_keeps {c : LRUMCache (n + 1)} {L : List Word} (h : c.Inv L) {pc q : Word}
    (hmiss : ¬ c.Resident pc) (hroom : ¬ ∀ i, (c.entries i).valid = true) (hq : c.Resident q) :
    (c.access pc).2.Resident q := by
  have hs := h.spells
  have hlen : L.length < n + 1 := Nat.lt_of_le_of_ne hs.length_le (mt hs.full_iff.mp hroom)
  rw [(access_spells h pc).resident_iff, touch_room (mt hs.resident_iff.mpr hmiss) hlen]
  apply List.mem_cons_of_mem pc
  exact hs.resident_iff.mp hq

/-- **Exact LRU.** After any trace the valid entries are the most recently
accessed distinct pcs, as many as there are and fit; the age of each is its
recency rank, and every rank is taken once. In a full cache the ages are thus a
permutation of `0 … numEntries - 1` and `lru` is the oldest entry. A miss on a
full cache evicts exactly the pc accessed longest ago, and a miss on a cache
that is not full evicts nothing. -/
theorem exact_lru (c : LRUMCache (n + 1)) (pcs : List Word) :
    let s := c.after pcs
    let k := min (n + 1) pcs.dedup.length
    (Finset.univ.filter (fun i => (s.entries i).valid = true)).card = k ∧
    (∀ i, (s.entries i).valid = true →
      (s.entries i).age < k ∧ (recent pcs)[(s.entries i).age]? = some (s.entries i).pc) ∧
    (∀ a, a < k → ∃! i, (s.entries i).valid = true ∧ (s.entries i).age = a) ∧
    ((∀ i, (s.entries i).valid = true) →
      (∀ a, a < n + 1 → ∃! i, (s.entries i).age = a) ∧ (s.entries s.lru).age = n) ∧
    (∀ pc, ¬ s.Resident pc → (∀ i, (s.entries i).valid = true) → ∀ q, s.Resident q →
      (¬ (s.access pc).2.Resident q ↔
        ∀ r, s.Resident r → lastAccess pcs q ≤ lastAccess pcs r)) ∧
    (∀ pc, ¬ s.Resident pc → ¬ (∀ i, (s.entries i).valid = true) → ∀ q, s.Resident q →
      (s.access pc).2.Resident q) := by
  intro s k
  have h : s.Inv ((recent pcs).take (n + 1)) := c.after_inv pcs
  have hs := h.spells
  have hlen : ((recent pcs).take (n + 1)).length = k := by
    rw [List.length_take, recent_length]
  have hslot : ∀ a, a < k → ∃! i, (s.entries i).valid = true ∧ (s.entries i).age = a :=
    fun a ha => hs.exists_unique_age (by rw [hlen]; exact ha)
  refine ⟨by rw [hs.card_valid, hlen], ?_, hslot, ?_, ?_, ?_⟩
  · intro i hi
    have hlt := hs.age_lt hi
    have hg := hs.get i hi
    rw [List.getElem?_take_of_lt (by have := hs.length_le; omega)] at hg
    exact ⟨by rw [← hlen]; exact hlt, hg⟩
  · intro hall
    refine ⟨?_, h.oldest hall⟩
    intro a ha
    have hk : k = n + 1 := by rw [← hlen]; exact hs.full_iff.mpr hall
    obtain ⟨i, hi, hu⟩ := hslot a (by omega)
    exact ⟨i, hi.2, fun j hj => hu j ⟨hall j, hj⟩⟩
  · exact fun pc hmiss hall q hq => access_evicts_iff h hmiss hall hq
  · exact fun pc hmiss hroom q hq => access_keeps h hmiss hroom hq

end LRUMCache

end SandboxPredictor
