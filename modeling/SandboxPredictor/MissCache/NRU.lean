import SandboxPredictor.Lib.Mealy
import SandboxPredictor.Lib.Slots
import SandboxPredictor.MissCache.Entry

/- `NRUMCache` (`nru.cc`): a miss cache that replaces an entry that was not used
   again since its insertion, found by a scan from a random entry, and falls back
   to its cached oldest entry when there is none.

   The scan sets `pcIdx` to its victim but leaves `pcAge` at the default
   `numEntries - 1`, so the ageing loop also ages the entries older than the
   victim. From a step whose victim is not the oldest entry on, the ages need not
   be a recency order any more and `lru` may name a young entry
   (`evicts_young_entry`). As long as every such victim is the oldest entry, the
   ages stay the recency order and the fallback is exact
   (`fallback_evicts_oldest`). -/
namespace SandboxPredictor
open Recency

/-- `nru_entry_t`. -/
structure NRUEntry where
  used : Bool
  valid : Bool
  pc : Word
  age : Nat
  deriving DecidableEq, Repr

/-- `NRUMCache`: the entries, the last snapshot, and the cached oldest entry. -/
structure NRUMCache (numEntries : Nat) where
  entries : Fin numEntries → NRUEntry
  savedState : Fin numEntries → Word
  lru : Fin numEntries

namespace NRUMCache

variable {n : Nat}

/-- `reset`: every field is overwritten. -/
def reset (_ : NRUMCache (n + 1)) : NRUMCache (n + 1) where
  entries := fun i => { used := false, valid := false, pc := 0, age := i }
  savedState := fun _ => 0
  lru := Fin.last n

def getIdx (c : NRUMCache (n + 1)) (pc : Word) : Option (Fin (n + 1)) :=
  savedIdx c.savedState pc

/-- `(j + randBase) % numEntries`. -/
def scanIdx (randBase : Nat) (j : Fin (n + 1)) : Fin (n + 1) :=
  ⟨(j + randBase) % (n + 1), Nat.mod_lt _ (Nat.succ_pos n)⟩

/-- The random scan: the first valid entry that was not used, from entry
`randBase % numEntries` on. -/
def firstUnused (c : NRUMCache (n + 1)) (randBase : Nat) : Option (Fin (n + 1)) :=
  (Fin.find? (fun j => !(c.entries (scanIdx randBase j)).used &&
    (c.entries (scanIdx randBase j)).valid)).map (scanIdx randBase)

/-- What `access` settles before its ageing loop: the entry it uses, the age the
loop stops at, and whether `pc` was a hit. -/
structure Target (n : Nat) where
  pcIdx : Fin (n + 1)
  pcAge : Nat
  hit : Bool

/-- By default `lru` and `numEntries - 1`; an unused entry if possible, a new
entry if possible, and a hit has the highest priority. -/
def target (c : NRUMCache (n + 1)) (pc : Word) (randBase : Nat) : Target n :=
  match Fin.find? (fun i => (c.entries i).pc == pc && (c.entries i).valid) with
  | some i => ⟨i, (c.entries i).age, true⟩
  | none =>
    match Fin.find? (fun i => !(c.entries i).valid) with
    | some i => ⟨i, n, false⟩
    | none => ⟨(c.firstUnused randBase).getD c.lru, n, false⟩

/-- The ageing loop: the age of every valid entry younger than `pcAge` is incremented. -/
def ageYounger (entries : Fin (n + 1) → NRUEntry) (pcAge : Nat) : Fin (n + 1) → NRUEntry :=
  fun i => if (entries i).age < pcAge && (entries i).valid
    then { entries i with age := (entries i).age + 1 } else entries i

/-- `access`, given the result of `rand()`: insertion and eviction are silent; the
result is the index of `pc` in the saved state. -/
def access (c : NRUMCache (n + 1)) (pc : Word) (randBase : Nat) :
    Option (Fin (n + 1)) × NRUMCache (n + 1) :=
  let t := c.target pc randBase
  let c' : NRUMCache (n + 1) :=
    { c with
      entries := Function.update (ageYounger c.entries t.pcAge) t.pcIdx
        { used := t.hit, valid := true, pc := pc, age := 0 }
      lru := lruAfter (fun i => (c.entries i).age < t.pcAge && (c.entries i).valid)
        (fun i => (c.entries i).age) c.lru }
  (c'.getIdx pc, c')

def snapshot (c : NRUMCache (n + 1)) : NRUMCache (n + 1) :=
  { c with savedState := fun i => (c.entries i).pc }

/-- Some valid entry holds `pc`. -/
def Resident (c : NRUMCache (n + 1)) (pc : Word) : Prop :=
  ∃ i, (c.entries i).valid = true ∧ (c.entries i).pc = pc

instance (c : NRUMCache (n + 1)) (pc : Word) : Decidable (c.Resident pc) :=
  inferInstanceAs (Decidable (∃ i, (c.entries i).valid = true ∧ (c.entries i).pc = pc))

/-- One access of a run: a pc and the `rand()` result it draws. -/
def step (c : NRUMCache (n + 1)) (x : Word × Nat) : Option (Fin (n + 1)) × NRUMCache (n + 1) :=
  c.access x.1 x.2

/-- The cache after the accesses of a trace, from reset. -/
abbrev after (c : NRUMCache (n + 1)) (tr : List (Word × Nat)) : NRUMCache (n + 1) :=
  Mealy.run step c.reset tr

/-! ## One access -/

theorem scanIdx_surjective (randBase : Nat) :
    Function.Surjective (scanIdx (n := n) randBase) := by
  apply Finite.injective_iff_surjective.mp
  intro i j hij
  have hmod : (i + randBase : Nat) ≡ j + randBase [MOD n + 1] := congrArg Fin.val hij
  exact Fin.ext ((Nat.ModEq.add_right_cancel' randBase hmod).eq_of_lt_of_lt i.isLt j.isLt)

/-- The random scan reaches every entry: it fails only when every valid entry is used. -/
theorem firstUnused_none {c : NRUMCache (n + 1)} {randBase : Nat}
    (h : c.firstUnused randBase = none) (i : Fin (n + 1)) (hv : (c.entries i).valid = true) :
    (c.entries i).used = true := by
  obtain ⟨j, rfl⟩ := scanIdx_surjective randBase i
  have hj := Fin.find?_eq_none_iff.mp (Option.map_eq_none_iff.mp h) j
  simpa [hv] using hj

/-- The random scan stops at the first valid entry that was not used. -/
theorem firstUnused_some {c : NRUMCache (n + 1)} {randBase : Nat} {i : Fin (n + 1)}
    (h : c.firstUnused randBase = some i) :
    ∃ j, scanIdx randBase j = i ∧ (c.entries i).used = false ∧ (c.entries i).valid = true ∧
      ∀ j' < j, (c.entries (scanIdx randBase j')).valid = true →
        (c.entries (scanIdx randBase j')).used = true := by
  obtain ⟨j, hj, rfl⟩ := Option.map_eq_some_iff.mp h
  obtain ⟨hstop, hbefore⟩ := Fin.find?_eq_some_iff.mp hj
  simp only [Bool.and_eq_true, Bool.not_eq_true'] at hstop
  refine ⟨j, rfl, hstop.1, hstop.2, ?_⟩
  intro j' hlt hv
  simpa [hv] using hbefore j' hlt

/-- The four ways `access` chooses its entry. -/
theorem target_cases (c : NRUMCache (n + 1)) (pc : Word) (randBase : Nat) :
    (∃ i, (c.entries i).valid = true ∧ (c.entries i).pc = pc ∧
      c.target pc randBase = ⟨i, (c.entries i).age, true⟩) ∨
    ¬ c.Resident pc ∧
      ((∃ i, (c.entries i).valid = false ∧ c.target pc randBase = ⟨i, n, false⟩) ∨
        (∀ i, (c.entries i).valid = true) ∧
          ((∃ i, c.firstUnused randBase = some i ∧ c.target pc randBase = ⟨i, n, false⟩) ∨
            (∀ i, (c.entries i).used = true) ∧ c.target pc randBase = ⟨c.lru, n, false⟩)) := by
  unfold target
  cases hhit : Fin.find? (fun i => (c.entries i).pc == pc && (c.entries i).valid) with
  | some i =>
    have hi := (Fin.find?_eq_some_iff.mp hhit).1
    simp only [Bool.and_eq_true, beq_iff_eq] at hi
    exact Or.inl ⟨i, hi.2, hi.1, rfl⟩
  | none =>
    have hmiss := Fin.find?_eq_none_iff.mp hhit
    refine Or.inr ⟨?_, ?_⟩
    · intro ⟨i, hv, hpc⟩
      have := hmiss i
      simp [hv, hpc] at this
    · cases hnew : Fin.find? (fun i => !(c.entries i).valid) with
      | some i =>
        have hi := (Fin.find?_eq_some_iff.mp hnew).1
        exact Or.inl ⟨i, by simpa using hi, rfl⟩
      | none =>
        have hall : ∀ i, (c.entries i).valid = true := fun i => by
          simpa using Fin.find?_eq_none_iff.mp hnew i
        refine Or.inr ⟨hall, ?_⟩
        cases hun : c.firstUnused randBase with
        | some i => exact Or.inl ⟨i, rfl, rfl⟩
        | none => exact Or.inr ⟨fun i => firstUnused_none hun i (hall i), rfl⟩

section
variable {c : NRUMCache (n + 1)} {pc : Word} {randBase : Nat} {i : Fin (n + 1)} {age : Nat}
  {hit : Bool}

theorem access_lru (ht : c.target pc randBase = ⟨i, age, hit⟩) : (c.access pc randBase).2.lru =
    lruAfter (fun i => (c.entries i).age < age && (c.entries i).valid)
      (fun i => (c.entries i).age) c.lru := by
  simp only [access, ht]

theorem access_self (ht : c.target pc randBase = ⟨i, age, hit⟩) :
    (c.access pc randBase).2.entries i = { used := hit, valid := true, pc := pc, age := 0 } := by
  simp only [access, ht, Function.update_self]

theorem access_ne (ht : c.target pc randBase = ⟨i, age, hit⟩) {j : Fin (n + 1)} (hj : j ≠ i) :
    (c.access pc randBase).2.entries j =
      { c.entries j with
        age := if (c.entries j).age < age && (c.entries j).valid then (c.entries j).age + 1
          else (c.entries j).age } := by
  simp only [access, ht]
  rw [Function.update_of_ne hj, ageYounger]
  split <;> rfl

theorem access_age (ht : c.target pc randBase = ⟨i, age, hit⟩) {j : Fin (n + 1)} (hj : j ≠ i) :
    ((c.access pc randBase).2.entries j).age =
      if (c.entries j).age < age && (c.entries j).valid then (c.entries j).age + 1
        else (c.entries j).age := by
  rw [access_ne ht hj]

theorem access_valid (ht : c.target pc randBase = ⟨i, age, hit⟩) (j : Fin (n + 1)) :
    ((c.access pc randBase).2.entries j).valid = true ↔
      j = i ∨ (c.entries j).valid = true := by
  by_cases hj : j = i
  · subst hj; simp [access_self ht]
  · simp [access_ne ht hj, hj]

end

/-! ## The slots of the cache -/

/-- The pc in each entry that is valid. -/
def slots (c : NRUMCache (n + 1)) : Fin (n + 1) → Option Word :=
  fun i => if (c.entries i).valid then some (c.entries i).pc else none

/-- An access writes its pc into one entry: the one that holds it, or, on a miss, any. -/
theorem access_slots (c : NRUMCache (n + 1)) (pc : Word) (randBase : Nat) :
    ∃ i, (c.access pc randBase).2.slots = Function.update c.slots i (some pc) ∧
      (∀ j, ((c.access pc randBase).2.entries j).pc = if j = i then pc else (c.entries j).pc) ∧
      (c.slots i = some pc ∨ ∀ j, c.slots j ≠ some pc) := by
  obtain ⟨⟨i, age, hit⟩, ht⟩ : ∃ t, c.target pc randBase = t := ⟨_, rfl⟩
  refine ⟨i, ?_, ?_, ?_⟩
  · funext j
    by_cases hj : j = i
    · subst hj
      simp [slots, access_self ht]
    · simp [slots, access_ne ht hj, Function.update_of_ne hj]
  · intro j
    by_cases hj : j = i
    · subst hj
      simp [access_self ht]
    · simp [access_ne ht hj, hj]
  · obtain ⟨k, hv, hpc, hk⟩ | ⟨hmiss, _⟩ := c.target_cases pc randBase
    · obtain ⟨rfl, _⟩ := Target.mk.inj (ht.symm.trans hk)
      exact Or.inl (by simp [slots, hv, hpc])
    · refine Or.inr ?_
      intro j hj
      simp only [slots] at hj
      split at hj
      next hv => exact hmiss ⟨j, hv, Option.some.inj hj⟩
      next => cases hj

/-! ## Runs whose random victims are the oldest entries -/

/-- The ages of the valid entries spell out the recency list `L`. -/
abbrev Spells (c : NRUMCache (n + 1)) (L : List Word) : Prop :=
  Ranked (fun i => (c.entries i).valid = true) (fun i => (c.entries i).pc)
    (fun i => (c.entries i).age) L

theorem Spells.length_le {c : NRUMCache (n + 1)} {L : List Word} (h : c.Spells L) :
    L.length ≤ n + 1 := by
  simpa using h.length_le_card

theorem Spells.full_iff {c : NRUMCache (n + 1)} {L : List Word} (h : c.Spells L) :
    L.length = n + 1 ↔ ∀ i, (c.entries i).valid = true := by
  simpa using Ranked.full_iff h

theorem Spells.resident_iff {c : NRUMCache (n + 1)} {L : List Word} (h : c.Spells L)
    {pc : Word} : c.Resident pc ↔ pc ∈ L := h.mem_iff.symm

/-- Beside the recency list: in a full cache `lru` is the oldest entry. -/
structure Inv (c : NRUMCache (n + 1)) (L : List Word) : Prop where
  spells : c.Spells L
  oldest : (∀ i, (c.entries i).valid = true) → (c.entries c.lru).age = n

/-- When the access misses in a full cache, the first unused entry from entry
`rand() % numEntries` on, if there is one, is the entry of age `numEntries - 1`. -/
def VictimOldest (c : NRUMCache (n + 1)) (x : Word × Nat) : Prop :=
  ¬ c.Resident x.1 → (∀ i, (c.entries i).valid = true) →
    ∀ j, (c.entries (scanIdx x.2 j)).used = false →
      (∀ j' < j, (c.entries (scanIdx x.2 j')).used = true) →
      (c.entries (scanIdx x.2 j)).age = n

instance (c : NRUMCache (n + 1)) (x : Word × Nat) : Decidable (c.VictimOldest x) :=
  inferInstanceAs (Decidable (_ → _ → ∀ _, _ → _ → _))

theorem reset_inv (c : NRUMCache (n + 1)) : c.reset.Inv [] where
  spells := Ranked.empty (fun _ => by simp [reset])
  oldest := fun h => absurd (h 0) (by simp [reset])

/-- Under the condition an entry that `access` replaces in a full cache is the
oldest one. -/
theorem target_touch {c : NRUMCache (n + 1)} {L : List Word} {pc : Word} {randBase : Nat}
    (h : c.Inv L) (hc : c.VictimOldest (pc, randBase)) {i : Fin (n + 1)} {age : Nat} {hit : Bool}
    (ht : c.target pc randBase = ⟨i, age, hit⟩) :
    ((c.entries i).valid = true ∧ (c.entries i).pc = pc ∧ age = (c.entries i).age) ∨
      pc ∉ L ∧ age = n ∧ (¬ (c.entries i).valid = true ∨
        (∀ i, (c.entries i).valid = true) ∧ (c.entries i).age = n) := by
  have hL : ¬ c.Resident pc → pc ∉ L := mt h.spells.resident_iff.mpr
  obtain ⟨k, hv, hpc, hk⟩ | ⟨hmiss, ⟨k, hv, hk⟩ | ⟨hall, ⟨k, hun, hk⟩ | ⟨_, hk⟩⟩⟩ :=
    c.target_cases pc randBase
  all_goals
    obtain ⟨rfl, rfl, -⟩ := Target.mk.inj (ht.symm.trans hk)
  · exact Or.inl ⟨hv, hpc, rfl⟩
  · exact Or.inr ⟨hL hmiss, rfl, Or.inl (by simp [hv])⟩
  · obtain ⟨j, rfl, hu, _, hbefore⟩ := firstUnused_some hun
    have hold := hc hmiss hall j hu (fun j' hlt => hbefore j' hlt (hall _))
    exact Or.inr ⟨hL hmiss, rfl, Or.inr ⟨hall, hold⟩⟩
  · exact Or.inr ⟨hL hmiss, rfl, Or.inr ⟨hall, h.oldest hall⟩⟩

/-- The step: under the condition an access acts on the recency list as `touch`. -/
theorem access_inv {c : NRUMCache (n + 1)} {L : List Word} {pc : Word} {randBase : Nat}
    (h : c.Inv L) (hc : c.VictimOldest (pc, randBase)) :
    (c.access pc randBase).2.Inv (touch (n + 1) L pc) := by
  have hs := h.spells
  obtain ⟨⟨i, age, hit⟩, ht⟩ : ∃ t, c.target pc randBase = t := ⟨_, rfl⟩
  have hcase := target_touch h hc ht
  have hs' : (c.access pc randBase).2.Spells (touch (n + 1) L pc) := by
    refine hs.touch i age (by simp) (access_valid ht) (by rw [access_self ht])
      (fun j _ hj => by rw [access_ne ht hj]) (by rw [access_self ht]) ?_ hcase
    intro j hv hj
    simp [access_age ht hj, hv]
  refine ⟨hs', ?_⟩
  intro hall'
  have hlen' := hs'.full_iff.mpr hall'
  rw [access_lru ht]
  refine lruAfter_oldest (fun j => ((c.access pc randBase).2.entries j).age) i
    (by rw [access_self ht]) (fun j hj => access_age ht hj) ?_ ?_ ?_
  · -- the entry accessed is never one that reaches `numEntries - 1`
    intro hy
    simp only [Bool.and_eq_true, decide_eq_true_eq] at hy
    obtain ⟨_, _, hage⟩ | ⟨_, hage, hv | ⟨_, hold⟩⟩ := hcase
    · omega
    · exact absurd hy.2 hv
    · omega
  · obtain ⟨j, _, hj⟩ := hs'.slot n (by omega)
    exact ⟨j, hj⟩
  · intro j hji _ hj
    have hv : (c.entries j).valid = true := ((access_valid ht j).mp (hall' j)).resolve_left hji
    have hlt := hs.age_lt hv
    have hle := hs.length_le
    have hall := hs.full_iff.mp (by omega)
    exact hs.inj _ _ (hall _) hv (by rw [h.oldest hall, hj])

theorem after_inv {c : NRUMCache (n + 1)} {tr : List (Word × Nat)}
    (h : Mealy.Along step VictimOldest c.reset tr) :
    (c.after tr).Inv ((recent (tr.map Prod.fst)).take (n + 1)) := by
  refine Mealy.run_induction_along (C := VictimOldest)
    (P := fun t (s : NRUMCache (n + 1)) => s.Inv ((recent (t.map Prod.fst)).take (n + 1)))
    c.reset_inv ?_ tr h
  intro t s x hs hx
  rw [List.map_append, List.map_singleton, recent_take_snoc]
  exact access_inv hs hx

/-- When the access misses while every entry is valid and used, the resident pc
it evicts is the one accessed longest ago, `pcs` being the accesses so far. -/
def EvictsOldest (c : NRUMCache (n + 1)) (pcs : List Word) (pc : Word) (randBase : Nat) : Prop :=
  ¬ c.Resident pc → (∀ i, (c.entries i).valid = true ∧ (c.entries i).used = true) →
    ∀ q, c.Resident q → (¬ (c.access pc randBase).2.Resident q ↔
      ∀ r, c.Resident r → lastAccess pcs q ≤ lastAccess pcs r)

/-- **The fallback is exact as long as the random victims are the oldest.** After
any run in which every access that replaces an unused entry of a full cache
replaces the oldest one, a miss in a cache full of used entries evicts the pc
accessed longest ago. -/
theorem fallback_evicts_oldest (c : NRUMCache (n + 1)) (tr : List (Word × Nat))
    (h : Mealy.Along step VictimOldest c.reset tr) (pc : Word) (randBase : Nat) :
    (c.after tr).EvictsOldest (tr.map Prod.fst) pc randBase := by
  intro hmiss hall q hq
  have hinv := after_inv h
  have hs := hinv.spells
  have hv : ∀ i, ((c.after tr).entries i).valid = true := fun i => (hall i).1
  have hc : (c.after tr).VictimOldest (pc, randBase) := by
    intro _ _ j hun _
    rw [(hall _).2] at hun; cases hun
  rw [(access_inv hinv hc).spells.resident_iff,
    touch_evicts_iff (mt hs.resident_iff.mpr hmiss) (hs.full_iff.mpr hv) (hs.resident_iff.mp hq)]
  exact forall_congr' fun r => imp_congr_left hs.resident_iff.symm

/-- Two entries that start out empty. -/
def twoEntries : NRUMCache 2 :=
  ⟨fun _ => ⟨false, false, 0, 0⟩, fun _ => 0, 0⟩

theorem fallback_evicts_oldest_two :
    (twoEntries.after [(1, 0), (2, 0), (2, 0), (1, 0)]).EvictsOldest [1, 2, 2, 1] 3 0 :=
  fallback_evicts_oldest twoEntries [(1, 0), (2, 0), (2, 0), (1, 0)] (by decide) 3 0

/-- Pc 3 replaces the unused pc 2, the younger entry. The ageing loop ages the
entry replaced as if it were the oldest and points `lru` at it, so the next miss
among used entries evicts pc 3, accessed last, and keeps pc 1. -/
theorem evicts_young_entry :
    ¬ (twoEntries.after [(1, 0), (1, 0), (2, 0), (3, 0), (3, 0)]).EvictsOldest
      [1, 1, 2, 3, 3] 4 0 := by
  intro h
  have h3 := (h (by decide) (by decide) 3 (by decide)).mp (by decide)
  have h31 : lastAccess [(1 : Word), 1, 2, 3, 3] 3 ≤ lastAccess [1, 1, 2, 3, 3] 1 :=
    h3 1 (by decide)
  exact absurd h31 (by decide)

end NRUMCache

end SandboxPredictor
