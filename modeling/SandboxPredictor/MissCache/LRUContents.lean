import SandboxPredictor.MissCache.LRU

/- What `LRUMCache::get_all` returns.

   It selects entries by their age alone. While the cache fills, its `k` valid
   entries are the first ones, with the ages below `k`, and entry `j` behind them
   has the age `min (j + k) (numEntries - 1)` (`Filling`). So the pcs returned are
   the most recent ones as long as no such age is below `count`; beyond that the
   zeros of entries that are not valid are returned with them. -/
namespace SandboxPredictor
open Recency

namespace LRUMCache

variable {n : Nat}

/-- `get_all(pcs, count)` returns the `count` most recently accessed distinct pcs of the
trace, each once, or all valid entries when there are fewer. -/
structure ReturnsRecent (c : LRUMCache (n + 1)) (pcs : List Word) (count : Nat) : Prop where
  number : (c.getAll count).length =
    min count (Finset.univ.filter (fun i => (c.entries i).valid = true)).card
  recent : (c.getAll count).Perm ((recent pcs).take
    (min count (Finset.univ.filter (fun i => (c.entries i).valid = true)).card))

/-! ## The loop -/

/-- The entries whose age is below `count`, in their order. -/
def younger (c : LRUMCache (n + 1)) (count : Nat) : List (Fin (n + 1)) :=
  (List.finRange (n + 1)).filter (fun i => decide ((c.entries i).age < count))

theorem getAll_eq (c : LRUMCache (n + 1)) (count : Nat) :
    c.getAll count = ((c.younger count).map (fun i => (c.entries i).pc)).take count := by
  unfold getAll younger
  induction List.finRange (n + 1) using List.reverseRecOn with
  | nil => simp
  | append_singleton l i ih =>
    rw [List.foldl_append, ih, List.filter_append, List.map_append]
    simp only [List.foldl_cons, List.foldl_nil]
    split
    next hfull =>
      -- the loop has ended
      rw [List.take_append_of_le_length (hfull.trans (List.length_take_le' _ _))]
    next hroom =>
      rw [List.length_take] at hroom
      by_cases hage : (c.entries i).age < count
      · simp only [hage, decide_true, List.filter_cons_of_pos, List.filter_nil, List.map_cons,
          List.map_nil, if_true]
        rw [List.take_of_length_le (by omega), List.take_of_length_le]
        simp only [List.length_append, List.length_singleton]
        omega
      · simp [hage]

theorem length_getAll (c : LRUMCache (n + 1)) (count : Nat) :
    (c.getAll count).length = min count (c.younger count).length := by
  rw [getAll_eq, List.length_take, List.length_map]

/-! ## The ages while the cache fills -/

/-- The first `k` entries are valid, and entry `j` behind them has been aged `k` times. -/
structure Filling (c : LRUMCache (n + 1)) (k : Nat) : Prop where
  valid : ∀ j, (c.entries j).valid = true ↔ j.val < k
  age : ∀ j : Fin (n + 1), k ≤ j.val → (c.entries j).age = min (j.val + k) n

section
variable {c : LRUMCache (n + 1)} {L : List Word} {count k : Nat}

/-- A miss goes to the first entry that is not valid. -/
theorem target_fill {pc : Word} {i : Fin (n + 1)} (hmiss : ¬ c.Resident pc)
    (hi : (c.entries i).valid = false) (hbefore : ∀ j < i, (c.entries j).valid = true) :
    c.target pc = (i, n) := by
  have hhit : Fin.find? (fun i => (c.entries i).pc == pc && (c.entries i).valid) = none := by
    apply Fin.find?_eq_none_iff.2
    intro j
    by_contra hj
    simp only [Bool.and_eq_true, beq_iff_eq, Bool.not_eq_false] at hj
    exact hmiss ⟨j, hj.2, hj.1⟩
  have hnew : Fin.find? (fun i => !(c.entries i).valid) = some i := by
    apply Fin.find?_eq_some_iff.2
    refine ⟨by simp [hi], ?_⟩
    intro j hj
    simp [hbefore j hj]
  simp only [target, hhit, hnew, Option.getD_some]

/-- A hit ages the entries younger than the one accessed, all of them valid. -/
theorem access_filling_hit {pc : Word} {i : Fin (n + 1)} (h : c.Inv L) (hf : Filling c L.length)
    (hv : (c.entries i).valid = true) (hpc : (c.entries i).pc = pc)
    (ht : c.target pc = (i, (c.entries i).age)) :
    Filling (c.access pc).2 (touch (n + 1) L pc).length := by
  have hs := h.spells
  have hmem := hs.resident_iff.1 ⟨i, hv, hpc⟩
  have hlen : (touch (n + 1) L pc).length = L.length := by
    have hpos := List.length_pos_of_mem hmem
    rw [touch_hit hmem hs.length_le, List.length_cons, List.length_erase_of_mem hmem]
    omega
  have hi := (hf.valid i).1 hv
  rw [hlen]
  refine ⟨?_, ?_⟩
  · intro j
    rw [access_valid ht, hf.valid]
    refine ⟨?_, Or.inr⟩
    rintro (rfl | hj)
    · exact hi
    · exact hj
  · intro j hj
    -- an entry that is not valid is older than the one that was hit
    have hji : j ≠ i := by
      rintro rfl
      omega
    have hinvalid : (c.entries j).valid = false := by
      rw [← Bool.not_eq_true, hf.valid]
      omega
    have holder := h.fill j hinvalid
    have hyoung := hs.age_lt hv
    rw [access_age ht hji, if_neg (by omega), hf.age j hj]

/-- A miss fills the first entry that is not valid, and ages those behind it. -/
theorem access_filling_room {pc : Word} (hf : Filling c L.length) (hmiss : ¬ c.Resident pc)
    (hL : pc ∉ L) (hk : L.length ≤ n) :
    Filling (c.access pc).2 (touch (n + 1) L pc).length := by
  have ht : c.target pc = (⟨L.length, by omega⟩, n) := by
    apply target_fill hmiss
    · rw [← Bool.not_eq_true, hf.valid]
      exact Nat.lt_irrefl _
    · intro j hj
      exact (hf.valid j).2 hj
  rw [touch_room hL (by omega), List.length_cons]
  refine ⟨?_, ?_⟩
  · intro j
    rw [access_valid ht, hf.valid, Fin.ext_iff]
    simp only
    omega
  · intro j hj
    have hji : j ≠ ⟨L.length, by omega⟩ := by
      intro he
      rw [he] at hj
      simp only at hj
      omega
    rw [access_age ht hji, hf.age j (by omega)]
    split <;> omega

theorem access_filling_full {pc : Word} (hf : Filling c L.length) (hL : pc ∉ L)
    (hfull : L.length = n + 1) : Filling (c.access pc).2 (touch (n + 1) L pc).length := by
  have hlen : (touch (n + 1) L pc).length = n + 1 := by
    rw [touch, List.length_take, List.length_cons, List.erase_of_not_mem hL]
    omega
  obtain ⟨⟨i, age⟩, ht⟩ : ∃ t, c.target pc = t := ⟨_, rfl⟩
  rw [hlen]
  refine ⟨?_, ?_⟩
  · intro j
    rw [access_valid ht, hf.valid, hfull]
    exact ⟨fun _ => j.isLt, fun _ => Or.inr j.isLt⟩
  · intro j hj
    exact absurd j.isLt (by omega)

theorem access_filling (h : c.Inv L) (hf : Filling c L.length) (pc : Word) :
    Filling (c.access pc).2 (touch (n + 1) L pc).length := by
  obtain ⟨i, hv, hpc, ht⟩ | ⟨hmiss, _⟩ := c.target_cases pc
  · exact access_filling_hit h hf hv hpc ht
  · have hL : pc ∉ L := mt h.spells.resident_iff.2 hmiss
    by_cases hk : L.length ≤ n
    · exact access_filling_room hf hmiss hL hk
    · have hle := h.spells.length_le
      exact access_filling_full hf hL (by omega)

theorem after_filling (c : LRUMCache (n + 1)) (pcs : List Word) :
    Filling (c.after pcs) ((recent pcs).take (n + 1)).length := by
  induction pcs using List.reverseRecOn with
  | nil =>
    refine ⟨fun j => by simp [reset, recent], ?_⟩
    intro j _
    show j.val = min (j.val + 0) n
    omega
  | append_singleton pcs pc ih =>
    rw [recent_take_snoc, after, Mealy.run_snoc]
    exact access_filling (c.after_inv pcs) ih pc

/-! ## What is returned -/

/-- When the age selects valid entries only, the pcs returned are the most recent ones. -/
theorem getAll_perm (h : c.Inv L)
    (hvalid : ∀ i, (c.entries i).age < count → (c.entries i).valid = true) :
    (c.getAll count).Perm (L.take count) := by
  have hs := h.spells
  have hyoung : ∀ i, i ∈ c.younger count ↔ (c.entries i).age < count := by
    intro i
    simp [younger]
  have hperm : ((c.younger count).map (fun i => (c.entries i).pc)).Perm (L.take count) := by
    apply (List.perm_ext_iff_of_nodup _ (hs.nodup.sublist (List.take_sublist _ _))).2
    · intro q
      rw [List.mem_map, List.mem_take_iff_getElem]
      refine ⟨?_, ?_⟩
      · rintro ⟨i, hi, rfl⟩
        have hage := (hyoung i).1 hi
        have hv := hvalid i hage
        have hget := hs.get i hv
        have hlt := hs.age_lt hv
        refine ⟨(c.entries i).age, by omega, ?_⟩
        rw [List.getElem?_eq_getElem hlt] at hget
        exact Option.some.inj hget
      · rintro ⟨a, ha, rfl⟩
        obtain ⟨i, hv, hage⟩ := hs.slot a (by omega)
        refine ⟨i, (hyoung i).2 (by omega), ?_⟩
        have hget := hs.get i hv
        simp only [hage] at hget
        rw [List.getElem?_eq_getElem (by omega)] at hget
        exact (Option.some.inj hget).symm
    · apply List.Nodup.map_on _ ((List.nodup_finRange _).filter _)
      intro i hi j hj hpc
      exact hs.key_inj (hvalid i ((hyoung i).1 hi)) (hvalid j ((hyoung j).1 hj)) hpc
  have hlen := hperm.length_eq
  rw [List.length_take] at hlen
  rw [getAll_eq, List.take_of_length_le (by omega)]
  exact hperm

/-- When it selects the first entry that is not valid, more pcs are returned than there are
valid entries. -/
theorem lt_length_getAll (hf : Filling c L.length) (hs : c.Spells L) (hk : L.length ≤ n)
    (hcount : min (2 * L.length) n < count) : L.length < (c.getAll count).length := by
  have hsub : (List.finRange (L.length + 1)).map (Fin.castLE (by omega)) ⊆ c.younger count := by
    intro j hj
    obtain ⟨i, _, rfl⟩ := List.mem_map.1 hj
    simp only [younger, List.mem_filter, List.mem_finRange, true_and, decide_eq_true_eq]
    by_cases hi : i.val < L.length
    · have hage := hs.age_lt ((hf.valid (Fin.castLE (by omega) i)).2 hi)
      omega
    · have hage := hf.age (Fin.castLE (by omega) i) (Nat.le_of_not_lt hi)
      rw [hage, Fin.val_castLE]
      omega
  have hnodup : ((List.finRange (L.length + 1)).map
      (Fin.castLE (show L.length + 1 ≤ n + 1 by omega))).Nodup :=
    (List.nodup_finRange _).map (Fin.castLE_injective _)
  have hlen := (hnodup.subperm hsub).length_le
  rw [List.length_map, List.length_finRange] at hlen
  rw [length_getAll]
  omega

end

/-- **Where `get_all` returns the most recent pcs.** After any accesses from reset it does if
and only if all entries are valid, or `count` is not above the age of the first one that is
not: `min (2 * k) (numEntries - 1)` when `k` are. -/
theorem returnsRecent_iff (c : LRUMCache (n + 1)) (pcs : List Word) (count : Nat) :
    let k := (Finset.univ.filter (fun i => ((c.after pcs).entries i).valid = true)).card
    (c.after pcs).ReturnsRecent pcs count ↔ k = n + 1 ∨ count ≤ min (2 * k) n := by
  intro k
  have h := c.after_inv pcs
  have hf := c.after_filling pcs
  have hk : k = ((recent pcs).take (n + 1)).length := h.spells.card_valid
  have hle := h.spells.length_le
  rw [← hk] at hf hle
  refine ⟨?_, ?_⟩
  · intro hreturns
    by_contra hcond
    rw [not_or, Nat.not_le] at hcond
    have hmore : ((recent pcs).take (n + 1)).length < ((c.after pcs).getAll count).length :=
      lt_length_getAll (hk ▸ hf) h.spells (by omega) (hk ▸ hcond.2)
    have hnumber : ((c.after pcs).getAll count).length = min count k := hreturns.number
    omega
  · intro hcond
    have hvalid : ∀ i, ((c.after pcs).entries i).age < count →
        ((c.after pcs).entries i).valid = true := by
      intro i hage
      rw [hf.valid]
      by_contra hi
      have hold := hf.age i (Nat.le_of_not_lt hi)
      have hlt := i.isLt
      omega
    have htake : ((recent pcs).take (n + 1)).take count = (recent pcs).take (min count k) := by
      rw [List.take_take, List.take_eq_take_iff, hk, List.length_take]
      omega
    have hperm : ((c.after pcs).getAll count).Perm (((recent pcs).take (n + 1)).take count) :=
      getAll_perm h hvalid
    refine ⟨?_, htake ▸ hperm⟩
    show _ = min count k
    rw [hperm.length_eq, List.length_take, hk]

/-- Two entries that start out empty. -/
def twoEntries : LRUMCache 2 := ⟨fun _ => ⟨false, 0, 0⟩, fun _ => 0, ⟨0, Nat.zero_lt_two⟩⟩

/-- One access, then all cached pcs by the default count: the zero of the second entry,
which is not valid, is returned with the pc accessed. -/
theorem getAll_returns_invalid :
    ¬ (twoEntries.after [0x400a10]).ReturnsRecent [0x400a10] 4294967295 := by
  intro h
  have hnumber := h.number
  revert hnumber
  decide

end LRUMCache

end SandboxPredictor
