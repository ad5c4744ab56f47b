import SandboxPredictor.Lib.Mealy
import SandboxPredictor.Lib.SegmentedLRU
import SandboxPredictor.Lib.Slots
import SandboxPredictor.MissCache.Segment

/- `SLRUMCache` (`slru.cc`): a protected and a probationary segment of
   `numEntries ≥ 1` entries each. `access_refines` is the step of the refinement
   of the two-list model of `Lib.SegmentedLRU`, over accesses of nonzero pcs: pc 0
   is what the segments return for "nothing evicted". -/
namespace SandboxPredictor
open Recency

/-- `SLRUMCache`: the two segments and the last snapshot. -/
structure SLRUMCache (numEntries : Nat) where
  protectedSeg : Segment numEntries
  probationarySeg : Segment numEntries
  savedState : Fin numEntries → Word

namespace SLRUMCache

variable {n : Nat}

def reset (c : SLRUMCache (n + 1)) : SLRUMCache (n + 1) where
  protectedSeg := c.protectedSeg.reset
  probationarySeg := c.probationarySeg.reset
  savedState := fun _ => 0

def getIdx (c : SLRUMCache (n + 1)) (pc : Word) : Option (Fin (n + 1)) :=
  savedIdx c.savedState pc

/-- `access`: the result is the index of `pc` in the saved state. -/
def access (c : SLRUMCache (n + 1)) (pc : Word) :
    Option (Fin (n + 1)) × SLRUMCache (n + 1) :=
  let c' : SLRUMCache (n + 1) :=
    if c.protectedSeg.contains pc then
      -- in the protected segment: bump activity
      { c with protectedSeg := c.protectedSeg.bump pc }
    else if c.probationarySeg.contains pc then
      -- in the probationary segment: move to protected, an evicted pc comes back
      let probationarySeg := c.probationarySeg.remove pc
      let (evicted, protectedSeg) := c.protectedSeg.add pc
      { c with
        protectedSeg := protectedSeg
        probationarySeg :=
          if evicted ≠ 0 then (probationarySeg.add evicted).2 else probationarySeg }
    else
      -- in neither segment: add to probationary
      { c with probationarySeg := (c.probationarySeg.add pc).2 }
  (c'.getIdx pc, c')

/-- `snapshot`: the pcs of the protected segment are saved. -/
def snapshot (c : SLRUMCache (n + 1)) : SLRUMCache (n + 1) :=
  { c with savedState := c.protectedSeg.getAll }

/-- Some valid entry of some segment holds `pc`. -/
def Resident (c : SLRUMCache (n + 1)) (pc : Word) : Prop :=
  c.protectedSeg.contains pc = true ∨ c.probationarySeg.contains pc = true

/-- The cache after accessing the pcs of a trace, from reset. -/
abbrev after (c : SLRUMCache (n + 1)) (pcs : List Word) : SLRUMCache (n + 1) :=
  Mealy.run access c.reset pcs

/-! ## The refinement -/

/-- The segments spell out the two lists, which hold no pc in common and not pc 0. -/
structure Refines (c : SLRUMCache (n + 1)) (m : SegmentedLRU.Lists Word) : Prop where
  prot : c.protectedSeg.Inv m.prot
  prob : c.probationarySeg.Inv m.prob
  apart : ∀ x ∈ m.prot, x ∉ m.prob
  nonzero : ∀ x, m.Holds x → x ≠ 0

section
variable {c : SLRUMCache (n + 1)} {m : SegmentedLRU.Lists Word} {pc : Word}

theorem reset_refines (c : SLRUMCache (n + 1)) :
    c.reset.Refines SegmentedLRU.Lists.empty where
  prot := c.protectedSeg.reset_inv
  prob := c.probationarySeg.reset_inv
  apart := fun _ hx => absurd hx List.not_mem_nil
  nonzero := fun _ hx => hx.elim (fun h => absurd h List.not_mem_nil)
    (fun h => absurd h List.not_mem_nil)

theorem Refines.resident_iff (h : c.Refines m) : c.Resident pc ↔ m.Holds pc :=
  or_congr h.prot.spells.contains_iff h.prob.spells.contains_iff

/-- A pc in protected is bumped. -/
theorem access_protected (h : c.Refines m) (hpc : pc ∈ m.prot) :
    (c.access pc).2.Refines ⟨pc :: m.prot.erase pc, m.prob⟩ := by
  have hacc : (c.access pc).2 = { c with protectedSeg := c.protectedSeg.bump pc } := by
    simp [access, h.prot.spells.contains_iff.mpr hpc]
  have hmem : ∀ x ∈ pc :: m.prot.erase pc, x ∈ m.prot := by
    intro x hx
    rcases List.mem_cons.mp hx with rfl | hx
    · exact hpc
    · exact List.mem_of_mem_erase hx
  rw [hacc]
  refine ⟨Segment.bump_inv h.prot hpc, h.prob, fun x hx => h.apart x (hmem x hx), ?_⟩
  intro x hx
  exact h.nonzero x (hx.imp (hmem x) id)

/-- What a promotion leaves behind: the segments after the code's three calls. -/
theorem access_promotes (h : c.Refines m) (hprot : pc ∉ m.prot) (hpc : pc ∈ m.prob) :
    (c.access pc).2 =
      { c with
        protectedSeg := (c.protectedSeg.add pc).2
        probationarySeg := if (c.protectedSeg.add pc).1 ≠ 0 then
          ((c.probationarySeg.remove pc).add (c.protectedSeg.add pc).1).2
          else c.probationarySeg.remove pc } := by
  have hc1 : c.protectedSeg.contains pc = false := by
    simpa using mt h.prot.spells.contains_iff.mp hprot
  simp [access, hc1, h.prob.spells.contains_iff.mpr hpc]

/-- A promotion into a protected segment with room evicts nothing. -/
theorem access_promotes_room (h : c.Refines m) (hprot : pc ∉ m.prot) (hpc : pc ∈ m.prob)
    (hroom : m.prot.length < n + 1) :
    (c.access pc).2.Refines ⟨pc :: m.prot, m.prob.erase pc⟩ := by
  have hadd := Segment.add_inv h.prot hprot
  rw [touch_room hprot hroom] at hadd
  have hev : (c.protectedSeg.add pc).1 = 0 := by
    rw [Segment.add_evicted h.prot, if_neg (by omega)]
  rw [access_promotes h hprot hpc, hev]
  refine ⟨hadd, ?_, ?_, ?_⟩
  · simpa using Segment.remove_inv h.prob hpc
  · intro x hx hm
    rcases List.mem_cons.mp hx with rfl | hx
    · exact h.prob.spells.nodup.not_mem_erase hm
    · exact h.apart x hx (List.mem_of_mem_erase hm)
  · intro x hx
    rcases hx with hx | hx
    · rcases List.mem_cons.mp hx with rfl | hx
      · exact h.nonzero x (Or.inr hpc)
      · exact h.nonzero x (Or.inl hx)
    · exact h.nonzero x (Or.inr (List.mem_of_mem_erase hx))

/-- A promotion into a full protected segment evicts its oldest pc `y`, which lands
in the entry of probationary that the promotion freed. -/
theorem access_promotes_full {ys : List Word} {y : Word} (h : c.Refines m) (hprot : pc ∉ m.prot)
    (hpc : pc ∈ m.prob) (hys : m.prot = ys ++ [y]) (hfull : m.prot.length = n + 1) :
    (c.access pc).2.Refines ⟨pc :: ys, y :: m.prob.erase pc⟩ := by
  have hy : y ∈ m.prot := by rw [hys]; simp
  have hyp : y ∉ m.prob := h.apart y hy
  have hyr : y ∉ m.prob.erase pc := fun hm => hyp (List.mem_of_mem_erase hm)
  have hyys : y ∉ ys := by
    have hn := h.prot.spells.nodup
    rw [hys, List.nodup_append] at hn
    exact fun hm => hn.2.2 y hm y (List.mem_singleton_self y) rfl
  have hev : (c.protectedSeg.add pc).1 = y := by
    rw [Segment.add_evicted h.prot, if_pos hfull, hys, List.getLast?_concat]
    rfl
  have hadd := Segment.add_inv h.prot hprot
  rw [touch_full hprot hfull, hys, List.dropLast_concat] at hadd
  have hlt : (m.prob.erase pc).length < n + 1 := by
    have := h.prob.spells.length_le
    have := List.length_pos_of_mem hpc
    rw [List.length_erase_of_mem hpc]
    omega
  have hback := Segment.add_inv (Segment.remove_inv h.prob hpc) hyr
  rw [touch_room hyr hlt] at hback
  rw [access_promotes h hprot hpc, hev]
  refine ⟨hadd, ?_, ?_, ?_⟩
  · rw [if_pos (h.nonzero y (Or.inl hy))]
    exact hback
  · intro x hx hm
    rcases List.mem_cons.mp hx with hx | hx <;> rcases List.mem_cons.mp hm with hm | hm
    · exact hyp (hm ▸ hx ▸ hpc)
    · exact h.prob.spells.nodup.not_mem_erase (hx ▸ hm)
    · exact hyys (hm ▸ hx)
    · exact h.apart x (by rw [hys]; simp [hx]) (List.mem_of_mem_erase hm)
  · intro x hx
    rcases hx with hx | hx <;> rcases List.mem_cons.mp hx with rfl | hx
    · exact h.nonzero x (Or.inr hpc)
    · exact h.nonzero x (Or.inl (by rw [hys]; simp [hx]))
    · exact h.nonzero x (Or.inl hy)
    · exact h.nonzero x (Or.inr (List.mem_of_mem_erase hx))

/-- Any other pc goes to the probationary front. -/
theorem access_miss (h : c.Refines m) (h0 : pc ≠ 0) (hprot : pc ∉ m.prot) (hprob : pc ∉ m.prob) :
    (c.access pc).2.Refines ⟨m.prot, touch (n + 1) m.prob pc⟩ := by
  have hc1 : c.protectedSeg.contains pc = false := by
    simpa using mt h.prot.spells.contains_iff.mp hprot
  have hc2 : c.probationarySeg.contains pc = false := by
    simpa using mt h.prob.spells.contains_iff.mp hprob
  have hacc : (c.access pc).2 = { c with probationarySeg := (c.probationarySeg.add pc).2 } := by
    simp [access, hc1, hc2]
  have hmem : ∀ x ∈ touch (n + 1) m.prob pc, x = pc ∨ x ∈ m.prob := by
    intro x hx
    rcases List.mem_cons.mp (List.mem_of_mem_take hx) with hx | hx
    · exact Or.inl hx
    · exact Or.inr (List.mem_of_mem_erase hx)
  rw [hacc]
  refine ⟨h.prot, Segment.add_inv h.prob hprob, ?_, ?_⟩
  · intro x hx hm
    rcases hmem x hm with rfl | hm
    · exact hprot hx
    · exact h.apart x hx hm
  · intro x hx
    rcases hx with hx | hx
    · exact h.nonzero x (Or.inl hx)
    · rcases hmem x hx with rfl | hx
      · exact h0
      · exact h.nonzero x (Or.inr hx)

/-- The step of the refinement. -/
theorem access_refines (h : c.Refines m) (h0 : pc ≠ 0) :
    (c.access pc).2.Refines (SegmentedLRU.access (n + 1) m pc) := by
  have hle := h.prot.spells.length_le
  have hle' := h.prob.spells.length_le
  unfold SegmentedLRU.access
  split
  · next hprot => exact access_protected h hprot
  · next hprot =>
    split
    · next hprob =>
      split
      · next hroom => exact access_promotes_room h hprot hprob hroom
      · next hfull =>
        obtain ⟨ys, y, hys⟩ : ∃ ys y, m.prot = ys ++ [y] := by
          rcases List.eq_nil_or_concat' m.prot with hnil | hys
          · rw [hnil] at hfull; simp at hfull
          · exact hys
        have hp := access_promotes_full h hprot hprob hys (by omega)
        rw [hys, List.dropLast_concat, List.getLast?_concat]
        exact hp
    · next hprob =>
      have hmiss := access_miss h h0 hprot hprob
      split
      · next hroom => rwa [touch_room hprob hroom] at hmiss
      · next hfull => rwa [touch_full hprob (by omega)] at hmiss

end

theorem after_refines (c : SLRUMCache (n + 1)) {pcs : List Word} (hpcs : ∀ pc ∈ pcs, pc ≠ 0) :
    (c.after pcs).Refines (SegmentedLRU.after (n + 1) pcs) := by
  refine Mealy.run_induction_along (C := fun _ pc => pc ≠ 0)
    (P := fun t (s : SLRUMCache (n + 1)) => s.Refines (SegmentedLRU.after (n + 1) t))
    c.reset_refines ?_ pcs (Mealy.along_of_forall hpcs)
  intro t s pc hs hpc
  rw [SegmentedLRU.after_snoc]
  exact access_refines hs hpc

/-! ## The slots of the protected segment -/

/-- The pc in each valid entry of the protected segment. -/
def slots (c : SLRUMCache (n + 1)) : Fin (n + 1) → Option Word := c.protectedSeg.slots

/-- An access writes its pc into the protected segment when it promotes it. -/
theorem access_slots (c : SLRUMCache (n + 1)) (pc : Word) :
    Slots.Put c.slots (c.access pc).2.slots pc := by
  simp only [access, slots]
  split
  · exact Or.inl (Segment.bump_slots c.protectedSeg pc)
  next hprot =>
    split
    · refine Or.inr ⟨c.protectedSeg.lru, Segment.add_slots c.protectedSeg pc, Or.inr ?_⟩
      apply Segment.slots_ne_of_find
      simpa [Segment.contains] using hprot
    · exact Or.inl rfl

/-- The cache acts on the two lists `m`: its segments hold them, at most
`numEntries` pcs each, no pc twice; the next access acts on them as the two-list
model does; and a resident pc is lost only by a miss on a full probationary
segment, as its least recently used pc. -/
structure ActsOn (s : SLRUMCache (n + 1)) (m : SegmentedLRU.Lists Word) : Prop where
  prot : s.protectedSeg.Spells m.prot
  prob : s.probationarySeg.Spells m.prob
  bounded : m.prot.length ≤ n + 1 ∧ m.prob.length ≤ n + 1
  once_prot : ∀ i j, (s.protectedSeg.entries i).valid = true →
    (s.protectedSeg.entries j).valid = true →
    (s.protectedSeg.entries i).pc = (s.protectedSeg.entries j).pc → i = j
  once_prob : ∀ i j, (s.probationarySeg.entries i).valid = true →
    (s.probationarySeg.entries j).valid = true →
    (s.probationarySeg.entries i).pc = (s.probationarySeg.entries j).pc → i = j
  apart : ∀ i j, (s.protectedSeg.entries i).valid = true →
    (s.probationarySeg.entries j).valid = true →
    (s.protectedSeg.entries i).pc ≠ (s.probationarySeg.entries j).pc
  access : ∀ pc, pc ≠ 0 →
    (s.access pc).2.protectedSeg.Spells (SegmentedLRU.access (n + 1) m pc).prot ∧
    (s.access pc).2.probationarySeg.Spells (SegmentedLRU.access (n + 1) m pc).prob
  loses : ∀ pc, pc ≠ 0 → ∀ q, s.Resident q → ¬ (s.access pc).2.Resident q →
    ¬ s.Resident pc ∧ m.prob.length = n + 1 ∧ m.prob.getLast? = some q

/-- **Segmented LRU.** After any trace of nonzero pcs the cache acts on the lists
that the two-list model reaches on the same trace. -/
theorem refines_segmented_lru (c : SLRUMCache (n + 1)) (pcs : List Word)
    (hpcs : ∀ pc ∈ pcs, pc ≠ 0) :
    (c.after pcs).ActsOn (SegmentedLRU.after (n + 1) pcs) := by
  have h := after_refines c hpcs
  refine ⟨h.prot.spells, h.prob.spells, ⟨h.prot.spells.length_le, h.prob.spells.length_le⟩,
    fun i j hi hj => h.prot.spells.key_inj hi hj, fun i j hi hj => h.prob.spells.key_inj hi hj,
    ?_, ?_, ?_⟩
  · intro i j hi hj he
    exact h.apart _ (h.prot.spells.key_mem hi) (he ▸ h.prob.spells.key_mem hj)
  · intro pc h0
    have h' := access_refines h h0
    exact ⟨h'.prot.spells, h'.prob.spells⟩
  · intro pc h0 q hq hlost
    rw [(access_refines h h0).resident_iff] at hlost
    rw [h.resident_iff] at hq ⊢
    exact (SegmentedLRU.access_keeps h.prob.spells.length_le hq).resolve_left hlost

/-- Two entries a segment. -/
def twoEntries : SLRUMCache 2 :=
  let empty : Segment 2 := ⟨fun _ => ⟨false, 0, 0⟩, ⟨0, Nat.zero_lt_two⟩⟩
  ⟨empty, empty, fun _ => 0⟩

/-- Pc 1 is promoted and demoted again by the promotions of pcs 2 and 3. -/
theorem refines_segmented_lru_two :
    (twoEntries.after [1, 1, 2, 2, 3, 3, 4]).ActsOn
      (SegmentedLRU.after 2 [1, 1, 2, 2, 3, 3, 4]) :=
  refines_segmented_lru twoEntries [1, 1, 2, 2, 3, 3, 4] (by simp)

end SLRUMCache

end SandboxPredictor
