import SandboxPredictor.Lib.Mealy
import SandboxPredictor.MissCache.Segment

/- A segment under any sequence of calls.

   `order` reads the recency list off the entries, by their ages. After every
   sequence of calls that a caller may make (`Allowed`) the segment is in order
   (`InOrder`), and the next call does to the list what the three operations are
   for (`recency_list`). -/
namespace SandboxPredictor

namespace Segment

variable {n : Nat}

/-- The calls that change a segment. -/
inductive Call where
  | bump (pc : Word)
  | remove (pc : Word)
  | add (pc : Word)
  deriving DecidableEq, Repr

/-- A call, and what `add` returns. -/
def execute (s : Segment (n + 1)) : Call → Option Word × Segment (n + 1)
  | .bump pc => (none, s.bump pc)
  | .remove pc => (none, s.remove pc)
  | .add pc => (some (s.add pc).1, (s.add pc).2)

/-- No call is made for pc 0, and `add` only for a pc that `contains` does not find. -/
def Allowed (s : Segment (n + 1)) : Call → Prop
  | .bump pc => pc ≠ 0
  | .remove pc => pc ≠ 0
  | .add pc => pc ≠ 0 ∧ s.contains pc = false

instance (s : Segment (n + 1)) : DecidablePred s.Allowed
  | .bump pc => inferInstanceAs (Decidable (pc ≠ 0))
  | .remove pc => inferInstanceAs (Decidable (pc ≠ 0))
  | .add pc => inferInstanceAs (Decidable (pc ≠ 0 ∧ s.contains pc = false))

abbrev afterCalls (s : Segment (n + 1)) (calls : List Call) : Segment (n + 1) :=
  Mealy.run execute s.reset calls

/-- The pcs of the valid entries, the youngest first. -/
def order (s : Segment (n + 1)) : List Word :=
  (List.range (n + 1)).filterMap fun a =>
    (Fin.find? (fun i => (s.entries i).valid && (s.entries i).age == a)).map
      (fun i => (s.entries i).pc)

/-- The number of valid entries. -/
def numValid (s : Segment (n + 1)) : Nat :=
  (Finset.univ.filter (fun i => (s.entries i).valid = true)).card

/-- The ages are a permutation of `0 … numEntries - 1`, the valid entries are the youngest
ones and hold distinct pcs, and `lru` is the oldest entry. -/
structure InOrder (s : Segment (n + 1)) : Prop where
  ages : ((List.finRange (n + 1)).map (fun i => (s.entries i).age)).Perm (List.range (n + 1))
  valid : (Finset.univ.filter (fun i => (s.entries i).valid = true)).image
    (fun i => (s.entries i).age) = Finset.range s.numValid
  oldest : ∀ i, (s.entries i).age = n ↔ i = s.lru
  distinct : ∀ i j, (s.entries i).valid = true → (s.entries j).valid = true →
    (s.entries i).pc = (s.entries j).pc → i = j

section
variable {s : Segment (n + 1)} {L : List Word} {pc : Word}

theorem Spells.order_eq (h : s.Spells L) : s.order = L := by
  apply h.filterMap_range h.length_le
  intro a pc
  rw [Option.map_eq_some_iff]
  refine ⟨?_, ?_⟩
  · rintro ⟨i, hi, rfl⟩
    have hfound := (Fin.find?_eq_some_iff.mp hi).1
    simp only [Bool.and_eq_true, beq_iff_eq] at hfound
    exact ⟨i, hfound.1, hfound.2, rfl⟩
  · rintro ⟨i, hv, rfl, rfl⟩
    refine ⟨i, ?_, rfl⟩
    rw [Fin.find?_eq_some_iff]
    refine ⟨by simp only [hv, beq_self_eq_true, Bool.and_self], ?_⟩
    -- an earlier entry of the same age would be the same entry
    intro j hj
    by_contra hfound
    simp only [Bool.and_eq_true, beq_iff_eq, Bool.not_eq_false] at hfound
    exact absurd (h.inj j i hfound.1 hv hfound.2) (Fin.ne_of_lt hj)

theorem Inv.order_inv (h : s.Inv L) : s.Inv s.order := by
  rw [h.spells.order_eq]
  exact h

theorem Inv.in_order (h : s.Inv L) : s.InOrder := by
  have hs := h.spells
  refine ⟨?_, ?_, ?_, ?_⟩
  · have hsub : (List.finRange (n + 1)).map (fun i => (s.entries i).age) ⊆
        List.range (n + 1) := by
      intro a ha
      obtain ⟨i, _, rfl⟩ := List.mem_map.1 ha
      exact List.mem_range.2 (Nat.lt_succ_of_le (h.le i))
    have hnodup := (List.nodup_finRange (n + 1)).map h.inj
    apply (hnodup.subperm hsub).perm_of_length_le
    simp
  · have hcard : s.numValid = L.length := hs.card_valid
    ext a
    simp only [Finset.mem_image, Finset.mem_filter, Finset.mem_univ, true_and, Finset.mem_range,
      hcard]
    refine ⟨?_, hs.slot a⟩
    rintro ⟨i, hv, rfl⟩
    exact hs.age_lt hv
  · intro i
    refine ⟨?_, ?_⟩
    · intro hi
      exact h.inj (hi.trans h.oldest.symm)
    · rintro rfl
      exact h.oldest
  · intro i j
    exact hs.key_inj

/-- One call. -/
theorem execute_inv (h : s.Inv L) {call : Call} (hcall : s.Allowed call) :
    ∃ L', (s.execute call).2.Inv L' := by
  cases call with
  | bump pc =>
    by_cases hpc : pc ∈ L
    · exact ⟨_, bump_inv h hpc⟩
    · refine ⟨L, ?_⟩
      show (s.bump pc).Inv L
      rw [bump_absent h.spells hpc]
      exact h
  | remove pc =>
    by_cases hpc : pc ∈ L
    · exact ⟨_, remove_inv h hpc⟩
    · refine ⟨L, ?_⟩
      show (s.remove pc).Inv L
      rw [remove_absent h hcall hpc]
      exact h
  | add pc =>
    have hpc : pc ∉ L := by
      rw [← h.spells.contains_iff, hcall.2]
      exact Bool.false_ne_true
    exact ⟨_, add_inv h hpc⟩

end

/-- Every sequence of calls. -/
theorem afterCalls_inv (s : Segment (n + 1)) {calls : List Call}
    (hcalls : Mealy.Along execute Allowed s.reset calls) :
    (s.afterCalls calls).Inv (s.afterCalls calls).order := by
  have hrun : ∃ L, (s.afterCalls calls).Inv L := by
    apply Mealy.run_induction_along (P := fun _ t => ∃ L, t.Inv L) ⟨[], reset_inv s⟩ _ calls hcalls
    intro _ t call ⟨L, hL⟩ hcall
    exact execute_inv hL hcall
  obtain ⟨L, hL⟩ := hrun
  exact hL.order_inv

/-- **A bounded recency list.** After any calls from reset the segment is in order, `contains`
finds the pcs of the list, and the next call of `bump`, `remove` or `add` moves a pc to the
front of the list, deletes it, or puts it at the front and returns what falls off the back. -/
theorem recency_list (s : Segment (n + 1)) (calls : List Call)
    (hcalls : Mealy.Along execute Allowed s.reset calls) :
    let t := s.afterCalls calls
    t.InOrder ∧ t.order.length = t.numValid ∧ (∀ pc, t.contains pc = true ↔ pc ∈ t.order) ∧
    ∀ pc, pc ≠ 0 →
      (t.contains pc = true →
        (t.bump pc).order = pc :: t.order.erase pc ∧
        (t.remove pc).order = t.order.erase pc) ∧
      (t.contains pc = false →
        t.bump pc = t ∧ t.remove pc = t ∧
        (t.add pc).2.order = pc :: t.order.take n ∧
        (t.numValid = n + 1 → t.order.getLast? = some (t.add pc).1) ∧
        (t.numValid < n + 1 → (t.add pc).1 = 0)) := by
  intro t
  have h : t.Inv t.order := afterCalls_inv s hcalls
  have hlen : t.numValid = t.order.length := h.spells.card_valid
  refine ⟨h.in_order, hlen.symm, fun _ => h.spells.contains_iff, ?_⟩
  intro pc h0
  refine ⟨?_, ?_⟩
  · intro hc
    have hpc := h.spells.contains_iff.1 hc
    exact ⟨(bump_inv h hpc).spells.order_eq, (remove_inv h hpc).spells.order_eq⟩
  · intro hc
    have hpc : pc ∉ t.order := by
      rw [← h.spells.contains_iff, hc]
      exact Bool.false_ne_true
    refine ⟨bump_absent h.spells hpc, remove_absent h h0 hpc, ?_, ?_, ?_⟩
    · rw [(add_inv h hpc).spells.order_eq, Recency.touch, List.erase_of_not_mem hpc,
        List.take_succ_cons]
    · intro hfull
      rw [add_evicted h, if_pos (hlen ▸ hfull)]
      have hne : t.order ≠ [] := by
        intro hnil
        rw [hlen, hnil] at hfull
        exact absurd hfull (Nat.succ_ne_zero n).symm
      rw [List.getLast?_eq_some_getLast hne, Option.getD_some]
    · intro hroom
      rw [add_evicted h, if_neg (by omega)]

/-- Two entries that start out empty. -/
def twoEntries : Segment 2 := ⟨fun _ => ⟨false, 0, 0⟩, ⟨0, Nat.zero_lt_two⟩⟩

/-- A full segment: 0x400a20 was bumped behind the later 0x400a30. -/
theorem recency_list_two :
    let calls : List Call := [.add 0x400a10, .add 0x400a20, .remove 0x400a10, .add 0x400a30,
      .bump 0x400a20]
    let t := twoEntries.afterCalls calls
    Mealy.Along execute Allowed twoEntries.reset calls ∧ t.order = [0x400a20, 0x400a30] ∧
    t.InOrder := by
  refine ⟨by decide, by decide, ?_⟩
  exact (recency_list twoEntries _ (by decide)).1

end Segment

end SandboxPredictor
