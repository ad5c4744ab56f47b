import SandboxPredictor.MissCache.NRU

/- What an access of `NRUMCache` evicts, over all runs and all results of `rand()`.

   The three loops that choose the entry override each other, so a pc that is not
   resident goes to an entry that is not valid if there is one, else to an unused
   one if there is one. `used` says that the pc in the entry has been hit since it
   was inserted there (`Tracks`), so no pc that has been is evicted before one that
   has not. -/
namespace SandboxPredictor

namespace NRUMCache

variable {n : Nat}

/-- The last access of `q` hit it. An access that misses inserts its pc, so this says of a
resident pc that it has been hit since its insertion. -/
def hitSince (c : NRUMCache (n + 1)) (tr : List (Word × Nat)) (q : Word) : Bool :=
  Mealy.lastSeen step (fun s x => if x.1 = q then some (decide (s.Resident q)) else none) false
    c.reset tr

theorem hitSince_snoc (c : NRUMCache (n + 1)) (tr : List (Word × Nat)) (x : Word × Nat)
    (q : Word) : c.hitSince (tr ++ [x]) q =
      if x.1 = q then decide ((c.after tr).Resident q) else c.hitSince tr q := by
  rw [hitSince, Mealy.lastSeen_snoc]
  split <;> rfl

/-- No pc is in two entries, and `used` is whether the pc has been hit since its insertion,
for the accesses `tr` so far. -/
structure Tracks (c s : NRUMCache (n + 1)) (tr : List (Word × Nat)) : Prop where
  distinct : ∀ i j, (s.entries i).valid = true → (s.entries j).valid = true →
    (s.entries i).pc = (s.entries j).pc → i = j
  used : ∀ i, (s.entries i).valid = true → (s.entries i).used = c.hitSince tr (s.entries i).pc

section
variable {c s : NRUMCache (n + 1)} {tr : List (Word × Nat)} {pc q : Word} {randBase : Nat}
  {i : Fin (n + 1)} {age : Nat} {hit : Bool}

/-- The entry chosen is the one that holds the pc, if one does. -/
theorem Tracks.target_spec (h : Tracks c s tr) (ht : s.target pc randBase = ⟨i, age, hit⟩) :
    hit = decide (s.Resident pc) ∧
      ∀ j, (s.entries j).valid = true → (s.entries j).pc = pc → j = i := by
  obtain ⟨k, hv, hpc, hk⟩ | ⟨hmiss, hcase⟩ := s.target_cases pc randBase
  · obtain ⟨rfl, -, rfl⟩ := Target.mk.inj (ht.symm.trans hk)
    refine ⟨(decide_eq_true ⟨i, hv, hpc⟩).symm, ?_⟩
    intro j hj hjpc
    exact h.distinct j i hj hv (hjpc.trans hpc.symm)
  · have hfalse : hit = false := by
      obtain ⟨k, _, hk⟩ | ⟨_, ⟨k, _, hk⟩ | ⟨_, hk⟩⟩ := hcase
      all_goals
        exact (Target.mk.inj (ht.symm.trans hk)).2.2
    refine ⟨hfalse.trans (decide_eq_false hmiss).symm, ?_⟩
    intro j hj hjpc
    exact absurd ⟨j, hj, hjpc⟩ hmiss

/-- **Step.** -/
theorem Tracks.access (h : Tracks c (c.after tr) tr) (x : Word × Nat) :
    Tracks c ((c.after tr).access x.1 x.2).2 (tr ++ [x]) := by
  obtain ⟨⟨i, age, hit⟩, ht⟩ : ∃ t, (c.after tr).target x.1 x.2 = t := ⟨_, rfl⟩
  obtain ⟨hhit, hat⟩ := h.target_spec ht
  have hold : ∀ j, j ≠ i → (((c.after tr).access x.1 x.2).2.entries j).valid = true →
      ((c.after tr).entries j).valid = true := by
    intro j hj hv
    exact ((access_valid ht j).1 hv).resolve_left hj
  refine ⟨?_, ?_⟩
  · intro j k hj hk hpc
    by_cases hji : j = i <;> by_cases hki : k = i
    · rw [hji, hki]
    · subst hji
      rw [access_self ht, access_ne ht hki] at hpc
      exact (hat k (hold k hki hk) hpc.symm).symm
    · subst hki
      rw [access_self ht, access_ne ht hji] at hpc
      exact hat j (hold j hji hj) hpc
    · rw [access_ne ht hji, access_ne ht hki] at hpc
      exact h.distinct j k (hold j hji hj) (hold k hki hk) hpc
  · intro j hj
    rw [hitSince_snoc]
    by_cases hji : j = i
    · subst hji
      rw [access_self ht, if_pos rfl]
      exact hhit
    · have hv := hold j hji hj
      have hne : x.1 ≠ ((c.after tr).entries j).pc := fun he => hji (hat j hv he.symm)
      rw [access_ne ht hji, if_neg hne]
      exact h.used j hv

theorem tracks_after (c : NRUMCache (n + 1)) (tr : List (Word × Nat)) :
    Tracks c (c.after tr) tr := by
  induction tr using List.reverseRecOn with
  | nil => exact ⟨fun i _ hi => absurd hi (by simp [reset]), fun i hi => absurd hi (by simp [reset])⟩
  | append_singleton tr x ih =>
    rw [after, Mealy.run_snoc]
    exact ih.access x

/-! ## What an access evicts -/

theorem access_resident_iff (ht : s.target pc randBase = ⟨i, age, hit⟩) :
    (s.access pc randBase).2.Resident q ↔
      q = pc ∨ ∃ j, j ≠ i ∧ (s.entries j).valid = true ∧ (s.entries j).pc = q := by
  refine ⟨?_, ?_⟩
  · intro ⟨j, hv, hq⟩
    by_cases hj : j = i
    · subst hj
      rw [access_self ht] at hq
      exact Or.inl hq.symm
    · rw [access_ne ht hj] at hv hq
      exact Or.inr ⟨j, hj, hv, hq⟩
  · rintro (rfl | ⟨j, hj, hv, hq⟩)
    · exact ⟨i, by rw [access_self ht], by rw [access_self ht]⟩
    · exact ⟨j, by rw [access_ne ht hj]; exact hv, by rw [access_ne ht hj]; exact hq⟩

/-- Only the pc of the entry that is written can be evicted. -/
theorem eq_of_evicted (ht : s.target pc randBase = ⟨i, age, hit⟩) (hq : s.Resident q)
    (hgone : ¬ (s.access pc randBase).2.Resident q) :
    (s.entries i).valid = true ∧ (s.entries i).pc = q := by
  obtain ⟨j, hv, hj⟩ := hq
  by_cases hji : j = i
  · subst hji
    exact ⟨hv, hj⟩
  · exact absurd ((access_resident_iff ht).2 (Or.inr ⟨j, hji, hv, hj⟩)) hgone

/-- A hit evicts nothing, nor does a miss while an entry is not valid. -/
theorem access_evicts_none (s : NRUMCache (n + 1)) (pc : Word) (randBase : Nat)
    (h : s.Resident pc ∨ ∃ i, (s.entries i).valid = false) (hq : s.Resident q) :
    (s.access pc randBase).2.Resident q := by
  by_contra hgone
  obtain ⟨k, hv, hpc, hk⟩ | ⟨hmiss, ⟨k, hv, hk⟩ | ⟨hall, _⟩⟩ := s.target_cases pc randBase
  · have hwritten := (eq_of_evicted hk hq hgone).2
    exact hgone ((access_resident_iff hk).2 (Or.inl (hwritten.symm.trans hpc)))
  · have hwritten := (eq_of_evicted hk hq hgone).1
    rw [hv] at hwritten
    cases hwritten
  · obtain hres | ⟨i, hi⟩ := h
    · exact hmiss hres
    · rw [hall i] at hi
      cases hi

/-- The pc of the entry a miss writes in a full cache is evicted. -/
theorem evicted_of_miss (h : Tracks c s tr) (hmiss : ¬ s.Resident pc)
    (ht : s.target pc randBase = ⟨i, age, hit⟩) (hv : (s.entries i).valid = true) :
    ¬ (s.access pc randBase).2.Resident (s.entries i).pc := by
  rw [access_resident_iff ht]
  rintro (hpc | ⟨j, hj, hvj, hpc⟩)
  · exact hmiss ⟨i, hv, hpc⟩
  · exact hj (h.distinct j i hvj hv hpc)

/-- As long as an entry is unused, a miss in a full cache writes an unused one. -/
theorem target_unused (hall : ∀ j, (s.entries j).valid = true) (hmiss : ¬ s.Resident pc)
    (hunused : ∃ j, (s.entries j).used = false)
    (ht : s.target pc randBase = ⟨i, age, hit⟩) : (s.entries i).used = false := by
  obtain ⟨k, hv, hpc, hk⟩ | ⟨_, ⟨k, hv, hk⟩ | ⟨_, ⟨k, hun, hk⟩ | ⟨hused, hk⟩⟩⟩ :=
    s.target_cases pc randBase
  · exact absurd ⟨k, hv, hpc⟩ hmiss
  · rw [hall k] at hv
    cases hv
  · obtain ⟨rfl, -, -⟩ := Target.mk.inj (ht.symm.trans hk)
    obtain ⟨_, _, hu, _⟩ := firstUnused_some hun
    exact hu
  · obtain ⟨j, hj⟩ := hunused
    rw [hused j] at hj
    cases hj

end

/-- **NRU replaces one entry and spares the ones used again.** After any accesses from reset,
whatever `rand()` has returned: the valid entries hold different pcs; an access makes its pc
resident; a hit evicts nothing, nor does a miss while an entry is not valid; any other miss
evicts exactly one pc, and this pc has not been hit since its insertion unless every
resident one has. -/
theorem evicts_one_unused (c : NRUMCache (n + 1)) (tr : List (Word × Nat)) (pc : Word)
    (randBase : Nat) :
    let s := c.after tr
    let s' := (s.access pc randBase).2
    (∀ i j, (s.entries i).valid = true → (s.entries j).valid = true →
      (s.entries i).pc = (s.entries j).pc → i = j) ∧
    s'.Resident pc ∧
    ((s.Resident pc ∨ ∃ i, (s.entries i).valid = false) → ∀ q, s.Resident q → s'.Resident q) ∧
    (¬ s.Resident pc → (∀ i, (s.entries i).valid = true) →
      (∃! q, s.Resident q ∧ ¬ s'.Resident q) ∧
      ((∃ r, s.Resident r ∧ c.hitSince tr r = false) →
        ∀ q, s.Resident q → ¬ s'.Resident q → c.hitSince tr q = false)) := by
  intro s s'
  have h : Tracks c s tr := tracks_after c tr
  obtain ⟨⟨i, age, hit⟩, ht⟩ : ∃ t, s.target pc randBase = t := ⟨_, rfl⟩
  refine ⟨h.distinct, (access_resident_iff ht).2 (Or.inl rfl), ?_, ?_⟩
  · intro hkeeps q hq
    exact access_evicts_none s pc randBase hkeeps hq
  · intro hmiss hall
    refine ⟨⟨(s.entries i).pc, ⟨⟨i, hall i, rfl⟩, evicted_of_miss h hmiss ht (hall i)⟩, ?_⟩, ?_⟩
    · intro q ⟨hq, hgone⟩
      exact (eq_of_evicted ht hq hgone).2.symm
    · intro ⟨r, ⟨j, hv, hr⟩, hunhit⟩ q hq hgone
      have hunused : (s.entries j).used = false := by rw [h.used j hv, hr, hunhit]
      have hi := target_unused hall hmiss ⟨j, hunused⟩ ht
      rw [← (eq_of_evicted ht hq hgone).2, ← h.used i (hall i)]
      exact hi

end NRUMCache

end SandboxPredictor
