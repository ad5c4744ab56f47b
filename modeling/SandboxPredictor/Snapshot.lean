import SandboxPredictor.MissCache

/- What the indices of a miss cache mean, for the three replacement policies.

   An access writes its pc into one slot at most, and only into its own or, when it
   is not resident, into some slot (`access_put`). So no pc is resident twice and
   none moves, and a snapshot, which saves 0 for an empty slot, gives every nonzero
   pc the slot it is resident in as its index (`Tracks.getIdx_iff`). -/
namespace SandboxPredictor
namespace MissCache

variable {n : Nat}

/-- The pc resident in each slot: of the protected segment for an SLRU cache. -/
def slots : MissCache (n + 1) → Fin (n + 1) → Option Word
  | base, _ => none
  | lru c, i => c.slots i
  | nru c, i => c.slots i
  | slru c, i => c.slots i
  | fixed _, _ => none

/-- The cache is one of the three with a replacement policy. -/
def Replaces : MissCache (n + 1) → Prop
  | lru _ | nru _ | slru _ => True
  | base | fixed _ => False

/-- The index is found by a search of the saved pcs. -/
theorem getIdx_eq {c : MissCache (n + 1)} (h : c.Replaces) (pc : Word) :
    c.getIdx pc = savedIdx c.savedState pc := by
  cases c with
  | base => cases h
  | lru c => rfl
  | nru c => rfl
  | slru c => rfl
  | fixed c => cases h

/-- A call leaves the replacement policy. -/
theorem access_replaces {c : MissCache (n + 1)} (pc : Word) (randBase : Nat) :
    (c.access pc randBase).2.Replaces ↔ c.Replaces := by
  cases c <;> exact Iff.rfl

theorem snapshot_replaces {c : MissCache (n + 1)} : c.snapshot.Replaces ↔ c.Replaces := by
  cases c <;> exact Iff.rfl

theorem reset_replaces {c : MissCache (n + 1)} : c.reset.Replaces ↔ c.Replaces := by
  cases c <;> exact Iff.rfl

/-! ## One call -/

/-- No pc is resident twice, pc 0 is not resident, and a snapshot saves the residents, and
0 for the slots without one. -/
structure Sound (c : MissCache (n + 1)) : Prop where
  replaces : c.Replaces
  once : Slots.Once c.slots
  nonzero : ∀ i, c.slots i ≠ some 0
  saves : ∀ i, c.snapshot.savedState i = (c.slots i).getD 0

theorem reset_sound {c : MissCache (n + 1)} (h : c.Replaces) : c.reset.Sound := by
  have hslots : c.reset.slots = fun _ => none := by
    funext i
    cases c with
    | base => rfl
    | lru c => rfl
    | nru c => rfl
    | slru c => rfl
    | fixed c => rfl
  refine ⟨reset_replaces.2 h, ?_, ?_, ?_⟩
  · rw [hslots]
    exact Slots.Once.empty
  · intro i hi
    rw [hslots] at hi
    cases hi
  · intro i
    cases c with
    | base => cases h
    | lru c => rfl
    | nru c => rfl
    | slru c => rfl
    | fixed c => cases h

/-- An access writes its pc into its own slot, or into any when it is not resident. -/
theorem access_put (c : MissCache (n + 1)) (pc : Word) (randBase : Nat) :
    Slots.Put c.slots (c.access pc randBase).2.slots pc := by
  cases c with
  | base => exact Or.inl rfl
  | lru c =>
    obtain ⟨i, hslots, _, hi⟩ := c.access_slots pc
    exact Or.inr ⟨i, hslots, hi⟩
  | nru c =>
    obtain ⟨i, hslots, _, hi⟩ := c.access_slots pc randBase
    exact Or.inr ⟨i, hslots, hi⟩
  | slru c => exact c.access_slots pc
  | fixed c => exact Or.inl rfl

/-- An array that keeps 0 in its empty slots keeps doing so when a pc is written. -/
theorem write_getD {s : Fin (n + 1) → Option Word} {pcs pcs' : Fin (n + 1) → Word}
    (h : ∀ i, pcs i = (s i).getD 0) {i : Fin (n + 1)} {pc : Word}
    (hpcs : ∀ j, pcs' j = if j = i then pc else pcs j) (j : Fin (n + 1)) :
    pcs' j = (Function.update s i (some pc) j).getD 0 := by
  rw [hpcs]
  by_cases hj : j = i
  · subst hj
    simp
  · simp [hj, h j]

theorem access_sound {c : MissCache (n + 1)} (h : c.Sound) {pc : Word} (hpc : pc ≠ 0)
    (randBase : Nat) : (c.access pc randBase).2.Sound := by
  have hput := access_put c pc randBase
  refine ⟨(access_replaces pc randBase).2 h.replaces, hput.once h.once, ?_, ?_⟩
  · intro i hi
    obtain h0 | hi := hput.mem hi
    · exact hpc h0.symm
    · exact h.nonzero i hi
  · have hsaves := h.saves
    cases c with
    | base => cases h.replaces
    | lru c =>
      obtain ⟨i, hslots, hpcs, _⟩ := c.access_slots pc
      intro j
      show ((c.access pc).2.entries j).pc = ((c.access pc).2.slots j).getD 0
      rw [hslots]
      exact write_getD hsaves hpcs j
    | nru c =>
      obtain ⟨i, hslots, hpcs, _⟩ := c.access_slots pc randBase
      intro j
      show ((c.access pc randBase).2.entries j).pc = ((c.access pc randBase).2.slots j).getD 0
      rw [hslots]
      exact write_getD hsaves hpcs j
    | slru c => exact Segment.getAll_eq _
    | fixed c => cases h.replaces

/-- A snapshot moves nothing. -/
theorem snapshot_slots (c : MissCache (n + 1)) : c.snapshot.slots = c.slots := by
  cases c <;> rfl

theorem snapshot_sound {c : MissCache (n + 1)} (h : c.Sound) : c.snapshot.Sound where
  replaces := snapshot_replaces.2 h.replaces
  once := by
    rw [snapshot_slots]
    exact h.once
  nonzero := by
    rw [snapshot_slots]
    exact h.nonzero
  saves := by
    have hsaves := h.saves
    cases c <;> exact hsaves

/-! ## The last snapshot -/

/-- The saved state of `c` is a snapshot of the cache `last`. -/
structure Tracks (c last : MissCache (n + 1)) : Prop where
  sound : c.Sound
  lastSound : last.Sound
  saved : ∀ i, c.savedState i = (last.slots i).getD 0

section
variable {c last : MissCache (n + 1)}

/-- After a reset nothing is saved: the reset cache is as good as a last snapshot. -/
theorem Tracks.reset (h : c.Replaces) : Tracks c.reset c.reset where
  sound := reset_sound h
  lastSound := reset_sound h
  saved := by
    intro i
    cases c with
    | base => cases h
    | lru c => rfl
    | nru c => rfl
    | slru c => rfl
    | fixed c => cases h

theorem Tracks.access (h : Tracks c last) {pc : Word} (hpc : pc ≠ 0) (randBase : Nat) :
    Tracks (c.access pc randBase).2 last where
  sound := access_sound h.sound hpc randBase
  lastSound := h.lastSound
  saved := by
    rw [access_savedState]
    exact h.saved

theorem Tracks.snapshot (h : Tracks c last) : Tracks c.snapshot c :=
  ⟨snapshot_sound h.sound, h.sound, h.sound.saves⟩

/-- A nonzero pc is saved for the slot it was resident in at the last snapshot. -/
theorem Tracks.savedState_iff (h : Tracks c last) {pc : Word} (hpc : pc ≠ 0) (i : Fin (n + 1)) :
    c.savedState i = pc ↔ last.slots i = some pc := by
  rw [h.saved]
  cases last.slots i with
  | none => exact iff_of_false (fun h0 => hpc h0.symm) (fun hnone => by cases hnone)
  | some q => simp

/-- The index of a nonzero pc is the slot it was resident in at the last snapshot. -/
theorem Tracks.getIdx_iff (h : Tracks c last) {pc : Word} (hpc : pc ≠ 0) (i : Fin (n + 1)) :
    c.getIdx pc = some i ↔ last.slots i = some pc := by
  have hslot := fun j => h.savedState_iff hpc j
  rw [getIdx_eq h.sound.replaces]
  simp only [savedIdx]
  rw [Fin.find?_eq_some_iff]
  simp only [beq_iff_eq, beq_eq_false_iff_ne, ne_eq]
  refine ⟨fun hi => (hslot i).1 hi.1, ?_⟩
  intro hi
  refine ⟨(hslot i).2 hi, ?_⟩
  intro j hj hsaved
  -- the pc is in one slot only
  have hji := h.lastSound.once j i pc ((hslot j).1 hsaved) hi
  rw [hji] at hj
  exact absurd hj (lt_irrefl i)

end

/-! ## Runs of accesses and snapshots -/

/-- A call of a run: an access, with the `rand()` result it draws, or a snapshot. -/
inductive Op where
  | access (pc : Word) (randBase : Nat)
  | snapshot
  deriving DecidableEq, Repr

/-- One call, with the index it returns. -/
def op (c : MissCache (n + 1)) : Op → Option (Fin (n + 1)) × MissCache (n + 1)
  | .access pc randBase => c.access pc randBase
  | .snapshot => (none, c.snapshot)

/-- The accesses of a run are of nonzero pcs. -/
def Op.Nonzero : Op → Prop
  | .access pc _ => pc ≠ 0
  | .snapshot => True

/-- The cache at a snapshot, for the calls that take one. -/
def atSnapshot (c : MissCache (n + 1)) : Op → Option (MissCache (n + 1))
  | .access _ _ => none
  | .snapshot => some c

/-- The cache at the last snapshot of a run, at its start when it has taken none. -/
def lastSnapshot (c : MissCache (n + 1)) (ops : List Op) : MissCache (n + 1) :=
  Mealy.lastSeen op atSnapshot c c ops

section
variable {c last : MissCache (n + 1)}

/-- In every run from reset the saved state is that of the last snapshot. -/
theorem tracks_run (h : c.Replaces) {ops : List Op} (hops : ∀ o ∈ ops, o.Nonzero) :
    Tracks (Mealy.run op c.reset ops) (lastSnapshot c.reset ops) := by
  induction ops using List.reverseRecOn with
  | nil => exact Tracks.reset h
  | append_singleton ops o ih =>
    have ht := ih (fun o ho => hops o (List.mem_append_left _ ho))
    simp only [lastSnapshot] at ht ⊢
    have ho := hops o (List.mem_append_right _ (List.mem_singleton_self o))
    rw [Mealy.run_snoc, Mealy.lastSeen_snoc]
    cases o with
    | access pc randBase => exact ht.access ho randBase
    | snapshot => exact ht.snapshot

theorem op_sound (h : c.Sound) {o : Op} (ho : o.Nonzero) : (c.op o).2.Sound := by
  cases o with
  | access pc randBase => exact access_sound h ho randBase
  | snapshot => exact snapshot_sound h

/-- A pc that is resident before and after a call is in the same slot. -/
theorem op_stays (h : c.Sound) (o : Op) {q : Word} {i j : Fin (n + 1)} (hi : c.slots i = some q)
    (hj : (c.op o).2.slots j = some q) : i = j := by
  cases o with
  | access pc randBase => exact (access_put c pc randBase).stays h.once hi hj
  | snapshot =>
    have hsnap := snapshot_slots c
    exact h.once i j q hi (hsnap ▸ hj)

theorem run_sound (h : c.Sound) {ops : List Op} (hops : ∀ o ∈ ops, o.Nonzero) :
    (Mealy.run op c ops).Sound :=
  Mealy.run_induction_along (C := fun _ (o : Op) => o.Nonzero) (P := fun _ t => Sound t) h
    (fun _ _ _ ht ho => op_sound ht ho) ops (Mealy.along_of_forall hops)

/-- A pc that stays resident stays in its slot. -/
theorem run_stays (h : c.Sound) {ops : List Op} (hops : ∀ o ∈ ops, o.Nonzero) {q : Word}
    (hq : ∀ ops', ops' <+: ops → ∃ j, (Mealy.run op c ops').slots j = some q) {i : Fin (n + 1)}
    (hi : c.slots i = some q) : (Mealy.run op c ops).slots i = some q := by
  induction ops using List.reverseRecOn with
  | nil => exact hi
  | append_singleton ops o ih =>
    have hops' : ∀ o ∈ ops, o.Nonzero := fun o ho => hops o (List.mem_append_left _ ho)
    have hbefore := ih hops'
      (fun ops' hpre => hq ops' (hpre.trans (List.prefix_append ops [o])))
    obtain ⟨j, hj⟩ := hq (ops ++ [o]) List.prefix_rfl
    rw [Mealy.run_snoc] at hj ⊢
    rw [op_stays (run_sound h hops') o hbefore hj]
    exact hj

/-- A pc that stays resident from one snapshot to another keeps its index. -/
theorem getIdx_kept (h : c.Sound) {ops : List Op} (hops : ∀ o ∈ ops, o.Nonzero) {q : Word}
    (hq0 : q ≠ 0)
    (hq : ∀ ops', ops' <+: ops → ∃ j, (Mealy.run op c.snapshot ops').slots j = some q) :
    (Mealy.run op c.snapshot ops).snapshot.getIdx q = c.snapshot.getIdx q := by
  obtain ⟨i, hi⟩ := hq [] List.nil_prefix
  have hsound := run_sound (snapshot_sound h) hops
  have hafter := run_stays (snapshot_sound h) hops hq hi
  have hfirst : Tracks c.snapshot c := ⟨snapshot_sound h, h, h.saves⟩
  have hsecond : Tracks (Mealy.run op c.snapshot ops).snapshot (Mealy.run op c.snapshot ops) :=
    ⟨snapshot_sound hsound, hsound, hsound.saves⟩
  have hbefore : c.snapshot.getIdx q = some i := by
    apply (hfirst.getIdx_iff hq0 i).2
    rw [← snapshot_slots]
    exact hi
  calc (Mealy.run op c.snapshot ops).snapshot.getIdx q
      = some i := (hsecond.getIdx_iff hq0 i).2 hafter
    _ = c.snapshot.getIdx q := hbefore.symm

end

/-- **Unique and stable indices**, for LRU, NRU and SLRU caches. After any run from reset:
the index of a nonzero pc is the slot it was resident in at the last snapshot, and there is
one such slot at most; no access moves a resident pc to another slot; a pc that stays
resident between two snapshots has the same index after both; and no access changes an
index. -/
theorem indices_unique_stable {c : MissCache (n + 1)} (h : c.Replaces) {ops : List Op}
    (hops : ∀ o ∈ ops, o.Nonzero) :
    let t := Mealy.run op c.reset ops
    let last := lastSnapshot c.reset ops
    (∀ pc, pc ≠ 0 → ∀ i, t.getIdx pc = some i ↔ last.slots i = some pc) ∧
    (∀ i j pc, last.slots i = some pc → last.slots j = some pc → i = j) ∧
    (∀ pc randBase q i j, t.slots i = some q → (t.access pc randBase).2.slots j = some q →
      i = j) ∧
    (∀ ops' q, (∀ o ∈ ops', o.Nonzero) → q ≠ 0 →
      (∀ ops'', ops'' <+: ops' → ∃ j, (Mealy.run op t.snapshot ops'').slots j = some q) →
      (Mealy.run op t.snapshot ops').snapshot.getIdx q = t.snapshot.getIdx q) ∧
    ∀ pc randBase q, (t.access pc randBase).2.getIdx q = t.getIdx q := by
  intro t last
  have ht : Tracks t last := tracks_run h hops
  refine ⟨fun pc hpc i => ht.getIdx_iff hpc i, ht.lastSound.once, ?_, ?_, ?_⟩
  · intro pc randBase q i j hi hj
    exact (access_put t pc randBase).stays ht.sound.once hi hj
  · intro ops' q hops' hq0 hq
    exact getIdx_kept ht.sound hops' hq0 hq
  · exact fun pc randBase q => getIdx_access t pc randBase q

/-- Pc 1 is promoted, saved in slot 1, and keeps the index when pc 2 is promoted too. -/
theorem indices_unique_stable_slru :
    let t := Mealy.run op (slru SLRUMCache.twoEntries.reset)
      [.access 1 0, .access 1 0, .snapshot, .access 2 0, .access 2 0]
    t.getIdx 1 = some 1 ∧ t.getIdx 2 = none := by
  intro t
  have hops : ∀ o ∈ [Op.access 1 0, .access 1 0, .snapshot, .access 2 0, .access 2 0],
      o.Nonzero := by simp [Op.Nonzero]
  have h := indices_unique_stable (c := slru SLRUMCache.twoEntries) trivial hops
  refine ⟨(h.1 1 (by decide) 1).2 (by decide), ?_⟩
  rw [Option.eq_none_iff_forall_ne_some]
  intro i hi
  have hslot := (h.1 2 (by decide) i).1 hi
  revert hslot i
  decide

end MissCache
end SandboxPredictor
