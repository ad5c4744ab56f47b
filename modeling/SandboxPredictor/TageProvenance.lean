import SandboxPredictor.TageProviders

/- Where the entries that provide predictions of TAGE come from.

   `allocation` is the entry the update of a pair adds, if it adds one, and
   `lastAllocated` the tag last added at an index of a table in a run. After
   `hardReset` every entry has the tag 0 and, with a useful counter of 0, counts as
   valid: until something is allocated at its index it is found by every branch that
   hashes to the tag 0. These are the only hits that no allocation is behind
   (`providers_allocated_iff`). -/
namespace SandboxPredictor
namespace TAGE

variable {β ρ : Type} [Predictor β ρ] {nTables idxLen : Nat}

/-! ## What is allocated -/

/-- The table the first loop adds to. -/
def chosenRandomly (s : TAGE β nTables idxLen) (pc : Word) : List Nat → Nat → Option Nat
  | [], _ => none
  | i :: is, randNum =>
    if randNum % 2 = 1 ∧ ((s.tables i).add pc s.history).isSome then some i
    else chosenRandomly s pc is (randNum / 2)

/-- The table an allocation adds to. -/
def chosen (s : TAGE β nTables idxLen) (randNum : Nat) (pc : Word) (taken : Bool) : Option Nat :=
  if s.requestNewEntry taken && decide (s.firstAbove < nTables) then
    (s.chosenRandomly pc s.above randNum).or
      (s.above.find? (fun i => ((s.tables i).add pc s.history).isSome))
  else none

/-- An entry added: in which table, at which index, with which tag. -/
structure Allocation where
  table : Nat
  idx : Word
  tag : Word
  deriving DecidableEq, Repr

/-- The entry the update of a pair adds. -/
def allocation (s : TAGE β nTables idxLen) (b : Branch (ρ × Nat)) : Option Allocation :=
  let u := (s.predict b.pc).2.train b.draw.1 b.pc b.taken
  (u.chosen b.draw.2 b.pc b.taken).map
    (fun i => ⟨i, (u.tables i).getIdx b.pc u.history, (u.tables i).getTag b.pc u.history⟩)

/-- The tag at index `idx` of table `i` after an allocation, if it was added there. -/
def allocatedAt (i : Nat) (idx : Word) (tag : Option Word) : Option Allocation → Option Word
  | some a => if a.table = i ∧ a.idx = idx then some a.tag else tag
  | none => tag

/-- The tag last added at index `idx` of table `i` in a run. -/
def lastAllocated (s : TAGE β nTables idxLen) (tr : List (Branch (ρ × Nat))) (i : Nat)
    (idx : Word) : Option Word :=
  (Mealy.observe execute allocation s tr).foldl (allocatedAt i idx) none

section
variable {s : TAGE β nTables idxLen} {pc : Word}

theorem addRandomly_eq (is : List Nat) (randNum : Nat) :
    s.addRandomly pc is randNum = (s.chosenRandomly pc is randNum).bind
      (fun i => ((s.tables i).add pc s.history).map (s.setTable i)) := by
  induction is generalizing randNum with
  | nil => rfl
  | cons i is ih =>
    simp only [addRandomly, chosenRandomly]
    by_cases hbit : randNum % 2 = 1
    · cases hadd : (s.tables i).add pc s.history with
      | some t => simp [hbit, hadd]
      | none => simp [hbit, ih]
    · simp [hbit, ih]

theorem addNext_eq (is : List Nat) :
    s.addNext pc is = (is.find? (fun i => ((s.tables i).add pc s.history).isSome)).bind
      (fun i => ((s.tables i).add pc s.history).map (s.setTable i)) := by
  induction is with
  | nil => rfl
  | cons i is ih =>
    simp only [addNext]
    cases hadd : (s.tables i).add pc s.history with
    | some t => simp [hadd]
    | none => simp [hadd, ih]

theorem chosenRandomly_add {is : List Nat} {randNum i : Nat}
    (h : s.chosenRandomly pc is randNum = some i) : ((s.tables i).add pc s.history).isSome := by
  induction is generalizing randNum with
  | nil => cases h
  | cons j is ih =>
    simp only [chosenRandomly] at h
    split at h
    next hj =>
      obtain rfl := Option.some.inj h
      exact hj.2
    next => exact ih h

/-- An allocation adds to the table chosen, or leaves every tag. -/
theorem allocate_chosen (s : TAGE β nTables idxLen) (randNum : Nat) (pc : Word) (taken : Bool) :
    (∃ i t, s.chosen randNum pc taken = some i ∧ t ∈ (s.tables i).add pc s.history ∧
      s.allocate randNum pc taken = s.setTable i t) ∨
    s.chosen randNum pc taken = none ∧
      (s.allocate randNum pc taken = s ∨
        s.allocate randNum pc taken = s.decayAll pc s.above) := by
  simp only [allocate, chosen]
  split
  · rw [addRandomly_eq, addNext_eq]
    cases hrandom : s.chosenRandomly pc s.above randNum with
    | some i =>
      obtain ⟨t, ht⟩ := Option.isSome_iff_exists.1 (chosenRandomly_add hrandom)
      exact Or.inl ⟨i, t, rfl, ht, by simp [ht]⟩
    | none =>
      cases hnext : s.above.find? (fun i => ((s.tables i).add pc s.history).isSome) with
      | some i =>
        have hadd := List.find?_some (p := fun i => ((s.tables i).add pc s.history).isSome) hnext
        obtain ⟨t, ht⟩ := Option.isSome_iff_exists.1 hadd
        exact Or.inl ⟨i, t, rfl, ht, by simp [ht]⟩
      | none => exact Or.inr ⟨rfl, Or.inr rfl⟩
  · exact Or.inr ⟨rfl, Or.inl rfl⟩

/-- The tags after an allocation. -/
theorem allocate_tag (s : TAGE β nTables idxLen) (randNum : Nat) (pc : Word) (taken : Bool)
    (i : Nat) (idx : Word) :
    some (((s.allocate randNum pc taken).tables i).content idx).tag =
      allocatedAt i idx (some ((s.tables i).content idx).tag)
        ((s.chosen randNum pc taken).map
          (fun i => ⟨i, (s.tables i).getIdx pc s.history, (s.tables i).getTag pc s.history⟩)) := by
  obtain ⟨j, t, hchosen, ht, heq⟩ | ⟨hchosen, heq | heq⟩ := allocate_chosen s randNum pc taken
  · rw [heq, hchosen]
    by_cases hij : j = i
    · subst hij
      rw [setTable_self, TagTable.add_tag ht]
      simp only [allocatedAt, Option.map_some, true_and]
      split <;> rfl
    · rw [setTable_of_ne s (Ne.symm hij)]
      simp [allocatedAt, hij]
  · rw [heq, hchosen]
    rfl
  · rw [heq, hchosen, decayAll_tables s.above_nodup]
    split
    · rw [TagTable.decay_tag]
      rfl
    · rfl

end

/-! ## The tags of a run -/

section
variable {s : TAGE β nTables idxLen}

/-- Training leaves the tags. -/
theorem train_tag (t : TAGE β nTables idxLen) (draw : ρ) (pc : Word) (taken : Bool) (i : Nat)
    (idx : Word) :
    (((t.train draw pc taken).tables i).content idx).tag = ((t.tables i).content idx).tag := by
  apply trainProviders_induction
    (P := fun u => ((u.tables i).content idx).tag = ((t.tables i).content idx).tag) rfl
  intro u provider useful _ hu
  by_cases hi : provider = some i
  · rw [hi, trainTable_self, TagTable.update_tag]
    exact hu
  · rw [trainTable_of_ne hi]
    exact hu

/-- What a pair does to the tags is its allocation. -/
theorem execute_tag (s : TAGE β nTables idxLen) (b : Branch (ρ × Nat)) (i : Nat) (idx : Word) :
    some (((execute s b).2.tables i).content idx).tag =
      allocatedAt i idx (some ((s.tables i).content idx).tag) (s.allocation b) := by
  have hsoft := (softReset_entry ((s.predict b.pc).2.beforeSoftReset b.draw b.pc b.taken) i idx).1
  have hexec : (((execute s b).2.tables i).content idx).tag =
      (((((s.predict b.pc).2.train b.draw.1 b.pc b.taken).allocate b.draw.2 b.pc b.taken).tables
        i).content idx).tag := hsoft
  rw [hexec, allocate_tag, train_tag]
  rfl

theorem lastAllocated_snoc (s : TAGE β nTables idxLen) (tr : List (Branch (ρ × Nat)))
    (b : Branch (ρ × Nat)) (i : Nat) (idx : Word) :
    lastAllocated s (tr ++ [b]) i idx =
      allocatedAt i idx (lastAllocated s tr i idx) ((afterTrace s tr).allocation b) := by
  simp only [lastAllocated]
  rw [Mealy.observe_snoc, List.foldl_append]
  rfl

theorem allocatedAt_getD {i : Nat} {idx tag : Word} {last : Option Word} (a : Option Allocation)
    (h : some tag = allocatedAt i idx (some (last.getD 0)) a) :
    tag = (allocatedAt i idx last a).getD 0 := by
  cases a with
  | none => exact Option.some.inj h
  | some a =>
    simp only [allocatedAt] at h ⊢
    split at h
    next ha =>
      rw [if_pos ha]
      exact Option.some.inj h
    next ha =>
      rw [if_neg ha]
      exact Option.some.inj h

/-- Every tag is the one last allocated, or the 0 of the reset. -/
theorem tag_eq_lastAllocated (s : TAGE β nTables idxLen) (tr : List (Branch (ρ × Nat))) (i : Nat)
    (idx : Word) :
    (((afterTrace s.reset tr).tables i).content idx).tag =
      (lastAllocated s.reset tr i idx).getD 0 := by
  induction tr using List.reverseRecOn with
  | nil => rfl
  | append_singleton tr b ih =>
    rw [lastAllocated_snoc, afterTrace, Mealy.run_snoc]
    apply allocatedAt_getD
    rw [execute_tag, ← ih]

/-! ## The providers of a run -/

/-- In the state after the run `tr`, every provider found for `pc` is an entry that was
allocated at its index with its tag, and not replaced since. -/
def ProvidersAllocated (s : TAGE β nTables idxLen) (tr : List (Branch (ρ × Nat))) (pc : Word) :
    Prop :=
  let t := afterTrace s tr
  ∀ i, (t.predict pc).2.mainProvider = some i ∨ (t.predict pc).2.altProvider = some i →
    lastAllocated s tr i ((t.tables i).getIdx pc t.history) =
      some ((t.tables i).getTag pc t.history)

/-- The branch hashes to the tag 0 in a table it is looked up in, and nothing has been
allocated at the index it hashes to. -/
def HashesToCleared (s : TAGE β nTables idxLen) (tr : List (Branch (ρ × Nat))) (pc : Word) :
    Prop :=
  let t := afterTrace s tr
  ∃ i, t.LookedUp pc i ∧ (t.tables i).getTag pc t.history = 0 ∧
    lastAllocated s tr i ((t.tables i).getIdx pc t.history) = none

theorem providersAllocated_iff (s : TAGE β nTables idxLen) (tr : List (Branch (ρ × Nat)))
    (pc : Word) :
    ProvidersAllocated s.reset tr pc ↔ ¬ HashesToCleared s.reset tr pc := by
  have hhit := fun i => hit_iff (afterTrace_inRange s tr) pc i
  simp only [tag_eq_lastAllocated] at hhit
  unfold ProvidersAllocated HashesToCleared
  dsimp only
  refine ⟨?_, ?_⟩
  · intro hall ⟨i, hlooked, hzero, hnone⟩
    have hi : (afterTrace s.reset tr).hit pc i = true := by
      rw [hhit, hzero, hnone]
      rfl
    rw [hall i (provider_iff.2 ⟨hlooked, hi⟩)] at hnone
    cases hnone
  · intro hno i hprov
    obtain ⟨hlooked, hi⟩ := provider_iff.1 hprov
    rw [hhit] at hi
    cases hlast : lastAllocated s.reset tr i
        (((afterTrace s.reset tr).tables i).getIdx pc (afterTrace s.reset tr).history) with
    | some tag =>
      rw [hlast] at hi
      rw [hi]
      rfl
    | none =>
      -- the hit is one of the cleared entry
      rw [hlast] at hi
      exact absurd ⟨i, hlooked, hi, hlast⟩ hno

/-- **Only allocated entries provide predictions** at every point of a run from reset, if
and only if at no point of it the branch hashes to the tag 0 where nothing was allocated. -/
theorem providers_allocated_iff (s : TAGE β nTables idxLen) (tr : List (Branch (ρ × Nat))) :
    (∀ tr' b, tr' ++ [b] <+: tr → ProvidersAllocated s.reset tr' b.pc) ↔
      ∀ tr' b, tr' ++ [b] <+: tr → ¬ HashesToCleared s.reset tr' b.pc := by
  simp only [providersAllocated_iff]

/-- The first prediction after reset, of an address whose low two bits are 0, is provided by
table 0. -/
theorem cleared_entry_provides :
    ¬ ProvidersAllocated (new StaticTaken.mk 1 4) [] 0x400a10 := by
  intro h
  have hmain : ((new StaticTaken.mk 1 4).predict 0x400a10).2.mainProvider = some 0 := by decide
  have hlast := h 0 (Or.inl hmain)
  cases hlast

end

end TAGE
end SandboxPredictor
