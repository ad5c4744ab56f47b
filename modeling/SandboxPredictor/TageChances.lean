import SandboxPredictor.Lib.FirstBit
import SandboxPredictor.TageFrame
import SandboxPredictor.TageProvenance

/- The chances of the tables above the main provider to get a new entry.

   The first loop gives each of them the next bit of the random number, whether it
   has a free slot or not, and the second one ignores the bits. So the entry goes
   to the first free slot whose bit is 1, or to the first free one if there is none
   (`allocates_iff`). With `k` free slots the first is taken by half of the `2^k`
   patterns and by the one without a bit set, and each further one by half as many
   as the one before it. -/
namespace SandboxPredictor
namespace TAGE
open FirstBit

variable {β ρ : Type} [Predictor β ρ] {nTables idxLen : Nat}

/-- How many tables there are above the main provider. -/
def room (t : TAGE β nTables idxLen) : Nat := nTables - t.firstAbove

/-- The slot of the branch in the `i`-th table above the main provider, counted from 0, is
free. -/
def Free (t : TAGE β nTables idxLen) (pc : Word) (i : Nat) : Prop :=
  (t.entryAt pc (t.firstAbove + i)).useful = 0

/-- The `j`-th slot is the first free one whose bit of the random number is 1, or the first
free one when all such bits are 0. -/
def Chosen (t : TAGE β nTables idxLen) (pc : Word) (randNum j : Nat) : Prop :=
  j < t.room ∧ t.Free pc j ∧
    (randNum.testBit j = true ∧ (∀ i < j, t.Free pc i → randNum.testBit i = false) ∨
      (∀ i < t.room, t.Free pc i → randNum.testBit i = false) ∧ ∀ i < j, ¬ t.Free pc i)

section
variable {s t : TAGE β nTables idxLen} {pc : Word} {a k r j : Nat} {taken : Bool}

/-! ## The loops -/

theorem chosenRandomly_mem {is : List Nat} {i : Nat}
    (h : s.chosenRandomly pc is r = some i) : i ∈ is := by
  induction is generalizing r with
  | nil => cases h
  | cons j is ih =>
    simp only [chosenRandomly] at h
    split at h
    · rw [Option.some.inj h]
      exact List.mem_cons_self
    · exact List.mem_cons_of_mem j (ih h)

/-- The first loop, over `k` tables from `a` on. -/
theorem chosenRandomly_eq_some :
    s.chosenRandomly pc (List.range' a k) r = some (a + j) ↔
      j < k ∧ ((s.tables (a + j)).add pc s.history).isSome ∧ r.testBit j = true ∧
        ∀ i < j, ((s.tables (a + i)).add pc s.history).isSome → r.testBit i = false := by
  induction k generalizing a r j with
  | zero => simp [chosenRandomly]
  | succ k ih =>
    rw [List.range'_succ]
    simp only [chosenRandomly]
    by_cases htaken : r % 2 = 1 ∧ ((s.tables a).add pc s.history).isSome = true
    · rw [if_pos htaken]
      cases j with
      | zero => simpa [Nat.testBit_zero] using ⟨htaken.2, htaken.1⟩
      | succ j =>
        refine ⟨fun h => absurd (Option.some.inj h) (by omega), ?_⟩
        rintro ⟨_, _, _, hbefore⟩
        have hbit := hbefore 0 (Nat.succ_pos j) htaken.2
        rw [Nat.testBit_zero, decide_eq_false_iff_not] at hbit
        exact absurd htaken.1 hbit
    · rw [if_neg htaken]
      cases j with
      | zero =>
        refine ⟨?_, ?_⟩
        · intro h
          have hmem := (List.mem_range'_1.1 (chosenRandomly_mem h)).1
          omega
        · rintro ⟨_, hadd, hbit, _⟩
          rw [Nat.testBit_zero, decide_eq_true_eq] at hbit
          exact absurd ⟨hbit, hadd⟩ htaken
      | succ j =>
        -- the rest of the loop sees the bits shifted by one
        rw [show a + (j + 1) = a + 1 + j by omega, ih, Nat.testBit_succ, Nat.succ_lt_succ_iff]
        refine and_congr_right fun _ => and_congr_right fun _ => and_congr_right fun _ => ?_
        refine ⟨?_, ?_⟩
        · intro hbefore i hi hadd
          cases i with
          | zero =>
            rw [Nat.testBit_zero, decide_eq_false_iff_not]
            exact fun hbit => htaken ⟨hbit, hadd⟩
          | succ i =>
            rw [Nat.testBit_succ]
            rw [show a + (i + 1) = a + 1 + i by omega] at hadd
            exact hbefore i (Nat.lt_of_succ_lt_succ hi) hadd
        · intro hbefore i hi hadd
          rw [← Nat.testBit_succ]
          rw [show a + 1 + i = a + (i + 1) by omega] at hadd
          exact hbefore (i + 1) (Nat.succ_lt_succ hi) hadd

/-- It leaves the choice to the second loop when no free slot has its bit set. -/
theorem chosenRandomly_eq_none :
    s.chosenRandomly pc (List.range' a k) r = none ↔
      ∀ i < k, ((s.tables (a + i)).add pc s.history).isSome → r.testBit i = false := by
  refine ⟨?_, ?_⟩
  · intro hnone i
    induction i using Nat.strong_induction_on with
    | _ i ih =>
      -- the least slot with its bit set would have been taken
      intro hi hadd
      by_contra hbit
      have hsome := chosenRandomly_eq_some.2 ⟨hi, hadd, by simpa using hbit,
        fun j hj => ih j hj (hj.trans hi)⟩
      rw [hnone] at hsome
      cases hsome
  · intro hbits
    cases hchosen : s.chosenRandomly pc (List.range' a k) r with
    | none => rfl
    | some i =>
      have hmem := List.mem_range'_1.1 (chosenRandomly_mem hchosen)
      obtain ⟨j, rfl⟩ := Nat.exists_eq_add_of_le hmem.1
      obtain ⟨hj, hadd, hbit, _⟩ := chosenRandomly_eq_some.1 hchosen
      rw [hbits j hj hadd] at hbit
      cases hbit

/-! ## The choice -/

/-- The training leaves the slots above the main provider: `add` takes the free ones. -/
theorem add_isSome_iff (h : Predicted t pc) (draw : ρ) (taken : Bool) (i : Nat) :
    ((((t.train draw pc taken).tables (t.firstAbove + i)).add pc
      (t.train draw pc taken).history).isSome = true) ↔ t.Free pc i := by
  rw [train_above h draw taken (Nat.le_add_right _ _), train_history, Option.isSome_iff_ne_none,
    ne_eq, TagTable.add_eq_none_iff, not_not]
  rfl

/-- The table an allocation that is requested adds to. -/
theorem chosen_iff (h : Predicted t pc) (hreq : t.requestNewEntry taken = true)
    (draw : ρ × Nat) :
    (t.train draw.1 pc taken).chosen draw.2 pc taken = some (t.firstAbove + j) ↔
      t.Chosen pc draw.2 j := by
  have habove : (t.train draw.1 pc taken).above = List.range' t.firstAbove t.room := by
    simp only [above, train_firstAbove, room]
  rw [chosen, train_requestNewEntry, train_firstAbove, hreq, habove]
  by_cases hroom : t.firstAbove < nTables
  · rw [if_pos (by simpa using hroom), Option.or_eq_some_iff, chosenRandomly_eq_some,
      chosenRandomly_eq_none, List.find?_range'_eq_some]
    simp only [add_isSome_iff h]
    have hnext : (∀ m, t.firstAbove ≤ m → m < t.firstAbove + j →
        (!((((t.train draw.1 pc taken).tables m).add pc
          (t.train draw.1 pc taken).history).isSome)) = true) ↔ ∀ i < j, ¬ t.Free pc i := by
      simp only [Bool.not_eq_true', ← Bool.not_eq_true]
      refine ⟨?_, ?_⟩
      · intro hfull i hi
        rw [← add_isSome_iff h draw.1 taken]
        exact hfull _ (Nat.le_add_right _ _) (Nat.add_lt_add_left hi _)
      · intro hfull m hle hlt
        obtain ⟨i, rfl⟩ := Nat.exists_eq_add_of_le hle
        rw [add_isSome_iff h]
        exact hfull i (Nat.lt_of_add_lt_add_left hlt)
    rw [hnext, List.mem_range'_1]
    simp only [Chosen, Nat.le_add_right, Nat.add_lt_add_iff_left, true_and]
    refine ⟨?_, ?_⟩
    · rintro (⟨hj, hfree, hbit, hbefore⟩ | ⟨hbits, hfree, hj, hfull⟩)
      · exact ⟨hj, hfree, Or.inl ⟨hbit, hbefore⟩⟩
      · exact ⟨hj, hfree, Or.inr ⟨hbits, hfull⟩⟩
    · rintro ⟨hj, hfree, ⟨hbit, hbefore⟩ | ⟨hbits, hfull⟩⟩
      · exact Or.inl ⟨hj, hfree, hbit, hbefore⟩
      · exact Or.inr ⟨hbits, hfree, hj, hfull⟩
  · rw [if_neg (by simpa using hroom)]
    have hnone : t.room = 0 := Nat.sub_eq_zero_of_le (Nat.le_of_not_lt hroom)
    simp [Chosen, hnone]

theorem mem_above_of_chosen {i : Nat} (h : s.chosen r pc taken = some i) : i ∈ s.above := by
  simp only [chosen] at h
  split at h
  · obtain hrandom | ⟨_, hnext⟩ := Option.or_eq_some_iff.1 h
    · exact chosenRandomly_mem hrandom
    · exact List.mem_of_find?_eq_some hnext
  · cases h

/-- The update allocates in the table chosen. -/
theorem allocatedIn_of_chosen (h : Predicted t pc) {draw : ρ × Nat} {i : Nat}
    (hchosen : (t.train draw.1 pc taken).chosen draw.2 pc taken = some i) :
    AllocatedIn t (t.beforeSoftReset draw pc taken) pc i := by
  have hi : i ∈ t.above := by
    rw [← train_above_eq t draw.1 pc taken]
    exact mem_above_of_chosen hchosen
  have hsame : ∀ m ∈ t.above, (t.train draw.1 pc taken).tables m = t.tables m :=
    fun m hm => train_above h draw.1 taken (mem_above.1 hm).1
  obtain ⟨m, t', hm, hadd, heq⟩ | ⟨hnone, _⟩ :=
    allocate_chosen (t.train draw.1 pc taken) draw.2 pc taken
  · obtain rfl := Option.some.inj (hchosen.symm.trans hm)
    rw [hsame i hi, train_history] at hadd
    obtain ⟨hfree, hentry⟩ := TagTable.add_eq_some hadd
    refine ⟨hi, hfree, ?_, ?_⟩
    · rw [beforeSoftReset_tables, heq, setTable_self]
      exact hentry
    · intro m hm hne
      rw [beforeSoftReset_tables, heq, setTable_of_ne _ hne]
      exact hsame m hm
  · rw [hnone] at hchosen
    cases hchosen

theorem allocatedIn_iff (hrange : InRange t) (h : Predicted t pc)
    (hreq : t.requestNewEntry taken = true) (draw : ρ × Nat) :
    AllocatedIn t (t.beforeSoftReset draw pc taken) pc (t.firstAbove + j) ↔
      t.Chosen pc draw.2 j := by
  rw [← chosen_iff h hreq]
  refine ⟨?_, allocatedIn_of_chosen h⟩
  intro halloc
  cases hchosen : (t.train draw.1 pc taken).chosen draw.2 pc taken with
  | some i => rw [(allocatedIn_of_chosen h hchosen).unique hrange h halloc]
  | none =>
    -- the second loop would have added to the free slot
    have hlt := (mem_above.1 halloc.above).2
    have hadd := (add_isSome_iff h draw.1 taken j).2 halloc.free
    have hmem : t.firstAbove + j ∈ (t.train draw.1 pc taken).above := by
      rw [train_above_eq]
      exact halloc.above
    rw [chosen, train_requestNewEntry, train_firstAbove, hreq,
      if_pos (by simp; omega), Option.or_eq_none_iff] at hchosen
    exact absurd hadd (List.find?_eq_none.1 hchosen.2 _ hmem)

/-! ## The counts -/

/-- With all slots free the choice is that of the first bit. -/
theorem chosen_of_free (hfree : ∀ i < t.room, t.Free pc i) :
    t.Chosen pc r j ↔ j < t.room ∧ (IsFirst r j ∨ NoneOf r t.room ∧ j = 0) := by
  refine and_congr_right fun hj => ?_
  have hbelow : (∀ i < j, t.Free pc i → r.testBit i = false) ↔ ∀ i < j, r.testBit i = false :=
    forall₂_congr fun i hi => ⟨fun h => h (hfree i (hi.trans hj)), fun h _ => h⟩
  have hall : (∀ i < t.room, t.Free pc i → r.testBit i = false) ↔ NoneOf r t.room :=
    forall₂_congr fun i hi => ⟨fun h => h (hfree i hi), fun h _ => h⟩
  have hzero : (∀ i < j, ¬ t.Free pc i) ↔ j = 0 := by
    refine ⟨?_, ?_⟩
    · intro hfull
      by_contra h0
      exact hfull 0 (Nat.pos_of_ne_zero h0) (hfree 0 (by omega))
    · rintro rfl i hi
      exact absurd hi (Nat.not_lt_zero i)
  rw [hbelow, hall, hzero]
  simp only [hfree j hj, true_and]
  rfl

theorem ncard_chosen (hfree : ∀ i < t.room, t.Free pc i) (hj : 0 < j) (hlt : j < t.room) :
    {r | r < 2 ^ t.room ∧ t.Chosen pc r j}.ncard = 2 ^ (t.room - 1 - j) := by
  rw [← ncard_isFirst hlt]
  congr 1
  ext r
  simp only [Set.mem_ofPred_eq, chosen_of_free hfree]
  refine and_congr_right fun _ => ⟨?_, fun h => ⟨hlt, Or.inl h⟩⟩
  rintro ⟨_, hfirst | ⟨_, rfl⟩⟩
  · exact hfirst
  · exact absurd hj (Nat.lt_irrefl 0)

/-- The first slot also takes the pattern without a bit set. -/
theorem ncard_chosen_zero (hfree : ∀ i < t.room, t.Free pc i) (hpos : 0 < t.room) :
    {r | r < 2 ^ t.room ∧ t.Chosen pc r 0}.ncard = 2 ^ (t.room - 1) + 1 := by
  have hset : {r | r < 2 ^ t.room ∧ t.Chosen pc r 0} =
      insert 0 {r | r < 2 ^ t.room ∧ IsFirst r 0} := by
    ext r
    simp only [Set.mem_ofPred_eq, Set.mem_insert_iff, chosen_of_free hfree]
    refine ⟨?_, ?_⟩
    · rintro ⟨hr, _, hfirst | ⟨hnone, _⟩⟩
      · exact Or.inr ⟨hr, hfirst⟩
      · exact Or.inl ((noneOf_iff hr).1 hnone)
    · rintro (rfl | ⟨hr, hfirst⟩)
      · have hzero : (0 : Nat) < 2 ^ t.room := Nat.two_pow_pos _
        exact ⟨hzero, hpos, Or.inr ⟨(noneOf_iff hzero).2 rfl, trivial⟩⟩
      · exact ⟨hr, hpos, Or.inl hfirst⟩
  have hnot : (0 : Nat) ∉ {r | r < 2 ^ t.room ∧ IsFirst r 0} := by
    simp [isFirst_zero]
  have hfinite : {r | r < 2 ^ t.room ∧ IsFirst r 0}.Finite :=
    (Set.finite_Iio (2 ^ t.room)).subset fun _ hr => hr.1
  rw [hset, Set.ncard_insert_of_notMem hnot hfinite, ncard_isFirst hpos, Nat.sub_zero]

end

/-- **The chances of an allocation.** For the update of the branch just predicted, in every
state that any calls lead to, when an allocation is requested: whatever the random number,
the new entry goes to the first free slot whose bit is 1, or to the first free one when
there is none; and when the slots of all `k` tables above the main provider are free, the
first of them is taken by `2^(k - 1) + 1` of the `2^k` patterns of `k` bits, and the `i`-th
after it by `2^(k - 1 - i)`. -/
theorem allocates_by_bits (s : TAGE β nTables idxLen) (calls : List (Call (ρ × Nat)))
    (pc : Word) (taken : Bool) (d : ρ) :
    let t := (predict (afterCalls s.reset calls) pc).2
    let allocates := fun r j => AllocatedIn t (t.beforeSoftReset (d, r) pc taken) pc
      (t.firstAbove + j)
    (t.requestNewEntry taken = true → ∀ r j, allocates r j ↔ t.Chosen pc r j) ∧
    (t.requestNewEntry taken = true → 1 ≤ t.room → (∀ i < t.room, t.Free pc i) →
      {r | r < 2 ^ t.room ∧ allocates r 0}.ncard = 2 ^ (t.room - 1) + 1 ∧
      ∀ i, 1 ≤ i → i < t.room →
        {r | r < 2 ^ t.room ∧ allocates r i}.ncard = 2 ^ (t.room - 1 - i)) := by
  intro t allocates
  have hrange : InRange t := predict_inRange (afterCalls_inRange s calls) pc
  have hpred : Predicted t pc := predict_predicted _ pc
  have hiff : t.requestNewEntry taken = true → ∀ r j, allocates r j ↔ t.Chosen pc r j :=
    fun hreq r j => allocatedIn_iff hrange hpred hreq (d, r)
  refine ⟨hiff, ?_⟩
  intro hreq hroom hfree
  simp only [hiff hreq]
  exact ⟨ncard_chosen_zero hfree hroom, fun i hi hlt => ncard_chosen hfree hi hlt⟩

end TAGE
end SandboxPredictor
