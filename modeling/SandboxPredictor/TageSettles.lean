import SandboxPredictor.TageGshare

/- `TAGE` over a `Gshare` base settles on a constant branch.

   Once the outcomes of the branch fill both history registers every lookup is made
   at the same index with the same tag, and a pair moves a counter towards the
   outcome: the main provider's, or the base's when no table hits. The main
   provider can change to a higher table only. A main provider whose counter is at
   the end of its range predicts the outcome, weak or not as its useful counter may
   be, so what is left of its way, and of the tables above it, is a potential
   (`potential`) that wrong predictions use up. -/
namespace SandboxPredictor
open ShiftRegister
namespace TAGE

variable {nTables idxLen len counterLen : Nat}

/-! ## The registers fill up -/

/-- The last `n` outcomes were all `d`. -/
structure Shifted (d : Bool) (n : Nat) (s : TAGE (Gshare len counterLen) nTables idxLen) :
    Prop where
  base : ∀ i < n, i < 64 → s.baseBP.history.getLsbD i = d
  history : ∀ i < n, i < ghrLen nTables → i < 64 → s.history.getLsbD i = d
  masked : 0 < n → s.history &&& lowMask (ghrLen nTables) = s.history

section
variable {s s' : TAGE (Gshare len counterLen) nTables idxLen} {d : Bool} {n : Nat}

theorem Shifted.zero (d : Bool) (s : TAGE (Gshare len counterLen) nTables idxLen) :
    Shifted d 0 s :=
  ⟨fun i hi => absurd hi (Nat.not_lt_zero i), fun i hi => absurd hi (Nat.not_lt_zero i),
    fun h => absurd h (Nat.lt_irrefl 0)⟩

theorem Shifted.mono (h : Shifted d n s) {m : Nat} (hm : m ≤ n) : Shifted d m s :=
  ⟨fun i hi => h.base i (by omega), fun i hi => h.history i (by omega),
    fun h0 => h.masked (by omega)⟩

theorem Shifted.step (h : Shifted d n s) {b : Branch (Unit × Nat)} (hb : b.taken = d) :
    Shifted d (n + 1) (execute s b).2 := by
  have hbit : ∀ {r : Word}, (∀ i < n, i < 64 → r.getLsbD i = d) →
      ∀ i < n + 1, i < 64 → (shiftIn r b.taken).getLsbD i = d := by
    intro r hr i hi hi64
    rw [shiftIn_getLsbD _ _ hi64, hb]
    by_cases h0 : i = 0
    · rw [if_pos h0]
    · rw [if_neg h0]
      exact hr (i - 1) (by omega) (by omega)
  refine ⟨?_, ?_, ?_⟩
  · rw [execute_baseHistory]
    exact hbit h.base
  · intro i hi hlen hi64
    rw [execute_history, BitVec.getLsbD_and, lowMask_getLsbD _ hi64, shiftIn_getLsbD _ _ hi64, hb]
    by_cases h0 : i = 0
    · simp [h0, ghrLen]
    · rw [if_neg h0, h.history (i - 1) (by omega) (by omega) (by omega)]
      simp [hlen]
  · intro _
    rw [execute_history, BitVec.and_assoc, BitVec.and_self]

/-- The number of outcomes that fill both registers. -/
def warmup (nTables len : Nat) : Nat := max (ghrLen nTables) len

/-- Filled registers read the same. -/
theorem Shifted.history_eq (h : Shifted d (warmup nTables len) s)
    (h' : Shifted d (warmup nTables len) s') : s'.history = s.history := by
  have hlen : 0 < ghrLen nTables := by
    simp only [ghrLen]
    rw [Nat.one_shiftLeft]
    exact Nat.two_pow_pos nTables
  have hpos : 0 < warmup nTables len := Nat.lt_of_lt_of_le hlen (Nat.le_max_left _ _)
  apply BitVec.eq_of_getLsbD_eq
  intro i hi
  by_cases hi' : i < ghrLen nTables
  · have hw : i < warmup nTables len := Nat.lt_of_lt_of_le hi' (Nat.le_max_left _ _)
    rw [h.history i hw hi' hi, h'.history i hw hi' hi]
  · rw [← h.masked hpos, ← h'.masked hpos, BitVec.getLsbD_and, BitVec.getLsbD_and,
      lowMask_getLsbD _ hi]
    simp [hi']

theorem Shifted.baseIdx_eq (h : Shifted d (warmup nTables len) s)
    (h' : Shifted d (warmup nTables len) s') (pc : Word) :
    s'.baseBP.getIdx pc = s.baseBP.getIdx pc := by
  apply BitVec.eq_of_getLsbD_eq
  intro i hi
  simp only [Gshare.getIdx]
  rw [BitVec.getLsbD_and, BitVec.getLsbD_and, BitVec.getLsbD_xor, BitVec.getLsbD_xor,
    lowMask_getLsbD _ hi]
  by_cases hi' : i < len
  · have hw : i < warmup nTables len := Nat.lt_of_lt_of_le hi' (Nat.le_max_right _ _)
    rw [h.base i hw hi, h'.base i hw hi]
  · simp [hi']

end

/-! ## How far the counters have to go -/

/-- The moves until a counter of the base predicts `d`. -/
def baseDistance (d : Bool) (counter : Int) : Nat := (if d then -counter else counter + 1).toNat

/-- The moves until the counter of an entry is at its end for `d`. -/
def entryDistance (d : Bool) (counter : Int) : Nat :=
  (if d then TagTable.counterMax - counter else counter - TagTable.counterMin).toNat

theorem baseDistance_eq (d : Bool) (x : Int) : baseDistance d x = Saturating.distance d x := rfl

theorem entryDistance_eq (d : Bool) (x : Int) : entryDistance d x =
    Saturating.room TagTable.counterMin TagTable.counterMax d x := rfl

/-- An entry whose counter is at its end for `d` is not weak, and says `d`. -/
theorem strong_of_entryDistance {d : Bool} {e : TageEntry}
    (he : TagTable.counterMin ≤ e.counter ∧ e.counter ≤ TagTable.counterMax)
    (h : entryDistance d e.counter = 0) : e.weak = false ∧ decide (e.counter ≥ 0) = d := by
  have hcounter := Saturating.eq_of_room he h
  simp only [TageEntry.weak]
  rw [hcounter]
  cases d <;> simp [TagTable.counterMin, TagTable.counterMax]

/-! ## The potential -/

/-- The counter of the entry at which table `i` is looked up. -/
def counterAt (s : TAGE (Gshare len counterLen) nTables idxLen) (pc : Word) (i : Nat) : Int :=
  ((s.tables i).content (s.consultedIdx pc i)).counter

/-- What the counters have left to go, and all the tables above the main provider. -/
def potential (d : Bool) (pc : Word) (s : TAGE (Gshare len counterLen) nTables idxLen) : Nat :=
  match (s.predict pc).2.mainProvider with
  | none => 3 * nTables + baseDistance d (s.baseBP.table (s.baseBP.getIdx pc))
  | some m => 3 * (nTables - 1 - m) + entryDistance d (s.counterAt pc m)

section
variable {s : TAGE (Gshare len counterLen) nTables idxLen} {d : Bool} {pc : Word} {m : Nat}

theorem potential_none (h : (s.predict pc).2.mainProvider = none) :
    potential d pc s = 3 * nTables + baseDistance d (s.baseBP.table (s.baseBP.getIdx pc)) := by
  simp only [potential]
  rw [h]

theorem potential_some (h : (s.predict pc).2.mainProvider = some m) :
    potential d pc s = 3 * (nTables - 1 - m) + entryDistance d (s.counterAt pc m) := by
  simp only [potential]
  rw [h]

/-- With a main provider the potential is below that of a lower or no main provider. -/
theorem potential_le_of_some (hs : InRange s) (h : (s.predict pc).2.mainProvider = some m) :
    potential d pc s ≤ 3 * (nTables - m) := by
  have hm := (mainProvider_eq_some_iff.1 h).1
  have hle : entryDistance d (s.counterAt pc m) ≤ 3 :=
    Saturating.room_le (hs m (s.consultedIdx pc m)).counter (by decide)
  rw [potential_some h]
  omega

theorem potential_le (hs : InRange s) (hbase : s.baseBP.InRange) :
    potential d pc s ≤ 3 * nTables + 2 ^ (counterLen - 1) := by
  cases h : (s.predict pc).2.mainProvider with
  | none =>
    have hle := hbase.distance_le d (s.baseBP.getIdx pc)
    rw [potential_none h, baseDistance_eq]
    omega
  | some m =>
    calc potential d pc s ≤ 3 * (nTables - m) := potential_le_of_some hs h
      _ ≤ 3 * nTables := by omega
      _ ≤ 3 * nTables + 2 ^ (counterLen - 1) := Nat.le_add_right _ _

/-! What is predicted. -/

/-- Without a main provider the base predicts. -/
theorem predict_none (h : (s.predict pc).2.mainProvider = none) :
    (s.predict pc).1.taken = decide (s.baseBP.table (s.baseBP.getIdx pc) ≥ 0) := by
  have hmain : (s.predict pc).2.mainPred.valid = false := by rw [mainPred_valid, h]; rfl
  have halt : (s.predict pc).2.altPred.valid = false := by
    rw [altPred_valid]
    cases halt : (s.predict pc).2.altProvider with
    | none => rfl
    | some i =>
      obtain ⟨_, hm, _⟩ := altProvider_eq_some_iff.1 halt
      cases h.symm.trans hm
  show (if (s.predict pc).2.mainPred.valid && !(s.predict pc).2.mainPred.weak
    then (s.predict pc).2.mainPred.toPrediction
    else if (s.predict pc).2.altPred.valid then (s.predict pc).2.altPred.toPrediction
    else (Predictor.predict s.baseBP pc).1).taken = _
  rw [hmain, halt]
  rfl

/-- A main provider at the end of its range predicts the outcome. -/
theorem predict_some (hs : InRange s) (h : (s.predict pc).2.mainProvider = some m)
    (hend : entryDistance d (s.counterAt pc m) = 0) : (s.predict pc).1.taken = d := by
  have hvalid : (s.predict pc).2.mainPred.valid = true := by rw [mainPred_valid, h]; rfl
  have hentry : (s.predict pc).2.mainPred = (s.tables m).content (s.consultedIdx pc m) :=
    (mainPred_eq h).trans
      (lookup_of_hit (b := ⟨pc, d, ((), 0)⟩) hs (mainProvider_eq_some_iff.1 h).2.1)
  obtain ⟨hweak, hsign⟩ := strong_of_entryDistance (hs m (s.consultedIdx pc m)).counter hend
  show (if (s.predict pc).2.mainPred.valid && !(s.predict pc).2.mainPred.weak
    then (s.predict pc).2.mainPred.toPrediction
    else if (s.predict pc).2.altPred.valid then (s.predict pc).2.altPred.toPrediction
    else (Predictor.predict s.baseBP pc).1).taken = _
  rw [hvalid, hentry, hweak]
  exact hsign

end

/-! ## One pair -/

/-- What holds between the pairs: counters in range and both registers filled. -/
structure Filled (d : Bool) (s : TAGE (Gshare len counterLen) nTables idxLen) : Prop where
  tables : InRange s
  base : s.baseBP.InRange
  shifted : Shifted d (warmup nTables len) s

section
variable {s : TAGE (Gshare len counterLen) nTables idxLen} {d : Bool} {b : Branch (Unit × Nat)}

theorem execute_baseInRange (h : s.baseBP.InRange) (b : Branch (Unit × Nat)) :
    (execute s b).2.baseBP.InRange := by
  rw [execute_baseBP]
  split
  · exact h
  · exact Gshare.update_inRange h b.pc b.taken

theorem Filled.step (h : Filled d s) (hb : b.taken = d) : Filled d (execute s b).2 where
  tables := execute_inRange b h.tables
  base := execute_baseInRange h.base b
  shifted := (h.shifted.step hb).mono (Nat.le_succ _)

/-- A pair without a main provider trains the base. -/
theorem potential_execute_none (h : Filled d s) (hb : b.taken = d)
    (hmain : (s.predict b.pc).2.mainProvider = none) :
    potential d b.pc (execute s b).2 + (if (execute s b).1.taken != d then 1 else 0) ≤
      potential d b.pc s := by
  have h' := h.step (b := b) hb
  have hpred : (execute s b).1.taken = decide (s.baseBP.table (s.baseBP.getIdx b.pc) ≥ 0) :=
    predict_none hmain
  have hwrong : (if (execute s b).1.taken != d then 1 else 0) ≤
      baseDistance d (s.baseBP.table (s.baseBP.getIdx b.pc)) := by
    rw [hpred]
    split
    next hne => exact Saturating.distance_pos (by simpa using hne)
    next => exact Nat.zero_le _
  have hone : (if (execute s b).1.taken != d then 1 else 0) ≤ 1 := by split <;> omega
  rw [potential_none hmain]
  cases hmain' : ((execute s b).2.predict b.pc).2.mainProvider with
  | some m =>
    -- the branch got its first entry
    have hle := potential_le_of_some (d := d) h'.tables hmain'
    omega
  | none =>
    have htwo : ¬ s.TwoHits b.pc := by
      intro ⟨i, j, _, hj, _, hhit⟩
      rw [mainProvider_eq_none hmain j hj] at hhit
      cases hhit
    have hcounter : (execute s b).2.baseBP.table (s.baseBP.getIdx b.pc) =
        Saturating.step (Gshare.counterMin counterLen) (Gshare.counterMax counterLen) d
          (s.baseBP.table (s.baseBP.getIdx b.pc)) := by
      rw [execute_baseBP, if_neg htwo, ← hb]
      exact Function.update_self _ _ _
    rw [baseDistance_eq] at hwrong
    rw [potential_none hmain', h.shifted.baseIdx_eq h'.shifted, hcounter, baseDistance_eq,
      baseDistance_eq, Saturating.distance_step (Gshare.counterMin_neg counterLen)
        (Gshare.counterMax_nonneg counterLen)]
    omega

/-- A pair with a main provider trains its entry, which is found again. -/
theorem potential_execute_some (h : Filled d s) (hb : b.taken = d) {m : Nat}
    (hmain : (s.predict b.pc).2.mainProvider = some m) :
    potential d b.pc (execute s b).2 + (if (execute s b).1.taken != d then 1 else 0) ≤
      potential d b.pc s := by
  have h' := h.step (b := b) hb
  have hhistory := h.shifted.history_eq h'.shifted
  obtain ⟨htag, hcounter⟩ := execute_main h.tables hmain
  have hwrong : (if (execute s b).1.taken != d then 1 else 0) ≤
      entryDistance d (s.counterAt b.pc m) := by
    by_cases hend : entryDistance d (s.counterAt b.pc m) = 0
    · have hpred : (execute s b).1.taken = d := predict_some h.tables hmain hend
      simp [hpred]
    · split <;> omega
  have hone : (if (execute s b).1.taken != d then 1 else 0) ≤ 1 := by split <;> omega
  have hm := (mainProvider_eq_some_iff.1 hmain).1
  have hhit : (execute s b).2.hit b.pc m = true := by
    rw [hit_iff h'.tables, hhistory]
    exact htag.symm
  rw [potential_some hmain]
  cases hmain' : ((execute s b).2.predict b.pc).2.mainProvider with
  | none =>
    rw [mainProvider_eq_none hmain' m hm] at hhit
    cases hhit
  | some m' =>
    obtain ⟨_, _, hmiss⟩ := mainProvider_eq_some_iff.1 hmain'
    obtain hlt | rfl | hlt := Nat.lt_trichotomy m' m
    · rw [hmiss m hlt hm] at hhit
      cases hhit
    · -- the same provider, one move further
      have hidx : (execute s b).2.counterAt b.pc m' =
          Saturating.step TagTable.counterMin TagTable.counterMax d (s.counterAt b.pc m') := by
        simp only [counterAt, consultedIdx]
        rw [hhistory, ← hb]
        exact hcounter
      have hdistance : entryDistance d ((execute s b).2.counterAt b.pc m') =
          entryDistance d (s.counterAt b.pc m') - 1 := by
        rw [hidx, entryDistance_eq, entryDistance_eq]
        exact Saturating.room_step (h.tables m' (s.consultedIdx b.pc m')).counter
      rw [potential_some hmain', hdistance]
      omega
    · -- a new entry in a higher table
      have hle := potential_le_of_some (d := d) h'.tables hmain'
      omega

theorem potential_execute (h : Filled d s) (hb : b.taken = d) :
    potential d b.pc (execute s b).2 + (if (execute s b).1.taken != d then 1 else 0) ≤
      potential d b.pc s := by
  cases hmain : (s.predict b.pc).2.mainProvider with
  | none => exact potential_execute_none h hb hmain
  | some m => exact potential_execute_some h hb hmain

end

/-! ## Runs of one branch -/

/-- The branch executed again and again with one outcome, for any draws. -/
def constantTrace (pc : Word) (d : Bool) (draws : List Nat) : List (Branch (Unit × Nat)) :=
  draws.map (fun draw => ⟨pc, d, ((), draw)⟩)

/-- How many of the predictions of a trace of outcomes `d` are wrong. -/
def mispredictions (s : TAGE (Gshare len counterLen) nTables idxLen) (pc : Word) (d : Bool)
    (draws : List Nat) : Nat :=
  (predictions s (constantTrace pc d draws)).countP (fun pred => pred.taken != d)

/-- The wrong predictions before the branch has settled. -/
def settleBound (nTables len counterLen : Nat) : Nat :=
  warmup nTables len + (3 * nTables + 2 ^ (counterLen - 1))

section
variable {s : TAGE (Gshare len counterLen) nTables idxLen} {d : Bool}

theorem mem_constantTrace {pc : Word} {draws : List Nat} {b : Branch (Unit × Nat)}
    (hb : b ∈ constantTrace pc d draws) : b.pc = pc ∧ b.taken = d := by
  obtain ⟨draw, _, rfl⟩ := List.mem_map.1 hb
  exact ⟨rfl, rfl⟩

theorem mispredictions_filled (h : Filled d s) (pc : Word) (draws : List Nat) :
    mispredictions s pc d draws ≤ potential d pc s := by
  apply Mealy.countP_outputs_le (C := fun b : Branch (Unit × Nat) => b.pc = pc ∧ b.taken = d)
    (I := fun s => Filled d s)
  · intro s b h ⟨hpc, hb⟩
    refine ⟨h.step hb, ?_⟩
    rw [← hpc]
    exact potential_execute h hb
  · exact fun b hb => mem_constantTrace hb
  · exact h

/-- The registers are filled after as many pairs as they keep. -/
theorem filled_of_length (hs : InRange s) (hbase : s.baseBP.InRange) (pc : Word)
    {draws : List Nat} (hlen : draws.length = warmup nTables len) :
    Filled d (afterTrace s (constantTrace pc d draws)) := by
  have hshifted : InRange (afterTrace s (constantTrace pc d draws)) ∧
      (afterTrace s (constantTrace pc d draws)).baseBP.InRange ∧
      Shifted d (constantTrace pc d draws).length (afterTrace s (constantTrace pc d draws)) := by
    refine Mealy.run_induction_along (C := fun _ (b : Branch (Unit × Nat)) => b.taken = d)
      (P := fun tr (t : TAGE (Gshare len counterLen) nTables idxLen) =>
        InRange t ∧ t.baseBP.InRange ∧ Shifted d tr.length t)
      ⟨hs, hbase, Shifted.zero d s⟩ ?_ _ (Mealy.along_of_forall ?_)
    · intro tr t b ⟨ht, hbt, hshift⟩ hb
      refine ⟨execute_inRange b ht, execute_baseInRange hbt b, ?_⟩
      rw [List.length_append]
      exact hshift.step hb
    · exact fun b hb => (mem_constantTrace hb).2
  obtain ⟨ht, hbt, hshift⟩ := hshifted
  rw [constantTrace, List.length_map, hlen] at hshift
  exact ⟨ht, hbt, hshift⟩

theorem mispredictions_le (hs : InRange s) (hbase : s.baseBP.InRange) (pc : Word)
    (draws : List Nat) : mispredictions s pc d draws ≤ settleBound nTables len counterLen := by
  by_cases hlong : draws.length ≤ warmup nTables len
  · -- too short to have filled the registers
    calc mispredictions s pc d draws
        ≤ (predictions s (constantTrace pc d draws)).length := List.countP_le_length
      _ = draws.length := by
        rw [predictions, Mealy.length_outputs, constantTrace, List.length_map]
      _ ≤ settleBound nTables len counterLen := Nat.le_trans hlong (Nat.le_add_right _ _)
  · have hlen : (draws.take (warmup nTables len)).length = warmup nTables len := by
      rw [List.length_take]
      omega
    have hfilled := filled_of_length (d := d) hs hbase pc hlen
    have hsplit : constantTrace pc d draws =
        constantTrace pc d (draws.take (warmup nTables len)) ++
          constantTrace pc d (draws.drop (warmup nTables len)) := by
      simp only [constantTrace]
      rw [← List.map_append, List.take_append_drop]
    simp only [mispredictions]
    rw [predictions, hsplit, Mealy.outputs_append, List.countP_append]
    apply Nat.add_le_add
    · apply Nat.le_trans List.countP_le_length
      rw [Mealy.length_outputs, constantTrace, List.length_map, hlen]
    · apply Nat.le_trans (mispredictions_filled hfilled pc _)
      exact potential_le hfilled.tables hfilled.base

/-! The states calls lead to. -/

theorem call_baseInRange (c : Call (Unit × Nat)) (h : s.baseBP.InRange) :
    (call s c).2.baseBP.InRange := by
  cases c with
  | predict pc => exact h
  | predictAddon pc addon addonLen => exact h
  | update pc taken draw =>
    show (s.update draw pc taken).baseBP.InRange
    rw [update_baseBP]
    split
    · exact Gshare.update_inRange h pc taken
    · exact h
  | reset => exact s.baseBP.reset_inRange

/-- **TAGE settles on a constant branch.** From any state that any calls lead to, with any
draws, and however long the run, at most `settleBound` predictions are wrong. -/
theorem settles (s : TAGE (Gshare len counterLen) nTables idxLen) (calls : List (Call (Unit × Nat)))
    (pc : Word) (d : Bool) (draws : List Nat) :
    mispredictions (afterCalls s.reset calls) pc d draws ≤ settleBound nTables len counterLen :=
  mispredictions_le (afterCalls_inRange s calls)
    (Mealy.run_invariant (P := fun t : TAGE (Gshare len counterLen) nTables idxLen =>
      t.baseBP.InRange) (fun _ c h => call_baseInRange c h) s.baseBP.reset_inRange calls) pc draws

end

end TAGE
end SandboxPredictor
