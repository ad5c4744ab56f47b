import SandboxPredictor.Snapshot
import SandboxPredictor.Vip

/- VIP and its default predictor.

   A pair of VIP is a pair of the default predictor, whatever the miss cache, the
   private predictors and the scoreboard do, so the default predictor goes through
   its own run. VIP returns its prediction for every branch that was not resident in
   the miss cache at the last snapshot, and for the others as long as the score of
   the slot is not negative (`default_undisturbed`). -/
namespace SandboxPredictor
namespace VIP

variable {δ ρ π : Type} [Predictor δ ρ] [Predictor π Unit] {n snapInterval ghrLen : Nat}

/-! ## One pair -/

/-- The miss cache of a pair after its access. -/
def accessed (s : VIP δ π n snapInterval ghrLen) (b : Branch (ρ × Nat)) : MissCache (n + 1) :=
  if b.taken ≠ (Predictor.predict s.defaultBP b.pc).1.taken
  then (s.mCache.access b.pc b.draw.2).2 else s.mCache

/-- The miss cache of which the pair takes a snapshot, if it takes one. -/
def atSnapshot (s : VIP δ π n snapInterval ghrLen) (b : Branch (ρ × Nat)) :
    Option (MissCache (n + 1)) :=
  if s.currCount + 1 = BitVec.ofNat 32 snapInterval then some (s.accessed b) else none

/-- The miss cache at the last snapshot of a run, at its start when it has taken none. -/
def lastSnapshot (s : VIP δ π n snapInterval ghrLen) (tr : List (Branch (ρ × Nat))) :
    MissCache (n + 1) :=
  Mealy.lastSeen execute atSnapshot s.mCache s tr

section
variable (s : VIP δ π n snapInterval ghrLen) (b : Branch (ρ × Nat))

/-- A prediction leaves the default prediction behind, and the counts. -/
theorem predict_default :
    (s.predict b.pc).2.defaultBP = (Predictor.predict s.defaultBP b.pc).2 ∧
      (s.predict b.pc).2.lastDefault = (Predictor.predict s.defaultBP b.pc).1.taken ∧
      (s.predict b.pc).2.currCount = s.currCount ∧ (s.predict b.pc).2.history = s.history := by
  cases h : s.mCache.getIdx b.pc with
  | none =>
    rw [predict_unrouted h]
    exact ⟨rfl, rfl, rfl, rfl⟩
  | some i =>
    rw [predict_routed h]
    exact ⟨rfl, rfl, rfl, rfl⟩

/-- A pair of VIP is a pair of its default predictor. -/
theorem execute_defaultBP :
    (execute s b).2.defaultBP = (execute s.defaultBP (b.mapDraw Prod.fst)).2 := by
  obtain ⟨hdefault, _⟩ := predict_default s b
  show ((s.predict b.pc).2.update b.draw b.pc b.taken).defaultBP = _
  simp only [update]
  split
  · show Predictor.update (s.predict b.pc).2.defaultBP b.draw.1 b.pc b.taken = _
    rw [hdefault]
    rfl
  · show Predictor.update (s.predict b.pc).2.defaultBP b.draw.1 b.pc b.taken = _
    rw [hdefault]
    rfl

/-- A pair accesses the miss cache when the default prediction was wrong, and takes a
snapshot when it is due. -/
theorem execute_mCache :
    (execute s b).2.mCache =
      if s.currCount + 1 = BitVec.ofNat 32 snapInterval then (s.accessed b).snapshot
      else s.accessed b := by
  obtain ⟨_, hlast, hcount, _⟩ := predict_default s b
  have haccessed : (s.predict b.pc).2.accessOnMiss b.draw.2 b.pc b.taken = s.accessed b := by
    simp only [accessOnMiss, accessed]
    rw [hlast, predict_mCache]
  show ((s.predict b.pc).2.update b.draw b.pc b.taken).mCache = _
  rw [← haccessed, ← hcount]
  simp only [update]
  split <;> rfl

/-- What VIP returns: the private prediction for a branch with an index whose score is
negative, the default prediction otherwise. -/
theorem predict_fst (pc : Word) :
    (s.predict pc).1 = match s.mCache.getIdx pc with
      | none => (Predictor.predict s.defaultBP pc).1
      | some i => if s.scoreboard i < 0 then (s.predictPrivate i pc).1
        else (Predictor.predict s.defaultBP pc).1 := by
  simp only [predict]
  cases s.mCache.getIdx pc <;> rfl

end

/-! ## Runs -/

section
variable {s : VIP δ π n snapInterval ghrLen}

theorem lastSnapshot_snoc (s : VIP δ π n snapInterval ghrLen) (tr : List (Branch (ρ × Nat)))
    (b : Branch (ρ × Nat)) :
    lastSnapshot s (tr ++ [b]) = ((afterTrace s tr).atSnapshot b).getD (lastSnapshot s tr) :=
  Mealy.lastSeen_snoc atSnapshot s.mCache tr b

/-- The default predictor goes through its own run. -/
theorem afterTrace_defaultBP (s : VIP δ π n snapInterval ghrLen) (tr : List (Branch (ρ × Nat))) :
    (afterTrace s tr).defaultBP = afterTrace s.defaultBP (tr.map (Branch.mapDraw Prod.fst)) :=
  Mealy.run_component execute_defaultBP s tr

/-- A pair of a nonzero pc keeps the saved state that of the last snapshot. -/
theorem execute_tracks {last : MissCache (n + 1)} (h : s.mCache.Tracks last)
    {b : Branch (ρ × Nat)} (hb : b.pc ≠ 0) :
    (execute s b).2.mCache.Tracks ((s.atSnapshot b).getD last) := by
  have haccessed : (s.accessed b).Tracks last := by
    simp only [accessed]
    split
    · exact h.access hb b.draw.2
    · exact h
  rw [execute_mCache]
  simp only [atSnapshot]
  split
  · exact haccessed.snapshot
  · exact haccessed

theorem afterTrace_tracks (hc : s.mCache.Replaces) {tr : List (Branch (ρ × Nat))}
    (htr : ∀ b ∈ tr, b.pc ≠ 0) :
    (afterTrace s.reset tr).mCache.Tracks (lastSnapshot s.reset tr) := by
  induction tr using List.reverseRecOn with
  | nil => exact MissCache.Tracks.reset hc
  | append_singleton tr b ih =>
    rw [lastSnapshot_snoc, afterTrace, Mealy.run_snoc]
    apply execute_tracks
    · apply ih
      exact fun b hb => htr b (List.mem_append_left _ hb)
    · exact htr b (List.mem_append_right _ (List.mem_singleton_self b))

/-- **VIP does not disturb its default predictor.** After every run of nonzero pcs from
reset the default predictor is where it is after the run alone, and for the next pc VIP
returns what it predicts alone: if the pc was in no slot at the last snapshot, and if the
score of its slot is not negative. -/
theorem default_undisturbed (s : VIP δ π n snapInterval ghrLen) (hc : s.mCache.Replaces)
    (tr : List (Branch (ρ × Nat))) (htr : ∀ b ∈ tr, b.pc ≠ 0) :
    let t := afterTrace s.reset tr
    let last := lastSnapshot s.reset tr
    let alone := afterTrace (Predictor.reset s.defaultBP) (tr.map (Branch.mapDraw Prod.fst))
    t.defaultBP = alone ∧
    ∀ pc, pc ≠ 0 →
      ((∀ i, last.slots i ≠ some pc) → (Predictor.predict t pc).1 = (Predictor.predict alone pc).1) ∧
      ∀ i, last.slots i = some pc → t.scoreboard i ≥ 0 →
        (Predictor.predict t pc).1 = (Predictor.predict alone pc).1 := by
  intro t last alone
  have hdefault : t.defaultBP = alone := afterTrace_defaultBP s.reset tr
  have htracks : t.mCache.Tracks last := afterTrace_tracks hc htr
  refine ⟨hdefault, ?_⟩
  intro pc hpc
  have hpred := predict_fst t pc
  rw [hdefault] at hpred
  refine ⟨?_, ?_⟩
  · intro hnot
    have hidx : t.mCache.getIdx pc = none := by
      rw [Option.eq_none_iff_forall_ne_some]
      intro i hi
      apply hnot i
      exact (htracks.getIdx_iff hpc i).1 hi
    rw [hidx] at hpred
    exact hpred
  · intro i hi hscore
    rw [(htracks.getIdx_iff hpc i).2 hi] at hpred
    dsimp only at hpred
    rw [if_neg (by omega)] at hpred
    exact hpred

end

/-- A VIP of two slots over a perceptron: 5 and 7 were mispredicted and have the slots, the
perceptron is ahead for 5, and 9 has none. -/
theorem default_undisturbed_lru :
    let s : VIP (Perceptron 8 128 9) StaticTaken 1 2 8 :=
      VIP.new (Perceptron.new 8 128 9) ⟨⟩ (.lru ⟨fun _ => ⟨false, 0, 0⟩, fun _ => 0, 0⟩) 2 8
    let tr : List (Branch (Unit × Nat)) := [⟨5, false, ((), 0)⟩, ⟨7, false, ((), 0)⟩,
      ⟨5, false, ((), 0)⟩, ⟨7, true, ((), 0)⟩, ⟨9, true, ((), 0)⟩]
    let alone := afterTrace (Predictor.reset s.defaultBP) (tr.map (Branch.mapDraw Prod.fst))
    (lastSnapshot s.reset tr).slots 0 = some 5 ∧ (lastSnapshot s.reset tr).slots 1 = some 7 ∧
      (Predictor.predict (afterTrace s.reset tr) 5).1 = (Predictor.predict alone 5).1 ∧
      (Predictor.predict (afterTrace s.reset tr) 9).1 = (Predictor.predict alone 9).1 := by
  intro s tr alone
  have h := (default_undisturbed s trivial tr (by simp [tr])).2
  have hfive : (lastSnapshot s.reset tr).slots 0 = some 5 := by decide +kernel
  have hseven : (lastSnapshot s.reset tr).slots 1 = some 7 := by decide +kernel
  refine ⟨hfive, hseven, ?_, ?_⟩
  · exact (h 5 (by decide)).2 0 hfive (by decide +kernel)
  · exact (h 9 (by decide)).1 (by decide +kernel)

end VIP
end SandboxPredictor
