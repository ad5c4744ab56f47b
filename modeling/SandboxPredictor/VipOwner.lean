import Mathlib.Data.List.ReduceOption
import SandboxPredictor.VipDefault

/- What the private predictor of a slot has learned.

   A slot is trained by the pairs of the pc the last snapshot has in it, its owner at
   the time: `slotPairs` are these pairs, and the private predictor and the score are
   what a reset slot makes of them (`slot_learns_from_owners`). A snapshot that gives
   the slot to another pc clears neither of the two, so they keep what the pairs of
   earlier owners have left (`slot_keeps_former_owner`). -/
namespace SandboxPredictor
namespace VIP

variable {δ ρ π : Type} [Predictor δ ρ] [Predictor π Unit] {n snapInterval ghrLen : Nat}

/-- A pair routed to a slot: the pc the slot belongs to, and what the slot sees of the pair,
with the global history that VIP passes. -/
structure SlotPair where
  owner : Word
  pc : Word
  history : Word
  defaultTaken : Bool
  taken : Bool
  deriving DecidableEq, Repr

/-- What slot `i` sees of a pair, if the pair is routed to it. -/
def slotPair (i : Fin (n + 1)) (s : VIP δ π n snapInterval ghrLen) (b : Branch (ρ × Nat)) :
    Option SlotPair :=
  if s.mCache.getIdx b.pc = some i then
    some ⟨s.mCache.savedState i, b.pc, s.history, (Predictor.predict s.defaultBP b.pc).1.taken,
      b.taken⟩
  else none

/-- The pairs of a run that are routed to slot `i`. -/
def slotPairs (s : VIP δ π n snapInterval ghrLen) (tr : List (Branch (ρ × Nat)))
    (i : Fin (n + 1)) : List SlotPair :=
  (Mealy.observe execute (slotPair i) s tr).reduceOption

/-- A private predictor and its score through one pair. -/
def replayPair (ghrLen : Nat) (slot : π × Int) (p : SlotPair) : π × Int :=
  let (privatePred, privateBP) := Predictor.predictAddon slot.1 p.pc p.history ghrLen
  (Predictor.update privateBP () p.pc p.taken,
    updateScore p.defaultTaken privatePred.taken p.taken slot.2)

/-- A private predictor and its score after the pairs, from the reset state. -/
def replay (ghrLen : Nat) (privateBP : π) (pairs : List SlotPair) : π × Int :=
  pairs.foldl (replayPair ghrLen) (Predictor.reset privateBP, 0)

theorem replay_snoc (privateBP : π) (pairs : List SlotPair) (p : SlotPair) :
    replay ghrLen privateBP (pairs ++ [p]) = replayPair ghrLen (replay ghrLen privateBP pairs) p := by
  simp [replay]

section
variable {s : VIP δ π n snapInterval ghrLen}

theorem slotPairs_snoc (s : VIP δ π n snapInterval ghrLen) (tr : List (Branch (ρ × Nat)))
    (b : Branch (ρ × Nat)) (i : Fin (n + 1)) :
    slotPairs s (tr ++ [b]) i =
      slotPairs s tr i ++ (slotPair i (afterTrace s tr) b).toList := by
  simp only [slotPairs]
  rw [Mealy.observe_snoc, List.reduceOption_append]
  cases slotPair i (afterTrace s tr) b <;> rfl

/-- **One pair.** Slot `i` goes through the pair if it is routed to the slot, and stays as it
is if it is not. -/
theorem execute_slot (b : Branch (ρ × Nat)) (i : Fin (n + 1)) :
    ((execute s b).2.privateBP i, (execute s b).2.scoreboard i) =
      (slotPair i s b).toList.foldl (replayPair ghrLen) (s.privateBP i, s.scoreboard i) := by
  cases hidx : s.mCache.getIdx b.pc with
  | none =>
    rw [(execute_unrouted b hidx).1, (execute_unrouted b hidx).2]
    simp [slotPair, hidx]
  | some j =>
    rw [(execute_routed b hidx).1, (execute_routed b hidx).2]
    by_cases hij : j = i
    · subst hij
      rw [Function.update_self, Function.update_self, slotPair, if_pos hidx]
      rfl
    · rw [Function.update_of_ne (Ne.symm hij), Function.update_of_ne (Ne.symm hij)]
      simp [slotPair, hidx, hij]

/-- A slot is what its pairs make of it. -/
theorem slot_eq_replay (s : VIP δ π n snapInterval ghrLen) (tr : List (Branch (ρ × Nat)))
    (i : Fin (n + 1)) :
    ((afterTrace s.reset tr).privateBP i, (afterTrace s.reset tr).scoreboard i) =
      replay ghrLen (s.privateBP i) (slotPairs s.reset tr i) := by
  induction tr using List.reverseRecOn with
  | nil => rfl
  | append_singleton tr b ih =>
    rw [afterTrace, Mealy.run_snoc, slotPairs_snoc]
    calc ((execute (afterTrace s.reset tr) b).2.privateBP i,
          (execute (afterTrace s.reset tr) b).2.scoreboard i)
        = (slotPair i (afterTrace s.reset tr) b).toList.foldl (replayPair ghrLen)
            ((afterTrace s.reset tr).privateBP i, (afterTrace s.reset tr).scoreboard i) :=
          execute_slot b i
      _ = (slotPair i (afterTrace s.reset tr) b).toList.foldl (replayPair ghrLen)
            (replay ghrLen (s.privateBP i) (slotPairs s.reset tr i)) := by rw [ih]
      _ = replay ghrLen (s.privateBP i) (slotPairs s.reset tr i ++
            (slotPair i (afterTrace s.reset tr) b).toList) := by
          simp only [replay, List.foldl_append]

/-- An index is one that the pc is saved at. -/
theorem savedState_of_getIdx {c : MissCache (n + 1)} (h : c.Replaces) {pc : Word}
    {i : Fin (n + 1)} (hi : c.getIdx pc = some i) : c.savedState i = pc := by
  rw [MissCache.getIdx_eq h] at hi
  simpa using (Fin.find?_eq_some_iff.1 hi).1

theorem execute_replaces (h : s.mCache.Replaces) (b : Branch (ρ × Nat)) :
    (execute s b).2.mCache.Replaces := by
  have haccessed : (s.accessed b).Replaces := by
    simp only [accessed]
    split
    · exact (MissCache.access_replaces b.pc b.draw.2).2 h
    · exact h
  rw [execute_mCache]
  split
  · exact MissCache.snapshot_replaces.2 haccessed
  · exact haccessed

theorem afterTrace_replaces (hc : s.mCache.Replaces) (tr : List (Branch (ρ × Nat))) :
    (afterTrace s.reset tr).mCache.Replaces :=
  Mealy.run_invariant (P := fun t : VIP δ π n snapInterval ghrLen => t.mCache.Replaces)
    (fun _ b h => execute_replaces h b) (MissCache.reset_replaces.2 hc) tr

/-- A pair routed to a slot is one of its owner. -/
theorem slotPairs_owned (hc : s.mCache.Replaces) (tr : List (Branch (ρ × Nat)))
    (i : Fin (n + 1)) : ∀ p ∈ slotPairs s.reset tr i, p.pc = p.owner := by
  induction tr using List.reverseRecOn with
  | nil => simp [slotPairs, Mealy.observe, Mealy.outputs]
  | append_singleton tr b ih =>
    intro p hp
    rw [slotPairs_snoc] at hp
    obtain hp | hp := List.mem_append.1 hp
    · exact ih p hp
    · rw [Option.mem_toList, slotPair] at hp
      split at hp
      next hidx =>
        obtain rfl := Option.some.inj hp
        exact (savedState_of_getIdx (afterTrace_replaces hc tr) hidx).symm
      next => cases hp

/-- Over nonzero pcs every pair of the owner of a slot is routed to it. -/
theorem getIdx_iff_saved (hc : s.mCache.Replaces) {tr : List (Branch (ρ × Nat))}
    (htr : ∀ b ∈ tr, b.pc ≠ 0) {pc : Word} (hpc : pc ≠ 0) (i : Fin (n + 1)) :
    (afterTrace s.reset tr).mCache.getIdx pc = some i ↔
      (afterTrace s.reset tr).mCache.savedState i = pc := by
  have htracks : (afterTrace s.reset tr).mCache.Tracks (lastSnapshot s.reset tr) :=
    afterTrace_tracks hc htr
  rw [htracks.getIdx_iff hpc, htracks.savedState_iff hpc]

/-- **A slot learns from its owners.** After every run from reset the private predictor and
the score of a slot are what the pairs routed to it make of the reset state, and these are
pairs of the pc that was saved for the slot when they were executed: all of them, in a run of
nonzero pcs. -/
theorem slot_learns_from_owners (s : VIP δ π n snapInterval ghrLen) (hc : s.mCache.Replaces)
    (tr : List (Branch (ρ × Nat))) (i : Fin (n + 1)) :
    let t := afterTrace s.reset tr
    let pairs := slotPairs s.reset tr i
    (t.privateBP i, t.scoreboard i) = replay ghrLen (s.privateBP i) pairs ∧
    (∀ p ∈ pairs, p.pc = p.owner) ∧
    ((∀ b ∈ tr, b.pc ≠ 0) → ∀ pc, pc ≠ 0 →
      (t.mCache.getIdx pc = some i ↔ t.mCache.savedState i = pc)) := by
  refine ⟨slot_eq_replay s tr i, slotPairs_owned hc tr i, ?_⟩
  intro htr pc hpc
  exact getIdx_iff_saved hc htr hpc i

end

/-- The one slot after two pairs of pc 5, of which the second is routed, and one of pc 7. -/
theorem slot_learns_from_owners_lru :
    let s : VIP StaticTaken (Perceptron 8 128 9) 0 1 8 := VIP.new ⟨⟩ (Perceptron.new 8 128 9)
      (.lru ⟨fun _ => ⟨false, 0, 0⟩, fun _ => 0, 0⟩) 1 8
    let tr : List (Branch (Unit × Nat)) :=
      [⟨5, false, ((), 0)⟩, ⟨5, false, ((), 0)⟩, ⟨7, false, ((), 0)⟩]
    ((afterTrace s.reset tr).privateBP 0, (afterTrace s.reset tr).scoreboard 0) =
      replay 8 (s.privateBP 0) [⟨5, 5, 0, true, false⟩] := by
  intro s tr
  have hreplay := (slot_learns_from_owners s trivial tr 0).1
  have hpairs : slotPairs s.reset tr 0 = [⟨5, 5, 0, true, false⟩] := by decide
  rw [hpairs] at hreplay
  exact hreplay

/-! ## A slot that changes its owner -/

section
variable {len tableSize weightLen : Nat}

/-- The weights, the bias and the histories of the private perceptron at slot `i`, and its
score, are what pairs of `q` alone make of the reset state. -/
def LearnedFrom (s : VIP δ (Perceptron len tableSize weightLen) n snapInterval ghrLen)
    (tr : List (Branch (ρ × Nat))) (i : Fin (n + 1)) (q : Word) : Prop :=
  let t := afterTrace s.reset tr
  ∃ (pairs : List SlotPair) (bp : Perceptron len tableSize weightLen) (score : Int),
    (∀ p ∈ pairs, p.pc = q) ∧ replay ghrLen (s.privateBP i) pairs = (bp, score) ∧
    (t.privateBP i).weights = bp.weights ∧ (t.privateBP i).bias = bp.bias ∧
    (t.privateBP i).realHistory = bp.realHistory ∧ (t.privateBP i).specHistory = bp.specHistory ∧
    t.scoreboard i = score

/-- Every slot with a pc in the last snapshot has learned from the pairs of the pc alone. -/
def OwnPairsOnly (s : VIP δ (Perceptron len tableSize weightLen) n snapInterval ghrLen)
    (tr : List (Branch (ρ × Nat))) : Prop :=
  ∀ i, (afterTrace s.reset tr).mCache.savedState i ≠ 0 →
    LearnedFrom s tr i ((afterTrace s.reset tr).mCache.savedState i)

/-- Pairs of `q` train the row of `q` only. -/
theorem replay_bias {bp : Perceptron len tableSize weightLen} {q : Word} (idx : Nat)
    (hidx : idx ≠ bp.getIdx q) {pairs : List SlotPair} (hq : ∀ p ∈ pairs, p.pc = q) :
    (replay ghrLen bp pairs).1.bias idx = 0 := by
  induction pairs using List.reverseRecOn with
  | nil => rfl
  | append_singleton pairs p ih =>
    have hbefore := ih (fun p hp => hq p (List.mem_append_left _ hp))
    have hp := hq p (List.mem_append_right _ (List.mem_singleton_self p))
    rw [replay_snoc, ← hbefore]
    apply Perceptron.update_bias_other _ p.pc p.taken
    rw [hp]
    exact hidx

end

/-- Pc 5 trains the one slot, and the slot is given to pc 7 with what it has learned: the bias
of the row of pc 5 is not 0. -/
theorem slot_keeps_former_owner :
    ¬ OwnPairsOnly (VIP.new (n := 0) StaticTaken.mk (Perceptron.new 8 128 9)
        (.lru ⟨fun _ => ⟨false, 0, 0⟩, fun _ => 0, 0⟩) 1 8)
      [⟨5, false, ((), 0)⟩, ⟨5, false, ((), 0)⟩, ⟨7, false, ((), 0)⟩] := by
  intro h
  obtain ⟨pairs, bp, score, hq, hreplay, _, hbias, _⟩ := h 0 (by decide)
  have hzero : bp.bias 5 = 0 := by
    have hbp := congrArg (fun slot => slot.1.bias 5) hreplay
    apply hbp.symm.trans (replay_bias 5 _ hq)
    decide
  rw [← hbias] at hzero
  revert hzero
  decide +kernel

end VIP
end SandboxPredictor
