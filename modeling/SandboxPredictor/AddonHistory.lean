import SandboxPredictor.Gshare
import SandboxPredictor.PerceptronInFlight

/- Predictions from a history extended by addon bits, and the updates after them.

   `Perceptron` puts the extended history into its queue, so its update trains the
   weights the prediction read. `Gshare` saves nothing: its update takes the index
   from the history as it is, which is the one the prediction read exactly when the
   addon bits do not show in the `GHRLen` newest bits (`SameWindow`). -/
namespace SandboxPredictor
open ShiftRegister

namespace Perceptron

variable {ghrLen tableSize weightLen : Nat}

/-- The prediction from the extended history weighs it with the row of the branch; the update
after it trains this row on this history, from that sum, and leaves all other weights. -/
structure TrainsConsulted (p : Perceptron ghrLen tableSize weightLen) (pc addon : Word)
    (addonLen : Nat) (taken : Bool) : Prop where
  read :
    let sum := p.weightedSum (p.getIdx pc) (p.addonHistory addon addonLen)
    (p.predictAddon pc addon addonLen).1 = ⟨decide (sum ≥ 0), sum.natAbs⟩
  trained :
    let history := p.addonHistory addon addonLen
    let sum := p.weightedSum (p.getIdx pc) history
    let q := (p.predictAddon pc addon addonLen).2.update pc taken
    (q.weights, q.bias) =
      if decide (sum ≥ 0) != taken || decide (sum.natAbs < threshold ghrLen)
      then ((p.train (p.getIdx pc) history taken).weights,
        (p.train (p.getIdx pc) history taken).bias)
      else (p.weights, p.bias)
  others : ∀ idx i, idx ≠ p.getIdx pc ∨ ghrLen ≤ i →
    ((p.predictAddon pc addon addonLen).2.update pc taken).weights idx i = p.weights idx i
  otherBias : ∀ idx, idx ≠ p.getIdx pc →
    ((p.predictAddon pc addon addonLen).2.update pc taken).bias idx = p.bias idx

/-- With nothing outstanding the queue hands the extended history to the update. -/
theorem trainsConsulted (p : Perceptron ghrLen tableSize weightLen)
    (hempty : p.pendingBP.head = p.pendingBP.tail) (pc addon : Word) (addonLen : Nat)
    (taken : Bool) : p.TrainsConsulted pc addon addonLen taken := by
  have hstate : (p.predictAddon pc addon addonLen).2.pendingBP.dequeue.1 =
      ⟨p.addonHistory addon addonLen,
        p.weightedSum (p.getIdx pc) (p.addonHistory addon addonLen)⟩ :=
    (PstateQueue.dequeue_enqueue hempty _).1
  have htrained := update_weights_bias (p.predictAddon pc addon addonLen).2 pc taken
  simp only [hstate] at htrained
  refine ⟨rfl, ?_, ?_, ?_⟩
  · refine htrained.trans ?_
    split <;> rfl
  · intro idx i hother
    rw [(Prod.mk.inj htrained).1]
    split
    · by_cases hidx : idx = p.getIdx pc
      · subst hidx
        have hi : ¬ i < ghrLen := Nat.not_lt.2 (hother.resolve_left (fun hne => hne rfl))
        exact (congrFun (Function.update_self _ _ _) i).trans (if_neg hi)
      · exact congrFun (Function.update_of_ne hidx _ _) i
    · rfl
  · intro idx hidx
    exact update_bias_other (p.predictAddon pc addon addonLen).2 pc taken hidx

end Perceptron

namespace Gshare

variable {ghrLen counterLen : Nat}

/-- The index `predict(pc, addon, addon_len)` reads. -/
def addonIdx (s : Gshare ghrLen counterLen) (pc addon : Word) (addonLen : Nat) : Word :=
  (((s.history <<< addonLen) ||| (addon &&& lowMask addonLen)) ^^^ pc) &&& lowMask ghrLen

/-- The prediction from the extended history reads one counter; the update after it moves
this counter, and no other. -/
structure TrainsConsulted (s : Gshare ghrLen counterLen) (pc addon : Word) (addonLen : Nat)
    (taken : Bool) : Prop where
  read : (s.predictAddon pc addon addonLen).1 =
    toPrediction (s.table (s.addonIdx pc addon addonLen))
  trained :
    let idx := s.addonIdx pc addon addonLen
    ((s.predictAddon pc addon addonLen).2.update pc taken).table =
      Function.update s.table idx
        (Saturating.step (counterMin counterLen) (counterMax counterLen) taken (s.table idx))

/-- Extending the history by the addon bits does not change its `GHRLen` newest bits. -/
def SameWindow (s : Gshare ghrLen counterLen) (addon : Word) (addonLen : Nat) : Prop :=
  ∀ i, i < ghrLen → i < 64 →
    s.history.getLsbD i = if i < addonLen then addon.getLsbD i else s.history.getLsbD (i - addonLen)

variable {s : Gshare ghrLen counterLen} {addon : Word} {addonLen : Nat}

/-- The two indices agree when the windows do. -/
theorem addonIdx_eq_iff (pc : Word) :
    s.addonIdx pc addon addonLen = s.getIdx pc ↔ s.SameWindow addon addonLen := by
  have hbit : ∀ i, i < 64 → ((s.history <<< addonLen) ||| (addon &&& lowMask addonLen)).getLsbD i =
      if i < addonLen then addon.getLsbD i else s.history.getLsbD (i - addonLen) := by
    intro i hi
    rw [BitVec.getLsbD_or, BitVec.getLsbD_shiftLeft, BitVec.getLsbD_and,
      lowMask_getLsbD addonLen hi]
    by_cases hlow : i < addonLen <;> simp [hi, hlow]
  refine ⟨?_, ?_⟩
  · intro heq i hi hi64
    have hidx := congrArg (fun x => BitVec.getLsbD x i) heq
    simp only [addonIdx, getIdx, BitVec.getLsbD_and, BitVec.getLsbD_xor, lowMask_getLsbD _ hi64,
      hi, decide_true, Bool.and_true, hbit i hi64] at hidx
    exact (Bool.xor_left_inj.1 hidx).symm
  · intro hsame
    apply BitVec.eq_of_getLsbD_eq
    intro i hi64
    simp only [addonIdx, getIdx, BitVec.getLsbD_and, BitVec.getLsbD_xor, lowMask_getLsbD _ hi64,
      hbit i hi64]
    by_cases hi : i < ghrLen
    · rw [hsame i hi hi64]
    · simp [hi]

/-- A counter moves for one of the two outcomes. -/
theorem exists_step_ne (x : Int) : ∃ taken,
    Saturating.step (counterMin counterLen) (counterMax counterLen) taken x ≠ x := by
  have hmin := counterMin_neg counterLen
  have hmax := counterMax_nonneg counterLen
  by_cases hx : x < counterMax counterLen
  · refine ⟨true, ?_⟩
    simp only [Saturating.step, if_true, if_pos hx]
    omega
  · refine ⟨false, ?_⟩
    have hlow : counterMin counterLen < x := by omega
    simp only [Saturating.step, Bool.false_eq_true, if_false, if_pos hlow]
    omega

theorem trainsConsulted_iff (s : Gshare ghrLen counterLen) (pc addon : Word) (addonLen : Nat) :
    (∀ taken, s.TrainsConsulted pc addon addonLen taken) ↔ s.SameWindow addon addonLen := by
  rw [← addonIdx_eq_iff pc]
  have htable : ∀ taken, ((s.predictAddon pc addon addonLen).2.update pc taken).table =
      Function.update s.table (s.getIdx pc) (Saturating.step (counterMin counterLen)
        (counterMax counterLen) taken (s.table (s.getIdx pc))) := fun _ => rfl
  refine ⟨?_, ?_⟩
  · intro htrains
    by_contra hne
    -- one of the outcomes moves the counter the update takes, which was not read
    obtain ⟨taken, hmoved⟩ : ∃ taken, Saturating.step (counterMin counterLen)
        (counterMax counterLen) taken (s.table (s.getIdx pc)) ≠ s.table (s.getIdx pc) :=
      exists_step_ne _
    have hat := congrFun ((htable taken).symm.trans (htrains taken).trained) (s.getIdx pc)
    rw [Function.update_self, Function.update_of_ne (Ne.symm hne)] at hat
    exact hmoved hat
  · intro heq taken
    refine ⟨rfl, ?_⟩
    dsimp only
    rw [htable, heq]

end Gshare

/-- **Where the update trains what the prediction with extra history consulted.** For a
perceptron with nothing outstanding it always does; for Gshare, whatever the outcome, if
and only if the addon bits leave the `GHRLen` newest bits of the history as they are. -/
theorem addon_trains_consulted {ghrLen tableSize weightLen ghrLen' counterLen : Nat}
    (p : Perceptron ghrLen tableSize weightLen) (s : Gshare ghrLen' counterLen)
    (pc addon : Word) (addonLen : Nat) :
    (p.pendingBP.head = p.pendingBP.tail →
      ∀ taken, p.TrainsConsulted pc addon addonLen taken) ∧
    ((∀ taken, s.TrainsConsulted pc addon addonLen taken) ↔ s.SameWindow addon addonLen) :=
  ⟨fun hempty taken => p.trainsConsulted hempty pc addon addonLen taken,
    s.trainsConsulted_iff pc addon addonLen⟩

/-- One addon bit: the prediction reads counter 0x11, the update moves counter 0x10. -/
theorem consulted_not_trained :
    ¬ (Gshare.new 8 2).TrainsConsulted 0x400a10 1 1 true := by
  intro htrains
  have hmoved := congrFun htrains.trained 0x11
  revert hmoved
  decide

end SandboxPredictor
