import Mathlib.Algebra.Order.BigOperators.Group.Finset
import SandboxPredictor.Gshare

/- `Gshare` on one branch whose outcomes follow a pattern.

   A pattern is what `Determined` says: wherever the same `GHRLen` outcomes come
   before, the same outcome follows. Once `GHRLen` outcomes of the branch are in
   the history, the index determines the window and with it the outcome, so each
   counter of the table is only ever moved one way. A wrong prediction moves its
   counter, and a counter that has reached the right sign is right for good. -/
namespace SandboxPredictor
open ShiftRegister

namespace Gshare

variable {ghrLen counterLen : Nat}

/-- The states calls of any member function lead to. -/
inductive Reachable : Gshare ghrLen counterLen → Prop
  | new : Reachable (new ghrLen counterLen)
  | call {s : Gshare ghrLen counterLen} (h : Reachable s) (c : Call Unit) : Reachable (call s c).2
  | updateHistory {s : Gshare ghrLen counterLen} (h : Reachable s) (taken : Bool) :
    Reachable (s.updateHistory taken)

/-- The branch at `pc` executed alone, with the outcomes `outs`. -/
def patternTrace (pc : Word) (outs : List Bool) : List (Branch Unit) :=
  outs.map fun taken => ⟨pc, taken, ()⟩

theorem patternTrace_append (pc : Word) (outs outs' : List Bool) :
    patternTrace pc (outs ++ outs') = patternTrace pc outs ++ patternTrace pc outs' :=
  List.map_append

/-- The prediction the pair makes is wrong. -/
def wrong (s : Gshare ghrLen counterLen) (b : Branch Unit) : Bool :=
  (s.predict b.pc).1.taken != b.taken

/-- How many predictions of a trace are wrong. -/
def wrongPredictions (s : Gshare ghrLen counterLen) (tr : List (Branch Unit)) : Nat :=
  (Mealy.observe execute wrong s tr).countP id

/-- The `n` outcomes before outcome number `i`, newest first. -/
def window (n : Nat) (outs : List Bool) (i : Nat) : List Bool := (outs.take i).reverse.take n

/-- Every outcome is determined by the `n` outcomes before it. -/
def Determined (n : Nat) (outs : List Bool) : Prop :=
  ∀ i, i < outs.length → ∀ j, j < outs.length →
    n ≤ i ∧ n ≤ j ∧ window n outs i = window n outs j → outs[i]? = outs[j]?

instance (n : Nat) (outs : List Bool) : Decidable (Determined n outs) :=
  inferInstanceAs (Decidable (∀ i, i < outs.length → ∀ j, j < outs.length →
    n ≤ i ∧ n ≤ j ∧ window n outs i = window n outs j → outs[i]? = outs[j]?))

theorem Reachable.inRange {s : Gshare ghrLen counterLen} (h : Reachable s) : InRange s := by
  induction h with
  | new => exact reset_inRange _
  | @call s _ c ih =>
    cases c with
    | predict | predictAddon => exact ih
    | update pc taken draw => exact update_inRange ih pc taken
    | reset => exact reset_inRange s
  | updateHistory _ _ ih => exact ih

/-! ## The index determines the window -/

section
variable {h h' pc : Word} {outs outs' : List Bool}

/-- Histories that give the same index agree on the bits that go into it. -/
theorem getLsbD_of_idx_eq (hidx : (h ^^^ pc) &&& lowMask ghrLen = (h' ^^^ pc) &&& lowMask ghrLen)
    {i : Nat} (hi : i < ghrLen) (hlen : ghrLen ≤ 64) : h.getLsbD i = h'.getLsbD i := by
  have hbit := congrArg (fun x => x.getLsbD i) hidx
  simp only [BitVec.getLsbD_and, BitVec.getLsbD_xor, lowMask_getLsbD ghrLen (show i < 64 by omega),
    hi, decide_true, Bool.and_true] at hbit
  exact Bool.xor_left_inj.1 hbit

/-- Equal indices come from equal windows. -/
theorem window_eq_of_idx_eq (hn : Newest h outs) (hn' : Newest h' outs')
    (hlen : ghrLen ≤ 64) (hfull : ghrLen ≤ outs.length) (hfull' : ghrLen ≤ outs'.length)
    (hidx : (h ^^^ pc) &&& lowMask ghrLen = (h' ^^^ pc) &&& lowMask ghrLen) :
    outs.reverse.take ghrLen = outs'.reverse.take ghrLen := by
  apply List.ext_getElem?
  intro i
  by_cases hi : i < ghrLen
  · rw [List.getElem?_take_of_lt hi, List.getElem?_take_of_lt hi, hn i (by omega) (by omega),
      hn' i (by omega) (by omega), getLsbD_of_idx_eq hidx hi hlen]
  · rw [List.getElem?_eq_none (by simp; omega), List.getElem?_eq_none (by simp; omega)]

end

/-! ## The potential -/

/-- The indices of the table. -/
def indices (ghrLen : Nat) : Finset Word := (Finset.range (2 ^ ghrLen)).image (BitVec.ofNat 64)

/-- The moves until every counter predicts what `f` says follows its index. -/
def potential (f : Word → Bool) (s : Gshare ghrLen counterLen) : Nat :=
  ∑ idx ∈ indices ghrLen, Saturating.distance (f idx) (s.table idx)

section
variable {s : Gshare ghrLen counterLen} {f : Word → Bool} {pc : Word}

theorem getIdx_mem_indices (s : Gshare ghrLen counterLen) (pc : Word) :
    s.getIdx pc ∈ indices ghrLen := by
  have hlt : (s.getIdx pc).toNat < 2 ^ ghrLen := and_lowMask_toNat_lt _ ghrLen
  exact Finset.mem_image.2 ⟨(s.getIdx pc).toNat, Finset.mem_range.2 hlt,
    BitVec.ofNat_toNat _ _⟩

theorem potential_le (hs : InRange s) (f : Word → Bool) :
    potential f s ≤ 2 ^ ghrLen * 2 ^ (counterLen - 1) := by
  calc potential f s
      ≤ (indices ghrLen).card * 2 ^ (counterLen - 1) :=
        Finset.sum_le_card_nsmul _ _ _ fun idx _ => hs.distance_le (f idx) idx
    _ ≤ 2 ^ ghrLen * 2 ^ (counterLen - 1) := by
        have hcard : (indices ghrLen).card ≤ 2 ^ ghrLen := by
          simpa [indices] using Finset.card_image_le (s := Finset.range (2 ^ ghrLen))
            (f := BitVec.ofNat 64)
        exact Nat.mul_le_mul_right _ hcard

/-- **Step.** A pair whose outcome is what `f` says of its index takes a move off the
potential if its prediction is wrong, and never adds one. -/
theorem potential_execute (b : Branch Unit) (hb : b.taken = f (s.getIdx b.pc)) :
    potential f (execute s b).2 + (if wrong s b then 1 else 0) ≤ potential f s := by
  have hmem := getIdx_mem_indices s b.pc
  -- only the counter at the index moves, towards the outcome
  have htable : (execute s b).2.table = Function.update s.table (s.getIdx b.pc)
      (Saturating.step (counterMin counterLen) (counterMax counterLen) b.taken
        (s.table (s.getIdx b.pc))) := rfl
  have hrest : ∑ idx ∈ (indices ghrLen).erase (s.getIdx b.pc),
      Saturating.distance (f idx) ((execute s b).2.table idx) =
      ∑ idx ∈ (indices ghrLen).erase (s.getIdx b.pc),
        Saturating.distance (f idx) (s.table idx) := by
    apply Finset.sum_congr rfl
    intro idx hidx
    rw [htable, Function.update_of_ne (Finset.ne_of_mem_erase hidx)]
  have hmoved : Saturating.distance (f (s.getIdx b.pc))
      ((execute s b).2.table (s.getIdx b.pc)) =
      Saturating.distance (f (s.getIdx b.pc)) (s.table (s.getIdx b.pc)) - 1 := by
    rw [htable, Function.update_self, hb]
    exact Saturating.distance_step (counterMin_neg counterLen) (counterMax_nonneg counterLen)
  unfold potential
  rw [← Finset.add_sum_erase _ _ hmem, ← Finset.add_sum_erase _ _ hmem, hrest, hmoved]
  by_cases hwrong : wrong s b = true
  · have hpos : 0 < Saturating.distance (f (s.getIdx b.pc)) (s.table (s.getIdx b.pc)) := by
      apply Saturating.distance_pos
      rw [← hb]
      exact bne_iff_ne.1 hwrong
    rw [if_pos hwrong]
    omega
  · rw [if_neg hwrong]
    omega

end

/-! ## Runs over a pattern -/

section
variable (s : Gshare ghrLen counterLen) (pc : Word) (outs : List Bool)

/-- The state in which outcome number `i` of the pattern is predicted. -/
def stateAt (i : Nat) : Gshare ghrLen counterLen := afterTrace s (patternTrace pc (outs.take i))

/-- The outcome that follows an index, once the history is full. -/
def follows (idx : Word) : Bool :=
  decide (∃ i, i < outs.length ∧ ghrLen ≤ i ∧ outs[i]? = some true ∧
    (stateAt s pc outs i).getIdx pc = idx)

theorem newest_history : Newest (afterTrace s (patternTrace pc outs)).history outs := by
  induction outs using List.reverseRecOn with
  | nil => exact Newest.nil _
  | append_singleton outs taken ih =>
    rw [patternTrace_append, afterTrace, Mealy.run_append]
    exact ih.shiftIn taken

variable {s pc outs}

/-- In a determined pattern the index says which outcome follows. -/
theorem follows_getIdx (hdet : Determined ghrLen outs) (hlen : ghrLen ≤ 64) {i : Nat}
    (hi : ghrLen ≤ i) {taken : Bool} (hout : outs[i]? = some taken) :
    taken = follows s pc outs ((stateAt s pc outs i).getIdx pc) := by
  have hlt : i < outs.length := (List.getElem?_eq_some_iff.1 hout).1
  cases taken with
  | true => exact (decide_eq_true ⟨i, hlt, hi, hout, rfl⟩).symm
  | false =>
    apply (decide_eq_false _).symm
    intro ⟨j, hlt', hj, hout', hidx⟩
    have hwindow : window ghrLen outs i = window ghrLen outs j :=
      window_eq_of_idx_eq (newest_history s pc (outs.take i)) (newest_history s pc (outs.take j))
        hlen (by rw [List.length_take]; omega) (by rw [List.length_take]; omega) hidx.symm
    rw [hdet i hlt j hlt' ⟨hi, hj, hwindow⟩, hout'] at hout
    cases hout

/-- After the first `GHRLen` pairs every pair has the outcome that follows its index. -/
theorem along_follows (hdet : Determined ghrLen outs) (hlen : ghrLen ≤ 64) :
    Mealy.Along execute (fun t b => b.taken = follows s pc outs (t.getIdx b.pc))
      (stateAt s pc outs ghrLen) (patternTrace pc (outs.drop ghrLen)) := by
  apply Mealy.along_of_prefix
  intro pre b post hsplit
  obtain ⟨before, rest, hdrop, hbefore, hrest⟩ := List.map_eq_append_iff.1 hsplit
  obtain ⟨taken, after, hcons, hb, _⟩ := List.map_eq_cons_iff.1 hrest
  have houts : outs = (outs.take ghrLen ++ before) ++ taken :: after := by
    rw [List.append_assoc, ← hcons, ← hdrop, List.take_append_drop]
  have hfull : ghrLen ≤ outs.length := by
    by_contra hshort
    rw [List.drop_eq_nil_of_le (by omega), hcons] at hdrop
    simp at hdrop
  have hlength : (outs.take ghrLen ++ before).length = ghrLen + before.length := by
    rw [List.length_append, List.length_take, Nat.min_eq_left hfull]
  have htake : outs.take (ghrLen + before.length) = outs.take ghrLen ++ before := by
    conv_lhs => rw [houts, ← hlength, List.take_left]
  have hstate : Mealy.run execute (stateAt s pc outs ghrLen) pre =
      stateAt s pc outs (ghrLen + before.length) := by
    have hpre : patternTrace pc before = pre := hbefore
    rw [stateAt, stateAt, htake, patternTrace_append, hpre, afterTrace, afterTrace,
      Mealy.run_append]
  have hout : outs[ghrLen + before.length]? = some taken := by
    conv_lhs => rw [houts, ← hlength]
    rw [List.getElem?_append_right (le_refl _), Nat.sub_self]
    rfl
  rw [hstate, ← hb]
  exact follows_getIdx hdet hlen (Nat.le_add_right _ _) hout

/-- **Gshare learns every pattern its history can tell apart.** -/
theorem wrongPredictions_le (hs : Reachable s) (pc : Word) (outs : List Bool)
    (hdet : Determined ghrLen outs) (hlen : ghrLen ≤ 30) :
    wrongPredictions s (patternTrace pc outs) ≤ ghrLen + 2 ^ ghrLen * 2 ^ (counterLen - 1) := by
  have hsplit : patternTrace pc outs =
      patternTrace pc (outs.take ghrLen) ++ patternTrace pc (outs.drop ghrLen) := by
    rw [← patternTrace_append, List.take_append_drop]
  have hwarm : (Mealy.observe execute wrong s (patternTrace pc (outs.take ghrLen))).countP id ≤
      ghrLen := by
    calc _ ≤ (Mealy.observe execute wrong s (patternTrace pc (outs.take ghrLen))).length :=
          List.countP_le_length
      _ ≤ ghrLen := by
          rw [Mealy.length_observe, patternTrace, List.length_map]
          exact List.length_take_le _ _
  have hinv : InRange (stateAt s pc outs ghrLen) :=
    Mealy.run_invariant (P := InRange)
      (fun _ (b : Branch Unit) ht => update_inRange ht b.pc b.taken) hs.inRange _
  have hrest := Mealy.countP_observe_le (B := wrong) (I := fun _ => True)
    (fun t b _ hb => ⟨trivial, potential_execute (f := follows s pc outs) b hb⟩)
    (along_follows hdet (by omega)) trivial
  have hbound := potential_le hinv (follows s pc outs)
  rw [wrongPredictions, hsplit, Mealy.observe_append, List.countP_append]
  exact Nat.add_le_add hwarm (hrest.trans hbound)

/-- Twice taken, once not: two outcomes tell where in the pattern the branch is. -/
theorem wrongPredictions_le_pattern :
    wrongPredictions (new 2 2) (patternTrace 0x400a10
      [true, true, false, true, true, false, true, true, false]) ≤ 2 + 2 ^ 2 * 2 ^ (2 - 1) :=
  wrongPredictions_le Reachable.new 0x400a10 _ (by decide) (by decide)

end

end Gshare

end SandboxPredictor
