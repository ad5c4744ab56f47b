import Mathlib.Logic.Function.Basic
import SandboxPredictor.Perceptron

/- `Tournament` (`tournament.cc`): two component predictors, and for every bucket of
   addresses a preference between them.

   A pair shifts the two predictions and the outcome into the registers of its
   bucket and compares the lowest bits, so the preference of a bucket is the number
   of pairs in it that the first component got right less the number the second did
   (`preference_counts`). -/
namespace SandboxPredictor
open ShiftRegister

/-- An object constructed as `Tournament(bp1, bp2, nbuckets)`. -/
structure Tournament (β₁ β₂ : Type) (numBuckets : Nat) where
  bp1 : β₁
  bp2 : β₂
  realHistory : Nat → Word
  bp1History : Nat → Word
  bp2Histpry : Nat → Word
  preference : Nat → BitVec 32

namespace Tournament

variable {β₁ β₂ ρ₁ ρ₂ : Type} [Predictor β₁ ρ₁] [Predictor β₂ ρ₂] {numBuckets : Nat}

def reset (s : Tournament β₁ β₂ numBuckets) : Tournament β₁ β₂ numBuckets where
  realHistory := fun _ => 0
  bp1History := fun _ => 0
  bp2Histpry := fun _ => 0
  preference := fun _ => 0
  bp1 := Predictor.reset s.bp1
  bp2 := Predictor.reset s.bp2

/-- A constructed object. -/
def new (bp1 : β₁) (bp2 : β₂) (numBuckets : Nat) : Tournament β₁ β₂ numBuckets :=
  reset ⟨bp1, bp2, fun _ => 0, fun _ => 0, fun _ => 0, fun _ => 0⟩

/-- The bucket of an address. -/
def bucket (numBuckets : Nat) (pc : Word) : Nat := pc.toNat % numBuckets

def predict (s : Tournament β₁ β₂ numBuckets) (pc : Word) :
    Prediction × Tournament β₁ β₂ numBuckets :=
  let (pred1, bp1) := Predictor.predict s.bp1 pc
  let (pred2, bp2) := Predictor.predict s.bp2 pc
  let idx := bucket numBuckets pc
  let finalPrediction := if (s.preference idx).toInt > 0 then pred1.taken else pred2.taken
  (⟨finalPrediction, 0⟩,
    { s with
      bp1 := bp1
      bp2 := bp2
      bp1History := Function.update s.bp1History idx (shiftIn (s.bp1History idx) pred1.taken)
      bp2Histpry := Function.update s.bp2Histpry idx (shiftIn (s.bp2Histpry idx) pred2.taken) })

/-- The preference of a bucket after the comparison of the lowest bits. -/
def prefer (preference : BitVec 32) (bp1Correct bp2Correct : Bool) : BitVec 32 :=
  let preference := if bp1Correct then preference + 1 else preference
  if bp2Correct then preference - 1 else preference

def update (s : Tournament β₁ β₂ numBuckets) (draw : ρ₁ × ρ₂) (pc : Word) (taken : Bool) :
    Tournament β₁ β₂ numBuckets :=
  let idx := bucket numBuckets pc
  let realHistory := shiftIn (s.realHistory idx) taken
  let bp1Correct := (s.bp1History idx &&& 1#64) == (realHistory &&& 1#64)
  let bp2Correct := (s.bp2Histpry idx &&& 1#64) == (realHistory &&& 1#64)
  { s with
    bp1 := Predictor.update s.bp1 draw.1 pc taken
    bp2 := Predictor.update s.bp2 draw.2 pc taken
    realHistory := Function.update s.realHistory idx realHistory
    preference := Function.update s.preference idx
      (prefer (s.preference idx) bp1Correct bp2Correct) }

instance : Predictor (Tournament β₁ β₂ numBuckets) (ρ₁ × ρ₂) where
  predict := predict
  update := update
  reset := reset

/-! ## The components run alone -/

section
variable (s : Tournament β₁ β₂ numBuckets)

/-- A pair is a pair of each component. -/
theorem execute_bp1 (b : Branch (ρ₁ × ρ₂)) :
    (execute s b).2.bp1 = (execute s.bp1 (b.mapDraw Prod.fst)).2 := rfl

theorem execute_bp2 (b : Branch (ρ₁ × ρ₂)) :
    (execute s b).2.bp2 = (execute s.bp2 (b.mapDraw Prod.snd)).2 := rfl

theorem afterTrace_components (tr : List (Branch (ρ₁ × ρ₂))) :
    (afterTrace s tr).bp1 = afterTrace s.bp1 (tr.map (Branch.mapDraw Prod.fst)) ∧
      (afterTrace s tr).bp2 = afterTrace s.bp2 (tr.map (Branch.mapDraw Prod.snd)) :=
  ⟨Mealy.run_component execute_bp1 s tr, Mealy.run_component execute_bp2 s tr⟩

/-- The predictions the components make in a run. -/
theorem component_predictions (tr : List (Branch (ρ₁ × ρ₂))) :
    Mealy.observe execute (fun t b => (Predictor.predict t.bp1 b.pc).1) s tr =
        predictions s.bp1 (tr.map (Branch.mapDraw Prod.fst)) ∧
      Mealy.observe execute (fun t b => (Predictor.predict t.bp2 b.pc).1) s tr =
        predictions s.bp2 (tr.map (Branch.mapDraw Prod.snd)) :=
  ⟨Mealy.observe_component execute_bp1 s tr, Mealy.observe_component execute_bp2 s tr⟩

end

/-! ## The preference -/

/-- How many pairs of a bucket a predictor gets right in its own run. -/
def correctIn {β ρ : Type} [Predictor β ρ] (numBuckets : Nat) (s : β) (tr : List (Branch ρ))
    (idx : Nat) : Nat :=
  (Mealy.observe execute (fun s b => decide (bucket numBuckets b.pc = idx) &&
    ((Predictor.predict s b.pc).1.taken == b.taken)) s tr).count true

theorem correctIn_snoc {β ρ : Type} [Predictor β ρ] (s : β) (tr : List (Branch ρ)) (b : Branch ρ)
    (idx : Nat) : correctIn numBuckets s (tr ++ [b]) idx = correctIn numBuckets s tr idx +
      if bucket numBuckets b.pc = idx ∧
        (Predictor.predict (afterTrace s tr) b.pc).1.taken = b.taken then 1 else 0 := by
  simp only [correctIn]
  rw [Mealy.observe_snoc, List.count_append]
  congr 1
  by_cases hidx : bucket numBuckets b.pc = idx
  · by_cases hright : (Predictor.predict (afterTrace s tr) b.pc).1.taken = b.taken
    · simp [hidx, hright]
    · simp [hidx, hright]
  · simp [hidx]

theorem correctIn_le {β ρ : Type} [Predictor β ρ] (numBuckets : Nat) (s : β)
    (tr : List (Branch ρ)) (idx : Nat) : correctIn numBuckets s tr idx ≤ tr.length := by
  apply Nat.le_trans List.count_le_length
  exact Nat.le_of_eq (Mealy.length_outputs tr)

/-- The lowest bit of a register is the bit shifted in last. -/
theorem lowBit_beq (h h' : Word) (a b : Bool) :
    (shiftIn h a &&& 1#64 == shiftIn h' b &&& 1#64) = (a == b) := by
  have hbit : ∀ (h : Word) (a : Bool), shiftIn h a &&& 1#64 = (BitVec.ofBool a).setWidth 64 := by
    intro h a
    rw [BitVec.and_one_eq_setWidth_ofBool_getLsbD, shiftIn_getLsbD _ _ (by decide), if_pos rfl]
  rw [hbit, hbit]
  cases a <;> cases b <;> decide

/-- A pair moves the preference of its bucket by what the components got right. -/
theorem execute_preference (s : Tournament β₁ β₂ numBuckets) (b : Branch (ρ₁ × ρ₂)) (idx : Nat) :
    (execute s b).2.preference idx =
      if bucket numBuckets b.pc = idx then prefer (s.preference idx)
        ((Predictor.predict s.bp1 b.pc).1.taken == b.taken)
        ((Predictor.predict s.bp2 b.pc).1.taken == b.taken)
      else s.preference idx := by
  show ((s.predict b.pc).2.update b.draw b.pc b.taken).preference idx = _
  by_cases hidx : bucket numBuckets b.pc = idx
  · subst hidx
    simp [update, predict, lowBit_beq]
  · simp [update, predict, hidx, Function.update_of_ne (Ne.symm hidx)]

theorem prefer_ofInt (x : Int) (bp1Correct bp2Correct : Bool) :
    prefer (BitVec.ofInt 32 x) bp1Correct bp2Correct =
      BitVec.ofInt 32 (x + (if bp1Correct then 1 else 0) - if bp2Correct then 1 else 0) := by
  have hadd : ∀ y : Int, BitVec.ofInt 32 y + 1#32 = BitVec.ofInt 32 (y + 1) := by
    intro y
    rw [BitVec.ofInt_add]
    rfl
  have hsub : ∀ y : Int, BitVec.ofInt 32 y - 1#32 = BitVec.ofInt 32 (y - 1) := by
    intro y
    rw [Int.sub_eq_add_neg, BitVec.ofInt_add, BitVec.sub_eq_add_neg]
    rfl
  simp only [prefer]
  cases bp1Correct <;> cases bp2Correct <;> simp [hadd, hsub]

/-- How many pairs of the bucket the first component got right, less the number the second
did, each in its own run. -/
def lead (s : Tournament β₁ β₂ numBuckets) (tr : List (Branch (ρ₁ × ρ₂))) (idx : Nat) : Int :=
  (correctIn numBuckets s.bp1 (tr.map (Branch.mapDraw Prod.fst)) idx : Int) -
    correctIn numBuckets s.bp2 (tr.map (Branch.mapDraw Prod.snd)) idx

theorem lead_snoc (s : Tournament β₁ β₂ numBuckets) (tr : List (Branch (ρ₁ × ρ₂)))
    (b : Branch (ρ₁ × ρ₂)) (idx : Nat) :
    lead s (tr ++ [b]) idx = if bucket numBuckets b.pc = idx then lead s tr idx +
        (if (Predictor.predict (afterTrace s tr).bp1 b.pc).1.taken == b.taken then 1 else 0) -
        (if (Predictor.predict (afterTrace s tr).bp2 b.pc).1.taken == b.taken then 1 else 0)
      else lead s tr idx := by
  obtain ⟨h1, h2⟩ := afterTrace_components s tr
  simp only [lead]
  rw [List.map_append, List.map_append, List.map_singleton, List.map_singleton, correctIn_snoc,
    correctIn_snoc, h1, h2]
  simp only [Branch.mapDraw, beq_iff_eq]
  by_cases hidx : bucket numBuckets b.pc = idx
  · simp only [hidx, true_and, if_true]
    split <;> split <;> omega
  · simp [hidx]

/-- The preference of a bucket, modulo `2^32`. -/
theorem preference_eq (s : Tournament β₁ β₂ numBuckets) (tr : List (Branch (ρ₁ × ρ₂)))
    (idx : Nat) : (afterTrace s.reset tr).preference idx = BitVec.ofInt 32 (lead s.reset tr idx) := by
  induction tr using List.reverseRecOn with
  | nil => rfl
  | append_singleton tr b ih =>
    rw [afterTrace, Mealy.run_snoc, execute_preference, lead_snoc, ih, prefer_ofInt]
    split <;> rfl

/-- A run of fewer than `2^31` pairs does not overflow the preference. -/
theorem lead_range (s : Tournament β₁ β₂ numBuckets) {tr : List (Branch (ρ₁ × ρ₂))}
    (hlen : tr.length < 2 ^ 31) (idx : Nat) :
    (BitVec.ofInt 32 (lead s tr idx)).toInt = lead s tr idx := by
  have h1 := correctIn_le numBuckets s.bp1 (tr.map (Branch.mapDraw Prod.fst)) idx
  have h2 := correctIn_le numBuckets s.bp2 (tr.map (Branch.mapDraw Prod.snd)) idx
  rw [List.length_map] at h1 h2
  rw [BitVec.toInt_ofInt]
  simp only [lead]
  apply Int.bmod_eq_of_le <;> omega

/-- **The component that has been right more often.** In a run of fewer than `2^31` pairs
from reset the components go through the states and the predictions of their own runs, the
preference of a bucket is what the first component has got right in it less what the second
has, and the first component decides exactly when that is positive. -/
theorem picks_more_often_right (s : Tournament β₁ β₂ numBuckets) (tr : List (Branch (ρ₁ × ρ₂)))
    (hlen : tr.length < 2 ^ 31) :
    let t := afterTrace s.reset tr
    (t.bp1 = afterTrace (Predictor.reset s.bp1) (tr.map (Branch.mapDraw Prod.fst)) ∧
      t.bp2 = afterTrace (Predictor.reset s.bp2) (tr.map (Branch.mapDraw Prod.snd))) ∧
    (Mealy.observe execute (fun t b => (Predictor.predict t.bp1 b.pc).1) s.reset tr =
        predictions (Predictor.reset s.bp1) (tr.map (Branch.mapDraw Prod.fst)) ∧
      Mealy.observe execute (fun t b => (Predictor.predict t.bp2 b.pc).1) s.reset tr =
        predictions (Predictor.reset s.bp2) (tr.map (Branch.mapDraw Prod.snd))) ∧
    (∀ idx, (t.preference idx).toInt =
      (correctIn numBuckets (Predictor.reset s.bp1) (tr.map (Branch.mapDraw Prod.fst)) idx : Int) -
        correctIn numBuckets (Predictor.reset s.bp2) (tr.map (Branch.mapDraw Prod.snd)) idx) ∧
    ∀ pc, (Predictor.predict t pc).1.taken =
      if lead s.reset tr (bucket numBuckets pc) > 0 then (Predictor.predict t.bp1 pc).1.taken
      else (Predictor.predict t.bp2 pc).1.taken := by
  intro t
  have hpreference : ∀ idx, (t.preference idx).toInt = lead s.reset tr idx := by
    intro idx
    rw [preference_eq s tr idx]
    exact lead_range s.reset hlen idx
  refine ⟨afterTrace_components s.reset tr, component_predictions s.reset tr, hpreference, ?_⟩
  intro pc
  rw [← hpreference]
  rfl

/-- A perceptron and a static predictor over two branches that are taken and not: the
perceptron is right more often in the bucket of the first, and less often in that of the
second. -/
theorem picks_more_often_right_perceptron :
    let s : Tournament (Perceptron 8 128 9) StaticTaken 2 := new (Perceptron.new 8 128 9) ⟨⟩ 2
    let tr : List (Branch (Unit × Unit)) :=
      [⟨4, false, ((), ())⟩, ⟨5, false, ((), ())⟩, ⟨4, false, ((), ())⟩, ⟨5, true, ((), ())⟩,
        ⟨4, false, ((), ())⟩, ⟨5, false, ((), ())⟩, ⟨5, true, ((), ())⟩]
    let t := afterTrace s.reset tr
    (t.preference 0).toInt = 2 ∧ (t.preference 1).toInt = -2 ∧
      (Predictor.predict t 4).1.taken = (Predictor.predict t.bp1 4).1.taken ∧
      (Predictor.predict t 5).1.taken = (Predictor.predict t.bp2 5).1.taken := by
  intro s tr t
  obtain ⟨-, -, hpreference, hpick⟩ := picks_more_often_right s tr (by decide)
  refine ⟨?_, ?_, ?_, ?_⟩
  · rw [hpreference]
    decide +kernel
  · rw [hpreference]
    decide +kernel
  · rw [hpick, if_pos (by decide +kernel)]
  · rw [hpick, if_neg (by decide +kernel)]

end Tournament
end SandboxPredictor
