import SandboxPredictor.NestLoop
import SandboxPredictor.Tage

/- `LTAGE` (`ltage.cc`): a TAGE beside a loop predictor, which decides when its
   confidence reaches `loopThreshold`.

   As the loop predictor never has any confidence, LTAGE is the TAGE in it
   (`predictions_eq_tage`). -/
namespace SandboxPredictor

/-- An object constructed as `LTAGE(tageBP)`. -/
structure LTAGE (β : Type) (nTables idxLen : Nat) where
  tageBP : TAGE β nTables idxLen
  loopBP : NestLoop 14 4

namespace LTAGE

variable {β ρ : Type} [Predictor β ρ] {nTables idxLen : Nat}

/-- `loopThreshold`, which the constructor sets to `loopBP->getThreshold()`. -/
def loopThreshold (s : LTAGE β nTables idxLen) : Nat := s.loopBP.getThreshold

def new (tageBP : TAGE β nTables idxLen) : LTAGE β nTables idxLen := ⟨tageBP, NestLoop.new 14 4⟩

def predict (s : LTAGE β nTables idxLen) (pc : Word) : Prediction × LTAGE β nTables idxLen :=
  let (tagePred, tageBP) := s.tageBP.predict pc
  let (loopPred, loopBP) := s.loopBP.predict pc
  (if loopPred.confidence ≥ s.loopThreshold then loopPred else tagePred, ⟨tageBP, loopBP⟩)

def update (s : LTAGE β nTables idxLen) (draw : ρ × Nat) (pc : Word) (taken : Bool) :
    LTAGE β nTables idxLen :=
  ⟨s.tageBP.update draw pc taken, s.loopBP.update pc taken⟩

def reset (s : LTAGE β nTables idxLen) : LTAGE β nTables idxLen :=
  ⟨s.tageBP.reset, s.loopBP.reset⟩

instance : Predictor (LTAGE β nTables idxLen) (ρ × Nat) where
  predict := predict
  update := update
  reset := reset

/-- No entry of the loop predictor has a ready count and an age, and its answer is always
taken without confidence. -/
def LoopIdle (s : LTAGE β nTables idxLen) : Prop :=
  (∀ i, ¬ ((s.loopBP.content i).countReady = true ∧ (s.loopBP.content i).age > 0)) ∧
  ∀ pc, (s.loopBP.predict pc).1 = ⟨true, 0⟩

theorem loopIdle_of_inv {s : LTAGE β nTables idxLen} (h : s.loopBP.Inv) : LoopIdle s := by
  refine ⟨?_, ?_⟩
  · intro i ⟨hready, hage⟩
    rw [(h i).age hready] at hage
    exact absurd hage (by decide)
  · intro pc
    rw [NestLoop.predict_eq h]

/-- One branch, as the TAGE alone executes it. -/
theorem execute_tage (s : LTAGE β nTables idxLen) (t : TAGE β nTables idxLen)
    (b : Branch (ρ × Nat)) (h : s.tageBP = t ∧ s.loopBP.Inv) :
    (execute s b).1 = (execute t b).1 ∧
      ((execute s b).2.tageBP = (execute t b).2 ∧ (execute s b).2.loopBP.Inv) := by
  obtain ⟨rfl, hinv⟩ := h
  have hpred : (s.predict b.pc) =
      ((s.tageBP.predict b.pc).1, ⟨(s.tageBP.predict b.pc).2, s.loopBP⟩) := by
    unfold predict
    rw [NestLoop.predict_eq hinv]
    rfl
  refine ⟨?_, ?_, ?_⟩
  · exact congrArg Prod.fst hpred
  · show (s.predict b.pc).2.tageBP.update b.draw b.pc b.taken = _
    rw [hpred]
    rfl
  · show ((s.predict b.pc).2.loopBP.update b.pc b.taken).Inv
    rw [hpred]
    exact NestLoop.update_inv hinv b.pc b.taken

/-- From a state whose loop predictor is fresh, LTAGE predicts as its TAGE does. -/
theorem predictions_of_inv {s : LTAGE β nTables idxLen} (h : s.loopBP.Inv)
    (tr : List (Branch (ρ × Nat))) :
    predictions s tr = predictions s.tageBP tr ∧ LoopIdle (afterTrace s tr) := by
  obtain ⟨houts, _, hinv⟩ := Mealy.simulation execute_tage tr s s.tageBP ⟨rfl, h⟩
  exact ⟨houts, loopIdle_of_inv hinv⟩

/-- **LTAGE is the TAGE inside it**, from construction over any TAGE and from reset. -/
theorem predictions_eq_tage (t : TAGE β nTables idxLen) (s : LTAGE β nTables idxLen)
    (tr : List (Branch (ρ × Nat))) :
    (predictions (new t) tr = predictions t tr ∧ LoopIdle (afterTrace (new t) tr)) ∧
    (predictions s.reset tr = predictions s.tageBP.reset tr ∧
      LoopIdle (afterTrace s.reset tr)) :=
  ⟨predictions_of_inv NestLoop.new_inv tr, predictions_of_inv (NestLoop.reset_inv _) tr⟩

end LTAGE

end SandboxPredictor
