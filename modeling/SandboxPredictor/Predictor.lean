import SandboxPredictor.Lib.Mealy
import SandboxPredictor.Word

/- The interface of `bp_candidates.h` that the predictors implement and that
   composite predictors (TAGE, LTAGE, VIP) call through a base-class pointer.

   `Predictor σ ρ` is the virtual table of a class with objects `σ`. `ρ` is what
   one `update` of such an object draws from `random()` and `rand()`; a run gives
   every update its own draws. Virtual functions that a class does not override
   have the bodies of the base class. -/
namespace SandboxPredictor

/-- `Prediction`: the direction and how confident it is. -/
structure Prediction where
  taken : Bool
  confidence : Nat
  deriving DecidableEq, Repr

/-- The virtual functions of class `Predictor`. -/
class Predictor (σ : Type) (ρ : outParam Type) where
  predict : σ → Word → Prediction × σ
  predictAddon : σ → Word → Word → Nat → Prediction × σ := fun s pc _ _ => predict s pc
  update : σ → ρ → Word → Bool → σ
  updateHistory : σ → Bool → σ := fun s _ => s
  reset : σ → σ

/-- An object of class `Predictor` itself: a static taken predictor. -/
structure StaticTaken where
  deriving DecidableEq, Repr

instance : Predictor StaticTaken Unit where
  predict s _ := (⟨true, 0⟩, s)
  update s _ _ _ := s
  reset s := s

/-- One branch of a trace: its address, its outcome, and what its update draws. -/
structure Branch (ρ : Type) where
  pc : Word
  taken : Bool
  draw : ρ
  deriving DecidableEq, Repr

/-- The branch with the part of its draws that a component takes. -/
def Branch.mapDraw {ρ ρ' : Type} (f : ρ → ρ') (b : Branch ρ) : Branch ρ' :=
  ⟨b.pc, b.taken, f b.draw⟩

/-- One `predict(pc)` followed by `update(pc, taken)`, as a step of a Mealy machine
whose outputs are the predictions. -/
def execute {σ ρ : Type} [Predictor σ ρ] (s : σ) (b : Branch ρ) : Prediction × σ :=
  let (pred, s') := Predictor.predict s b.pc
  (pred, Predictor.update s' b.draw b.pc b.taken)

/-- A call from outside, where calls need not come in pairs. -/
inductive Call (ρ : Type) where
  | predict (pc : Word)
  | predictAddon (pc addon : Word) (addonLen : Nat)
  | update (pc : Word) (taken : Bool) (draw : ρ)
  | reset
  deriving DecidableEq, Repr

namespace Call

variable {ρ : Type}

def isPredict : Call ρ → Bool
  | .predict _ | .predictAddon _ _ _ => true
  | _ => false

def isReset : Call ρ → Bool
  | .reset => true
  | _ => false

/-- The outcome an update tells. -/
def outcome : Call ρ → Option Bool
  | .update _ taken _ => some taken
  | _ => none

end Call

/-- The step of a Mealy machine that makes any calls. -/
def call {σ ρ : Type} [Predictor σ ρ] (s : σ) : Call ρ → Option Prediction × σ
  | .predict pc => ((Predictor.predict s pc).1, (Predictor.predict s pc).2)
  | .predictAddon pc addon addonLen =>
    ((Predictor.predictAddon s pc addon addonLen).1, (Predictor.predictAddon s pc addon addonLen).2)
  | .update pc taken draw => (none, Predictor.update s draw pc taken)
  | .reset => (none, Predictor.reset s)

section
variable {σ ρ : Type} [Predictor σ ρ]

/-- The predictions of a trace. -/
abbrev predictions (s : σ) (tr : List (Branch ρ)) : List Prediction := Mealy.outputs execute s tr

/-- The state after a trace. -/
abbrev afterTrace (s : σ) (tr : List (Branch ρ)) : σ := Mealy.run execute s tr

/-- The state after any sequence of calls. -/
abbrev afterCalls (s : σ) (calls : List (Call ρ)) : σ := Mealy.run call s calls

end

end SandboxPredictor
