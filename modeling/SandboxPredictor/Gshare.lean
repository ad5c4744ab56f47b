import Mathlib.Logic.Function.Basic
import SandboxPredictor.Lib.Saturating
import SandboxPredictor.Predictor

/- `Gshare` (`gshare.cc`): one table of saturating counters, indexed by the
   exclusive or of the address and the global history.

   The history moves with `update` and with `updateHistory` alike. Counters stay
   in their range (`InRange`), whatever is called. -/
namespace SandboxPredictor
open ShiftRegister

/-- An object constructed as `Gshare(GHRLen, counterLen)`. -/
structure Gshare (ghrLen counterLen : Nat) where
  history : Word
  table : Word → Int

namespace Gshare

variable {ghrLen counterLen : Nat}

/-- `(1 << (counterLen - 1)) - 1`. -/
def counterMax (counterLen : Nat) : Int := 2 ^ (counterLen - 1) - 1

def counterMin (counterLen : Nat) : Int := -1 - counterMax counterLen

/-- `reset`: every field is overwritten. -/
def reset (_ : Gshare ghrLen counterLen) : Gshare ghrLen counterLen := ⟨0, fun _ => 0⟩

def new (ghrLen counterLen : Nat) : Gshare ghrLen counterLen := reset ⟨0, fun _ => 0⟩

def getIdx (s : Gshare ghrLen counterLen) (pc : Word) : Word :=
  (s.history ^^^ pc) &&& lowMask ghrLen

/-- The prediction of a counter. -/
def toPrediction (counter : Int) : Prediction :=
  let taken := decide (counter ≥ 0)
  ⟨taken, (if taken then counter + 1 else 0 - counter).toNat⟩

def predict (s : Gshare ghrLen counterLen) (pc : Word) : Prediction × Gshare ghrLen counterLen :=
  (toPrediction (s.table (s.getIdx pc)), s)

/-- `predict(pc, addon, addon_len)`. -/
def predictAddon (s : Gshare ghrLen counterLen) (pc addon : Word) (addonLen : Nat) :
    Prediction × Gshare ghrLen counterLen :=
  let tmpHistory := (s.history <<< addonLen) ||| (addon &&& lowMask addonLen)
  let idx := (tmpHistory ^^^ pc) &&& lowMask ghrLen
  (toPrediction (s.table idx), s)

def updateHistory (s : Gshare ghrLen counterLen) (taken : Bool) : Gshare ghrLen counterLen :=
  { s with history := shiftIn s.history taken }

def update (s : Gshare ghrLen counterLen) (pc : Word) (taken : Bool) : Gshare ghrLen counterLen :=
  let idx := s.getIdx pc
  let move := Saturating.step (counterMin counterLen) (counterMax counterLen)
  { history := shiftIn s.history taken
    table := Function.update s.table idx (move taken (s.table idx)) }

instance : Predictor (Gshare ghrLen counterLen) Unit where
  predict := predict
  predictAddon := predictAddon
  update s _ pc taken := s.update pc taken
  updateHistory := updateHistory
  reset := reset

/-! ## The counters stay in range -/

def InRange (s : Gshare ghrLen counterLen) : Prop :=
  ∀ i, counterMin counterLen ≤ s.table i ∧ s.table i ≤ counterMax counterLen

variable {s : Gshare ghrLen counterLen}

theorem counterMax_nonneg (counterLen : Nat) : 0 ≤ counterMax counterLen := by
  have hpos : (0 : Int) < 2 ^ (counterLen - 1) := Int.pow_pos (by decide)
  simp only [counterMax]
  omega

theorem counterMin_neg (counterLen : Nat) : counterMin counterLen < 0 := by
  have hmax := counterMax_nonneg counterLen
  simp only [counterMin]
  omega

theorem reset_inRange (s : Gshare ghrLen counterLen) : InRange s.reset :=
  fun _ => ⟨(counterMin_neg counterLen).le, counterMax_nonneg counterLen⟩

theorem update_inRange (h : InRange s) (pc : Word) (taken : Bool) :
    InRange (s.update pc taken) := by
  intro i
  by_cases hi : i = s.getIdx pc
  · subst hi
    simpa [update] using Saturating.step_range taken (h (s.getIdx pc))
  · simpa [update, Function.update_of_ne hi] using h i

/-- A counter in range is at most half the range away from predicting `d`. -/
theorem InRange.distance_le (h : InRange s) (d : Bool) (i : Word) :
    Saturating.distance d (s.table i) ≤ 2 ^ (counterLen - 1) := by
  have hcast : ((2 ^ (counterLen - 1) : Nat) : Int) = 2 ^ (counterLen - 1) := by simp
  have hi := h i
  simp only [counterMin, counterMax] at hi
  exact Saturating.distance_le (by omega)

end Gshare

end SandboxPredictor
