import SandboxPredictor.Gshare
import SandboxPredictor.NestLoop
import SandboxPredictor.Perceptron
import SandboxPredictor.Tournament

/- What `reset` leaves behind.

   A `ResetLaw` of a class says which fields its predictions do not depend on: two
   states that `between` relates predict alike, the prediction of a branch leaves
   them related by `predicted`, and the update of the branch relates them by
   `between` again; and `reset` relates any two states that meet `inv`. Objects of a
   class with a law forget their runs when they are reset (`ResetLaw.forgets`).

   The laws of `Gshare`, `Perceptron` and `NestLoop`, and of a `Tournament`, from the
   laws of its components. -/
namespace SandboxPredictor

/-- After any run and a `reset`, an object predicts as it does when it is new. -/
def Forgets {σ ρ : Type} [Predictor σ ρ] (fresh : σ) : Prop :=
  ∀ tr tr' : List (Branch ρ),
    predictions (Predictor.reset (afterTrace fresh tr)) tr' = predictions fresh tr'

/-- What the predictions of a class depend on, at the two points of a pair. -/
structure ResetLaw (σ : Type) {ρ : Type} [Predictor σ ρ] where
  inv : σ → Prop
  between : σ → σ → Prop
  predicted : Word → σ → σ → Prop
  inv_predict : ∀ {s} pc, inv s → inv (Predictor.predict s pc).2
  inv_update : ∀ {s} draw pc taken, inv s → inv (Predictor.update s draw pc taken)
  reset_between : ∀ {s t}, inv s → inv t → between (Predictor.reset s) (Predictor.reset t)
  predict_agrees : ∀ {s t} pc, between s t →
    (Predictor.predict s pc).1 = (Predictor.predict t pc).1 ∧
      predicted pc (Predictor.predict s pc).2 (Predictor.predict t pc).2
  update_agrees : ∀ {s t} draw pc taken, predicted pc s t →
    between (Predictor.update s draw pc taken) (Predictor.update t draw pc taken)

/-- The law of a class that TAGE may have as its base: `updateHistory` may stand in the place
of `update`. -/
structure BaseLaw (σ : Type) {ρ : Type} [Predictor σ ρ] extends ResetLaw σ where
  inv_updateHistory : ∀ {s} taken, inv s → inv (Predictor.updateHistory s taken)
  updateHistory_agrees : ∀ {s t} pc taken, predicted pc s t →
    between (Predictor.updateHistory s taken) (Predictor.updateHistory t taken)

/-- The law of a class that VIP may have as its private predictors: `predict(pc, addon,
addon_len)` stands in the place of `predict(pc)`. -/
structure PrivateLaw (σ : Type) {ρ : Type} [Predictor σ ρ] extends ResetLaw σ where
  inv_predictAddon : ∀ {s} pc addon addonLen, inv s →
    inv (Predictor.predictAddon s pc addon addonLen).2
  predictAddon_agrees : ∀ {s t} pc addon addonLen, between s t →
    (Predictor.predictAddon s pc addon addonLen).1 =
        (Predictor.predictAddon t pc addon addonLen).1 ∧
      predicted pc (Predictor.predictAddon s pc addon addonLen).2
        (Predictor.predictAddon t pc addon addonLen).2

namespace ResetLaw

variable {σ ρ : Type} [Predictor σ ρ]

theorem execute_agrees (L : ResetLaw σ) {s t : σ} (b : Branch ρ) (h : L.between s t) :
    (execute s b).1 = (execute t b).1 ∧ L.between (execute s b).2 (execute t b).2 := by
  obtain ⟨hpred, hpredicted⟩ := L.predict_agrees b.pc h
  exact ⟨hpred, L.update_agrees b.draw b.pc b.taken hpredicted⟩

theorem afterTrace_inv (L : ResetLaw σ) {s : σ} (h : L.inv s) (tr : List (Branch ρ)) :
    L.inv (afterTrace s tr) := by
  apply Mealy.run_invariant _ h
  intro s b hs
  exact L.inv_update b.draw b.pc b.taken (L.inv_predict b.pc hs)

/-- **A law is enough to forget.** A new object is one that a reset leaves as it is. -/
theorem forgets (L : ResetLaw σ) {s : σ} (h : L.inv s) (hnew : Predictor.reset s = s) :
    Forgets s := by
  intro tr tr'
  have hreset := L.reset_between (L.afterTrace_inv h tr) h
  rw [hnew] at hreset
  exact (Mealy.simulation (fun _ _ b => L.execute_agrees b) tr' _ _ hreset).1

/-- The law of a class whose `reset` overwrites all that may have changed. -/
def ofReset (inv : σ → Prop) (hpredict : ∀ {s} pc, inv s → inv (Predictor.predict s pc).2)
    (hupdate : ∀ {s} draw pc taken, inv s → inv (Predictor.update s draw pc taken))
    (heq : ∀ {s t : σ}, inv s → inv t → Predictor.reset s = Predictor.reset t) : ResetLaw σ where
  inv := inv
  between := Eq
  predicted := fun _ => Eq
  inv_predict := hpredict
  inv_update := hupdate
  reset_between := heq
  predict_agrees := by
    intro s t pc h
    rw [h]
    exact ⟨rfl, rfl⟩
  update_agrees := by
    intro s t draw pc taken h
    rw [h]

end ResetLaw

/-! ## Gshare -/

/-- `reset` overwrites every field. -/
def Gshare.baseLaw (ghrLen counterLen : Nat) : BaseLaw (Gshare ghrLen counterLen) where
  toResetLaw := ResetLaw.ofReset (fun _ => True) (fun _ _ => trivial) (fun _ _ _ _ => trivial)
    (fun _ _ => rfl)
  inv_updateHistory := fun _ _ => trivial
  updateHistory_agrees := by
    intro s t pc taken h
    exact congrArg (fun u => Gshare.updateHistory u taken) h

/-! ## NestLoop -/

namespace NestLoop

/-- `reset` leaves the history, which has never left 0. -/
def resetLaw (counterLen idxLen : Nat) : ResetLaw (NestLoop counterLen idxLen) :=
  ResetLaw.ofReset (fun s => s.history = 0) (fun pc h => (predict_history _ pc).trans h)
    (fun _ pc taken h => update_history h pc taken) (by
      intro s t hs ht
      show s.reset = t.reset
      simp only [reset]
      rw [hs, ht])

end NestLoop

/-! ## Perceptron -/

namespace PstateQueue

/-- Two queues with nothing in them, wherever they are in their rings. -/
def BothEmpty (q q' : PstateQueue) : Prop := q.head = q.tail ∧ q'.head = q'.tail

/-- Two queues with the same one state in them. -/
def OnePending (q q' : PstateQueue) : Prop :=
  q.dequeue.1 = q'.dequeue.1 ∧ BothEmpty q.dequeue.2 q'.dequeue.2

theorem BothEmpty.enqueue {q q' : PstateQueue} (h : BothEmpty q q') (state : Pstate) :
    OnePending (q.enqueue state) (q'.enqueue state) := by
  obtain ⟨hstate, hempty⟩ := dequeue_enqueue h.1 state
  obtain ⟨hstate', hempty'⟩ := dequeue_enqueue h.2 state
  exact ⟨hstate.trans hstate'.symm, hempty, hempty'⟩

end PstateQueue

namespace Perceptron

variable {ghrLen tableSize weightLen : Nat}

/-- Perceptrons that are equal but for their queues, which `R` relates. -/
structure SameBut (R : PstateQueue → PstateQueue → Prop)
    (p q : Perceptron ghrLen tableSize weightLen) : Prop where
  queues : R p.pendingBP q.pendingBP
  rest : q = { p with pendingBP := q.pendingBP }

section
variable {p q : Perceptron ghrLen tableSize weightLen}

theorem predictFrom_agrees (h : SameBut PstateQueue.BothEmpty p q) (pc history : Word) :
    (p.predictFrom pc history).1 = (q.predictFrom pc history).1 ∧
      SameBut PstateQueue.OnePending (p.predictFrom pc history).2 (q.predictFrom pc history).2 := by
  obtain ⟨hempty, hrest⟩ := h
  generalize q.pendingBP = queue at hempty hrest
  subst hrest
  exact ⟨rfl, hempty.enqueue _, rfl⟩

theorem predict_agrees (h : SameBut PstateQueue.BothEmpty p q) (pc : Word) :
    (p.predict pc).1 = (q.predict pc).1 ∧
      SameBut PstateQueue.OnePending (p.predict pc).2 (q.predict pc).2 := by
  have hhistory : q.specHistory = p.specHistory := by rw [h.rest]
  simp only [predict]
  rw [hhistory]
  exact predictFrom_agrees h pc p.specHistory

theorem predictAddon_agrees (h : SameBut PstateQueue.BothEmpty p q) (pc addon : Word)
    (addonLen : Nat) :
    (p.predictAddon pc addon addonLen).1 = (q.predictAddon pc addon addonLen).1 ∧
      SameBut PstateQueue.OnePending (p.predictAddon pc addon addonLen).2
        (q.predictAddon pc addon addonLen).2 := by
  have hhistory : q.specHistory = p.specHistory := by rw [h.rest]
  simp only [predictAddon, addonHistory]
  rw [hhistory]
  exact predictFrom_agrees h pc _

theorem update_agrees (h : SameBut PstateQueue.OnePending p q) (pc : Word) (taken : Bool) :
    SameBut PstateQueue.BothEmpty (p.update pc taken) (q.update pc taken) := by
  obtain ⟨⟨hstate, hempty⟩, hrest⟩ := h
  generalize q.pendingBP = queue at hstate hempty hrest
  subst hrest
  refine ⟨?_, ?_⟩
  · rw [update_pendingBP, update_pendingBP]
    exact hempty
  · simp only [update, ← hstate]
    split <;> rfl

end

/-- `reset` leaves the storage of the queue. -/
def privateLaw (ghrLen tableSize weightLen : Nat) :
    PrivateLaw (Perceptron ghrLen tableSize weightLen) where
  inv := fun _ => True
  between := SameBut PstateQueue.BothEmpty
  predicted := fun _ => SameBut PstateQueue.OnePending
  inv_predict := fun _ _ => trivial
  inv_predictAddon := fun _ _ _ _ => trivial
  inv_update := fun _ _ _ _ => trivial
  reset_between := fun _ _ => ⟨⟨rfl, rfl⟩, rfl⟩
  predict_agrees := fun pc h => predict_agrees h pc
  predictAddon_agrees := fun pc addon addonLen h => predictAddon_agrees h pc addon addonLen
  update_agrees := fun _ pc taken h => update_agrees h pc taken

end Perceptron

/-! ## Tournament -/

namespace Tournament

variable {β₁ β₂ ρ₁ ρ₂ : Type} [Predictor β₁ ρ₁] [Predictor β₂ ρ₂] {numBuckets : Nat}

/-- Tournaments that are equal but for their components, which `R₁` and `R₂` relate. -/
structure SameBut (R₁ : β₁ → β₁ → Prop) (R₂ : β₂ → β₂ → Prop)
    (s t : Tournament β₁ β₂ numBuckets) : Prop where
  bp1 : R₁ s.bp1 t.bp1
  bp2 : R₂ s.bp2 t.bp2
  rest : t = { s with bp1 := t.bp1, bp2 := t.bp2 }

variable (L₁ : ResetLaw β₁) (L₂ : ResetLaw β₂) {s t : Tournament β₁ β₂ numBuckets}

theorem predict_agrees (h : SameBut L₁.between L₂.between s t) (pc : Word) :
    (s.predict pc).1 = (t.predict pc).1 ∧
      SameBut (L₁.predicted pc) (L₂.predicted pc) (s.predict pc).2 (t.predict pc).2 := by
  obtain ⟨hpred1, hbp1⟩ := L₁.predict_agrees pc h.bp1
  obtain ⟨hpred2, hbp2⟩ := L₂.predict_agrees pc h.bp2
  have hrest := h.rest
  generalize t.bp1 = bp1 at hpred1 hbp1 hrest
  generalize t.bp2 = bp2 at hpred2 hbp2 hrest
  subst hrest
  simp only [predict, ← hpred1, ← hpred2]
  exact ⟨trivial, hbp1, hbp2, rfl⟩

theorem update_agrees (h : SameBut (L₁.predicted pc) (L₂.predicted pc) s t) (draw : ρ₁ × ρ₂)
    (taken : Bool) :
    SameBut L₁.between L₂.between (s.update draw pc taken) (t.update draw pc taken) := by
  obtain ⟨h1, h2, hrest⟩ := h
  refine ⟨L₁.update_agrees draw.1 pc taken h1, L₂.update_agrees draw.2 pc taken h2, ?_⟩
  rw [hrest]
  rfl

/-- `reset` overwrites everything but the components. -/
def resetLaw (numBuckets : Nat) : ResetLaw (Tournament β₁ β₂ numBuckets) where
  inv := fun s => L₁.inv s.bp1 ∧ L₂.inv s.bp2
  between := SameBut L₁.between L₂.between
  predicted := fun pc => SameBut (L₁.predicted pc) (L₂.predicted pc)
  inv_predict := fun pc h => ⟨L₁.inv_predict pc h.1, L₂.inv_predict pc h.2⟩
  inv_update := fun draw pc taken h =>
    ⟨L₁.inv_update draw.1 pc taken h.1, L₂.inv_update draw.2 pc taken h.2⟩
  reset_between := fun hs ht => ⟨L₁.reset_between hs.1 ht.1, L₂.reset_between hs.2 ht.2, rfl⟩
  predict_agrees := fun pc h => predict_agrees L₁ L₂ h pc
  update_agrees := fun draw _ taken h => update_agrees L₁ L₂ h draw taken

end Tournament

end SandboxPredictor
