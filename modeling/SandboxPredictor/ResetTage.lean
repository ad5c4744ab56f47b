import SandboxPredictor.Ltage
import SandboxPredictor.Reset
import SandboxPredictor.TageProviders

/- The reset law of `TAGE`, from the law of its base, and of `LTAGE`.

   `reset` leaves `basePred` and `overallPred`, which `predict` writes before `update`
   reads them. The stages of `update` take the base with them unread, but for the one
   that trains it (`update_withBase`). -/
namespace SandboxPredictor

namespace TAGE

variable {β ρ : Type} [Predictor β ρ] {nTables idxLen : Nat}

/-! ## The stages of an update do not read the base -/

/-- The same TAGE over another base. -/
@[simps] def withBase (s : TAGE β nTables idxLen) (base : β) : TAGE β nTables idxLen :=
  { s with baseBP := base }

section
variable (s : TAGE β nTables idxLen) (base : β) (pc : Word) (taken : Bool)

omit [Predictor β ρ] in
theorem trainTable_withBase (provider : Option Nat) (useful : Int) :
    (s.withBase base).trainTable provider pc taken useful =
      (s.trainTable provider pc taken useful).withBase base := by
  cases provider <;> rfl

omit [Predictor β ρ] in
theorem trainProviders_withBase :
    (s.withBase base).trainProviders pc taken = (s.trainProviders pc taken).withBase base := by
  by_cases hmain : s.mainPred.valid = true <;>
    by_cases halt : (s.altPred.valid && decide (s.mainPred.useful = 0)) = true <;>
    simp [trainProviders, trainTable_withBase, hmain, halt]

omit [Predictor β ρ] in
theorem addRandomly_withBase (is : List Nat) (randNum : Nat) :
    (s.withBase base).addRandomly pc is randNum =
      (s.addRandomly pc is randNum).map (fun t => t.withBase base) := by
  induction is generalizing randNum with
  | nil => rfl
  | cons i is ih =>
    have hadd : ((s.withBase base).tables i).add pc (s.withBase base).history =
        (s.tables i).add pc s.history := rfl
    simp only [addRandomly]
    rw [hadd]
    split
    · split
      · rfl
      · exact ih _
    · exact ih _

omit [Predictor β ρ] in
theorem addNext_withBase (is : List Nat) :
    (s.withBase base).addNext pc is = (s.addNext pc is).map (fun t => t.withBase base) := by
  induction is with
  | nil => rfl
  | cons i is ih =>
    have hadd : ((s.withBase base).tables i).add pc (s.withBase base).history =
        (s.tables i).add pc s.history := rfl
    simp only [addNext]
    rw [hadd]
    split
    · rfl
    · exact ih

omit [Predictor β ρ] in
theorem decayAll_withBase (is : List Nat) :
    (s.withBase base).decayAll pc is = (s.decayAll pc is).withBase base := by
  induction is generalizing s with
  | nil => rfl
  | cons i is ih => exact ih (s.setTable i ((s.tables i).decay pc s.history))

omit [Predictor β ρ] in
theorem allocate_withBase (randNum : Nat) :
    (s.withBase base).allocate randNum pc taken = (s.allocate randNum pc taken).withBase base := by
  have hrequest : (s.withBase base).requestNewEntry taken = s.requestNewEntry taken := rfl
  have hfirst : (s.withBase base).firstAbove = s.firstAbove := rfl
  have habove : (s.withBase base).above = s.above := rfl
  simp only [allocate]
  rw [hrequest, hfirst, habove, addRandomly_withBase, addNext_withBase, decayAll_withBase]
  split
  · cases s.addRandomly pc s.above randNum with
    | some s' => rfl
    | none => cases s.addNext pc s.above <;> rfl
  · rfl

omit [Predictor β ρ] in
theorem softReset_withBase : (s.withBase base).softReset = s.softReset.withBase base := by
  have hcall : (s.withBase base).softResetCall = s.softResetCall := rfl
  simp only [softReset]
  rw [hcall]
  split <;> rfl

/-- What an update does to everything but the base does not depend on the base. -/
theorem update_withBase (draw : ρ × Nat) : ∃ base',
    (s.withBase base).update draw pc taken = (s.update draw pc taken).withBase base' := by
  obtain ⟨base', htrain⟩ : ∃ base', (s.withBase base).train draw.1 pc taken =
      (s.train draw.1 pc taken).withBase base' := by
    simp only [train]
    rw [trainProviders_withBase]
    exact ⟨_, rfl⟩
  refine ⟨base', ?_⟩
  calc (s.withBase base).update draw pc taken
      = ((((s.train draw.1 pc taken).withBase base').allocate draw.2 pc taken).shiftHistory
          taken).softReset := by
        rw [← htrain]
        rfl
    _ = ((((s.train draw.1 pc taken).allocate draw.2 pc taken).withBase base').shiftHistory
          taken).softReset := by
        rw [allocate_withBase]
    _ = (s.update draw pc taken).withBase base' := by
        exact softReset_withBase
          (((s.train draw.1 pc taken).allocate draw.2 pc taken).shiftHistory taken) base'

end

/-! ## The law -/

/-- What has to agree before a prediction: all but the base, which `R` relates, and what the
last prediction left for its update. -/
structure AgreeBetween (R : β → β → Prop) (s t : TAGE β nTables idxLen) : Prop where
  base : R s.baseBP t.baseBP
  rest : t = { s with baseBP := t.baseBP, basePred := t.basePred, overallPred := t.overallPred }

/-- What has to agree before an update: all but the base. -/
structure AgreePredicted (R : β → β → Prop) (s t : TAGE β nTables idxLen) : Prop where
  base : R s.baseBP t.baseBP
  rest : t = s.withBase t.baseBP

section
variable (B : BaseLaw β) {s t : TAGE β nTables idxLen}

theorem predict_agrees (h : AgreeBetween B.between s t) (pc : Word) :
    (s.predict pc).1 = (t.predict pc).1 ∧
      AgreePredicted (B.predicted pc) (s.predict pc).2 (t.predict pc).2 := by
  obtain ⟨hpred, hbase⟩ := B.predict_agrees pc h.base
  have hrest := h.rest
  generalize t.baseBP = base at hpred hbase hrest
  generalize t.basePred = basePred at hrest
  generalize t.overallPred = overallPred at hrest
  subst hrest
  simp only [predict, ← hpred]
  exact ⟨trivial, hbase, rfl⟩

theorem update_agrees (h : AgreePredicted (B.predicted pc) s t) (draw : ρ × Nat) (taken : Bool) :
    AgreeBetween B.between (s.update draw pc taken) (t.update draw pc taken) := by
  obtain ⟨hbase, hrest⟩ := h
  obtain ⟨base', hupdate⟩ := update_withBase s t.baseBP pc taken draw
  rw [← hrest] at hupdate
  refine ⟨?_, ?_⟩
  · have hmain : t.mainPred = s.mainPred := by rw [hrest]; rfl
    have halt : t.altPred = s.altPred := by rw [hrest]; rfl
    rw [update_baseBP, update_baseBP, hmain, halt]
    split
    · apply B.update_agrees
      exact hbase
    · apply B.updateHistory_agrees pc
      exact hbase
  · rw [hupdate]
    rfl

/-- `reset` overwrites the tables, the history, both providers and the counts. -/
def resetLaw (nTables idxLen : Nat) : ResetLaw (TAGE β nTables idxLen) where
  inv := fun s => B.inv s.baseBP
  between := AgreeBetween B.between
  predicted := fun pc => AgreePredicted (B.predicted pc)
  inv_predict := fun pc h => B.inv_predict pc h
  inv_update := by
    intro s draw pc taken h
    show B.inv (s.update draw pc taken).baseBP
    rw [update_baseBP]
    split
    · apply B.inv_update
      exact h
    · apply B.inv_updateHistory
      exact h
  reset_between := fun hs ht => ⟨B.reset_between hs ht, rfl⟩
  predict_agrees := fun pc h => predict_agrees B h pc
  update_agrees := fun draw _ taken h => update_agrees B h draw taken

end

end TAGE

/-! ## LTAGE -/

namespace LTAGE

variable {β ρ : Type} [Predictor β ρ] {nTables idxLen : Nat}

theorem predict_fst (s : LTAGE β nTables idxLen) (pc : Word) :
    (s.predict pc).1 =
      if (Predictor.predict s.loopBP pc).1.confidence ≥ NestLoop.maxConfidence
      then (Predictor.predict s.loopBP pc).1 else (Predictor.predict s.tageBP pc).1 := rfl

/-- Both parts of an LTAGE go through the pairs. -/
def resetLaw (B : BaseLaw β) (nTables idxLen : Nat) : ResetLaw (LTAGE β nTables idxLen) :=
  let T := TAGE.resetLaw B nTables idxLen
  let N := NestLoop.resetLaw 14 4
  { inv := fun s => T.inv s.tageBP ∧ N.inv s.loopBP
    between := fun s t => T.between s.tageBP t.tageBP ∧ N.between s.loopBP t.loopBP
    predicted := fun pc s t =>
      T.predicted pc s.tageBP t.tageBP ∧ N.predicted pc s.loopBP t.loopBP
    inv_predict := fun pc h => ⟨T.inv_predict pc h.1, N.inv_predict pc h.2⟩
    inv_update := fun draw pc taken h =>
      ⟨T.inv_update draw pc taken h.1, N.inv_update () pc taken h.2⟩
    reset_between := fun hs ht => ⟨T.reset_between hs.1 ht.1, N.reset_between hs.2 ht.2⟩
    predict_agrees := by
      intro s t pc h
      obtain ⟨htage, htage'⟩ := T.predict_agrees pc h.1
      obtain ⟨hloop, hloop'⟩ := N.predict_agrees pc h.2
      refine ⟨?_, htage', hloop'⟩
      show (s.predict pc).1 = (t.predict pc).1
      rw [predict_fst, predict_fst, htage, hloop]
    update_agrees := fun draw pc taken h =>
      ⟨T.update_agrees draw pc taken h.1, N.update_agrees () pc taken h.2⟩ }

end LTAGE

end SandboxPredictor
