import SandboxPredictor.ResetTage
import SandboxPredictor.VipDefault

/- The reset law of `VIP`, and what all the classes have in common.

   `reset` leaves `lastDefault` and `lastPrivate`: every prediction writes the first,
   and the second when the branch has an index, which its update has too; an update
   without an index reads no private prediction. -/
namespace SandboxPredictor

namespace MissCache

variable {n : Nat}

/-- No call is visible after a `reset`. -/
theorem access_reset (c : MissCache (n + 1)) (pc : Word) (randBase : Nat) :
    (c.access pc randBase).2.reset = c.reset := by
  cases c <;> rfl

theorem snapshot_reset (c : MissCache (n + 1)) : c.snapshot.reset = c.reset := by
  cases c <;> rfl

theorem reset_reset (c : MissCache (n + 1)) : c.reset.reset = c.reset := by
  cases c <;> rfl

end MissCache

namespace VIP

variable {δ ρ π : Type} [Predictor δ ρ] [Predictor π Unit] {n snapInterval ghrLen : Nat}

/-! ## One update -/

section
variable {s : VIP δ π n snapInterval ghrLen}

/-- What an update does first: the access, and the update of the default predictor. -/
def updateDefault (s : VIP δ π n snapInterval ghrLen) (draw : ρ × Nat) (pc : Word)
    (taken : Bool) : VIP δ π n snapInterval ghrLen :=
  { s with
    mCache := s.accessOnMiss draw.2 pc taken
    defaultBP := Predictor.update s.defaultBP draw.1 pc taken }

theorem update_routed {pc : Word} {i : Fin (n + 1)} (h : s.mCache.getIdx pc = some i)
    (draw : ρ × Nat) (taken : Bool) : s.update draw pc taken =
      ((s.updateDefault draw pc taken).updatePrivate i pc taken).endUpdate taken := by
  simp only [update]
  rw [updateIdx_eq, h]
  rfl

theorem update_unrouted {pc : Word} (h : s.mCache.getIdx pc = none) (draw : ρ × Nat)
    (taken : Bool) : s.update draw pc taken = (s.updateDefault draw pc taken).endUpdate taken := by
  simp only [update]
  rw [updateIdx_eq, h]
  rfl

omit [Predictor π Unit] in
theorem accessOnMiss_reset (s : VIP δ π n snapInterval ghrLen) (randBase : Nat) (pc : Word)
    (taken : Bool) : (s.accessOnMiss randBase pc taken).reset = s.mCache.reset := by
  simp only [accessOnMiss]
  split
  · exact s.mCache.access_reset pc randBase
  · rfl

omit [Predictor δ ρ] [Predictor π Unit] in
theorem endUpdate_reset (s : VIP δ π n snapInterval ghrLen) (taken : Bool) :
    (s.endUpdate taken).mCache.reset = s.mCache.reset := by
  simp only [endUpdate]
  split
  · exact s.mCache.snapshot_reset
  · rfl

end

/-! ## The law -/

section
variable (D : ResetLaw δ) (P : PrivateLaw π)

/-- What has to agree before a prediction: all but the predictors, which their laws relate, and
what the last prediction left for its update. -/
structure AgreeBetween (s t : VIP δ π n snapInterval ghrLen) : Prop where
  default : D.between s.defaultBP t.defaultBP
  privates : ∀ i, P.between (s.privateBP i) (t.privateBP i)
  rest : t = { s with
    defaultBP := t.defaultBP, privateBP := t.privateBP
    lastDefault := t.lastDefault, lastPrivate := t.lastPrivate }

/-- What has to agree before the update of `pc`: for a branch without an index `lastPrivate` may
differ. -/
structure AgreePredicted (pc : Word) (s t : VIP δ π n snapInterval ghrLen) : Prop where
  default : D.predicted pc s.defaultBP t.defaultBP
  routed : ∀ i, s.mCache.getIdx pc = some i →
    P.predicted pc (s.privateBP i) (t.privateBP i) ∧ s.lastPrivate = t.lastPrivate
  unrouted : ∀ i, s.mCache.getIdx pc ≠ some i → P.between (s.privateBP i) (t.privateBP i)
  rest : t = { s with
    defaultBP := t.defaultBP, privateBP := t.privateBP, lastPrivate := t.lastPrivate }

/-- What a run keeps: the predictors meet their laws, and a reset of the cache leads to that of
the cache `c`. -/
structure Resettable (c : MissCache (n + 1)) (s : VIP δ π n snapInterval ghrLen) : Prop where
  default : D.inv s.defaultBP
  privates : ∀ i, P.inv (s.privateBP i)
  cache : s.mCache.reset = c.reset

variable {D P} {s t : VIP δ π n snapInterval ghrLen}

theorem predict_agrees (h : AgreeBetween D P s t) (pc : Word) :
    (s.predict pc).1 = (t.predict pc).1 ∧
      AgreePredicted D P pc (s.predict pc).2 (t.predict pc).2 := by
  obtain ⟨hpred, hdefault⟩ := D.predict_agrees pc h.default
  have hprivates := h.privates
  have hrest := h.rest
  generalize t.defaultBP = defaultBP at hpred hdefault hrest
  generalize t.privateBP = privateBP at hprivates hrest
  generalize t.lastDefault = lastDefault at hrest
  generalize t.lastPrivate = lastPrivate at hrest
  subst hrest
  cases hidx : s.mCache.getIdx pc with
  | none =>
    simp only [predict, hidx, ← hpred]
    refine ⟨trivial, hdefault, ?_, fun i _ => hprivates i, rfl⟩
    intro i hi
    cases hidx.symm.trans hi
  | some i =>
    obtain ⟨hprivate, hpredicted⟩ := P.predictAddon_agrees pc s.history ghrLen (hprivates i)
    simp only [predict, predictPrivate, hidx, ← hpred, ← hprivate]
    refine ⟨trivial, hdefault, ?_, ?_, rfl⟩
    · intro j hj
      obtain rfl := Option.some.inj (hidx.symm.trans hj)
      refine ⟨?_, rfl⟩
      dsimp only
      rw [Function.update_self, Function.update_self]
      exact hpredicted
    · intro j hj
      have hji : j ≠ i := by
        intro heq
        exact hj (heq ▸ hidx)
      dsimp only
      rw [Function.update_of_ne hji, Function.update_of_ne hji]
      exact hprivates j

theorem update_agrees {pc : Word} (h : AgreePredicted D P pc s t) (draw : ρ × Nat)
    (taken : Bool) : AgreeBetween D P (s.update draw pc taken) (t.update draw pc taken) := by
  have hdefault := D.update_agrees draw.1 pc taken h.default
  have hrouted := h.routed
  have hunrouted := h.unrouted
  have hrest := h.rest
  generalize t.defaultBP = defaultBP at hdefault hrest
  generalize t.privateBP = privateBP at hrouted hunrouted hrest
  generalize t.lastPrivate = lastPrivate at hrouted hrest
  cases hidx : s.mCache.getIdx pc with
  | none =>
    have hidx' : t.mCache.getIdx pc = none := by rw [hrest]; exact hidx
    rw [update_unrouted hidx, update_unrouted hidx']
    subst hrest
    refine ⟨hdefault, ?_, rfl⟩
    intro i
    apply hunrouted
    rw [hidx]
    exact Option.some_ne_none i ∘ Eq.symm
  | some i =>
    have hidx' : t.mCache.getIdx pc = some i := by rw [hrest]; exact hidx
    obtain ⟨hpredicted, hlast⟩ := hrouted i hidx
    rw [update_routed hidx, update_routed hidx']
    subst hrest hlast
    refine ⟨hdefault, ?_, rfl⟩
    intro j
    show P.between
      (Function.update s.privateBP i (Predictor.update (s.privateBP i) () pc taken) j)
      (Function.update privateBP i (Predictor.update (privateBP i) () pc taken) j)
    by_cases hji : j = i
    · subst hji
      rw [Function.update_self, Function.update_self]
      apply P.update_agrees () pc taken
      exact hpredicted
    · rw [Function.update_of_ne hji, Function.update_of_ne hji]
      apply hunrouted
      intro hj
      apply hji
      exact Option.some.inj (hj.symm.trans hidx)

theorem predict_resettable {c : MissCache (n + 1)} (h : Resettable D P c s) (pc : Word) :
    Resettable D P c (s.predict pc).2 := by
  cases hidx : s.mCache.getIdx pc with
  | none =>
    rw [predict_unrouted hidx]
    exact ⟨D.inv_predict pc h.default, h.privates, h.cache⟩
  | some i =>
    rw [predict_routed hidx]
    refine ⟨D.inv_predict pc h.default, ?_, h.cache⟩
    intro j
    by_cases hji : j = i
    · subst hji
      dsimp only
      rw [Function.update_self]
      apply P.inv_predictAddon pc s.history ghrLen
      exact h.privates j
    · dsimp only
      rw [Function.update_of_ne hji]
      exact h.privates j

theorem update_resettable {c : MissCache (n + 1)} (h : Resettable D P c s) (draw : ρ × Nat)
    (pc : Word) (taken : Bool) : Resettable D P c (s.update draw pc taken) := by
  have hcache : ∀ t : VIP δ π n snapInterval ghrLen,
      t.mCache = s.accessOnMiss draw.2 pc taken → (t.endUpdate taken).mCache.reset = c.reset := by
    intro t ht
    calc (t.endUpdate taken).mCache.reset
        = t.mCache.reset := endUpdate_reset t taken
      _ = s.mCache.reset := by
          rw [ht]
          exact s.accessOnMiss_reset draw.2 pc taken
      _ = c.reset := h.cache
  cases hidx : s.mCache.getIdx pc with
  | none =>
    rw [update_unrouted hidx]
    exact ⟨D.inv_update draw.1 pc taken h.default, h.privates, hcache _ rfl⟩
  | some i =>
    rw [update_routed hidx]
    refine ⟨D.inv_update draw.1 pc taken h.default, ?_, hcache _ rfl⟩
    intro j
    show P.inv (Function.update s.privateBP i (Predictor.update (s.privateBP i) () pc taken) j)
    by_cases hji : j = i
    · subst hji
      rw [Function.update_self]
      apply P.inv_update () pc taken
      exact h.privates j
    · rw [Function.update_of_ne hji]
      exact h.privates j

variable (D P)

/-- `reset` overwrites the cache, the scoreboard, the count and the history. -/
def resetLaw (c : MissCache (n + 1)) (snapInterval ghrLen : Nat) :
    ResetLaw (VIP δ π n snapInterval ghrLen) where
  inv := Resettable D P c
  between := AgreeBetween D P
  predicted := AgreePredicted D P
  inv_predict := fun pc h => predict_resettable h pc
  inv_update := fun draw pc taken h => update_resettable h draw pc taken
  reset_between := by
    intro s t hs ht
    refine ⟨D.reset_between hs.default ht.default,
      fun i => P.reset_between (hs.privates i) (ht.privates i), ?_⟩
    have hcache : t.mCache.reset = s.mCache.reset := ht.cache.trans hs.cache.symm
    show t.reset = _
    simp only [reset]
    rw [hcache]
    rfl
  predict_agrees := fun pc h => predict_agrees h pc
  update_agrees := fun draw _ taken h => update_agrees h draw taken

end

end VIP

/-! ## The classes of the repository -/

/-- **Reset leaves no trace.** After any pairs and a `reset` each of the predictors predicts, in
every further run, as a newly constructed one with the same parameters does: `Gshare`,
`Perceptron`, `NestLoop`, `TAGE` over `Gshare`, `LTAGE`, `Tournament` over `Gshare` and
`Perceptron`, and `VIP<Perceptron>` over `LTAGE` with any miss cache. -/
theorem reset_leaves_no_trace
    (ghrLen counterLen len tableSize weightLen nTables idxLen numBuckets snapInterval vipLen n : Nat)
    (cache : MissCache (n + 1)) :
    let gshare := Gshare.new ghrLen counterLen
    let perceptron := Perceptron.new len tableSize weightLen
    let tage := TAGE.new gshare nTables idxLen
    Forgets gshare ∧ Forgets perceptron ∧ Forgets (NestLoop.new counterLen idxLen) ∧
    Forgets tage ∧ Forgets (LTAGE.new tage) ∧
    Forgets (Tournament.new gshare perceptron numBuckets) ∧
    Forgets (VIP.new (LTAGE.new tage) perceptron cache snapInterval vipLen) := by
  intro gshare perceptron tage
  let G := Gshare.baseLaw ghrLen counterLen
  let P := Perceptron.privateLaw len tableSize weightLen
  let L := LTAGE.resetLaw G nTables idxLen
  refine ⟨?_, ?_, ?_, ?_, ?_, ?_, ?_⟩
  · exact G.forgets trivial rfl
  · exact P.forgets trivial rfl
  · exact (NestLoop.resetLaw counterLen idxLen).forgets rfl rfl
  · exact (TAGE.resetLaw G nTables idxLen).forgets trivial rfl
  · exact L.forgets ⟨trivial, rfl⟩ rfl
  · exact (Tournament.resetLaw G.toResetLaw P.toResetLaw numBuckets).forgets ⟨trivial, trivial⟩ rfl
  · apply (VIP.resetLaw L P cache snapInterval vipLen).forgets
    · exact ⟨⟨trivial, rfl⟩, fun _ => trivial, cache.reset_reset⟩
    · show VIP.reset (VIP.reset _) = VIP.reset _
      unfold VIP.reset
      dsimp only
      rw [MissCache.reset_reset]
      rfl

end SandboxPredictor
