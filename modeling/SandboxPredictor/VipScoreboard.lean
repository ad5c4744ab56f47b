import SandboxPredictor.Vip

/- The scoreboard of VIP against the counter it is meant to be.

   A pair is a contest of slot `i` when the branch has index `i` and the two
   predictions differ. A score should go up when the default prediction wins and
   down when the private one does, saturating at both ends. In
   `updateScoreBoard` the `else if` also catches a win of the default prediction at
   `MAX_SCORE`, and takes a point from it (`Slip`). A scoreboard is the counter in
   every state of a run exactly when no step of the run slips
   (`scoreboard_faithful_iff`). -/
namespace SandboxPredictor
namespace VIP

variable {δ ρ π : Type} [Predictor δ ρ] [Predictor π Unit] {n snapInterval ghrLen : Nat}

/-- The slot a pair is a contest of, and whether the default prediction wins it. -/
def contest (s : VIP δ π n snapInterval ghrLen) (b : Branch (ρ × Nat)) :
    Option (Fin (n + 1) × Bool) :=
  let dPred := (Predictor.predict s.defaultBP b.pc).1.taken
  match s.mCache.getIdx b.pc with
  | none => none
  | some i =>
    if dPred = (s.predictPrivate i b.pc).1.taken then none else some (i, dPred == b.taken)

/-- The saturating counter. -/
def competition (defaultWon : Bool) (score : Int) : Int :=
  if defaultWon then min (score + 1) maxScore else max (score - 1) minScore

/-- What a contest, if it is one of slot `i`, does to the counter of the slot. -/
def competeAt (i : Fin (n + 1)) (score : Int) : Option (Fin (n + 1) × Bool) → Int
  | some (j, defaultWon) => if j = i then competition defaultWon score else score
  | none => score

/-- The counter of slot `i` after a run: the contests of the slot, folded from 0. -/
def competitionScore (s : VIP δ π n snapInterval ghrLen) (i : Fin (n + 1))
    (tr : List (Branch (ρ × Nat))) : Int :=
  (Mealy.observe execute contest s tr).foldl (competeAt i) 0

/-- The scoreboard of a state reached is the counter. -/
def Faithful (s : VIP δ π n snapInterval ghrLen) (tr : List (Branch (ρ × Nat))) : Prop :=
  ∀ i, (afterTrace s tr).scoreboard i = competitionScore s i tr

/-- The default prediction wins a contest of a slot whose score is `MAX_SCORE`. -/
def Slip (s : VIP δ π n snapInterval ghrLen) (b : Branch (ρ × Nat)) : Prop :=
  ∃ i, contest s b = some (i, true) ∧ s.scoreboard i = maxScore

theorem competition_range (defaultWon : Bool) {x : Int} (hx : minScore ≤ x ∧ x ≤ maxScore) :
    minScore ≤ competition defaultWon x ∧ competition defaultWon x ≤ maxScore := by
  have hle : minScore ≤ maxScore := by decide
  simp only [competition]
  split <;> omega

/-- `updateScoreBoard` on predictions that differ: the counter, but for a win of the
default prediction at `MAX_SCORE`. -/
theorem updateScore_eq {dPred pPred real : Bool} (hne : dPred ≠ pPred) {x : Int}
    (hx : minScore ≤ x ∧ x ≤ maxScore) :
    updateScore dPred pPred real x =
      if dPred = real ∧ x = maxScore then x - 1 else competition (dPred == real) x := by
  have hmin : minScore = -2 := rfl
  have hmax : maxScore = 1 := rfl
  simp only [updateScore, competition]
  rw [if_neg hne]
  by_cases hreal : dPred = real
  · simp only [hreal, true_and, beq_self_eq_true, if_true]
    split_ifs <;> omega
  · simp only [hreal, false_and, if_false, beq_eq_false_iff_ne.2 hreal, Bool.false_eq_true]
    split_ifs <;> omega

section
variable {s : VIP δ π n snapInterval ghrLen}

/-- Every score is in the range of the counter. -/
def ScoresInRange (s : VIP δ π n snapInterval ghrLen) : Prop :=
  ∀ i, minScore ≤ s.scoreboard i ∧ s.scoreboard i ≤ maxScore

theorem contest_unrouted {b : Branch (ρ × Nat)} (h : s.mCache.getIdx b.pc = none) :
    contest s b = none := by
  simp only [contest]
  rw [h]

theorem contest_routed {b : Branch (ρ × Nat)} {i : Fin (n + 1)}
    (h : s.mCache.getIdx b.pc = some i) :
    contest s b = if (Predictor.predict s.defaultBP b.pc).1.taken =
        (s.predictPrivate i b.pc).1.taken then none
      else some (i, (Predictor.predict s.defaultBP b.pc).1.taken == b.taken) := by
  simp only [contest]
  rw [h]

/-- **One pair.** The score of slot `i` moves as the counter does, but loses a point when
the default prediction wins at `MAX_SCORE`. -/
theorem execute_scoreboard (hrange : ScoresInRange s) (b : Branch (ρ × Nat)) (i : Fin (n + 1)) :
    (execute s b).2.scoreboard i =
      if contest s b = some (i, true) ∧ s.scoreboard i = maxScore then s.scoreboard i - 1
      else competeAt i (s.scoreboard i) (contest s b) := by
  cases hidx : s.mCache.getIdx b.pc with
  | none =>
    rw [(execute_unrouted b hidx).2, contest_unrouted hidx]
    simp [competeAt]
  | some j =>
    rw [(execute_routed b hidx).2, contest_routed hidx]
    generalize (Predictor.predict s.defaultBP b.pc).1.taken = dPred
    generalize (s.predictPrivate j b.pc).1.taken = pPred
    by_cases hij : i = j
    · subst hij
      rw [Function.update_self]
      by_cases hne : dPred = pPred
      · -- no contest
        simp [hne, updateScore, competeAt]
      · rw [if_neg hne, updateScore_eq hne (hrange i)]
        simp [competeAt]
    · rw [Function.update_of_ne hij]
      by_cases hne : dPred = pPred
      · simp [hne, competeAt]
      · simp [hne, competeAt, Ne.symm hij]

theorem execute_inRange (b : Branch (ρ × Nat)) (h : ScoresInRange s) :
    ScoresInRange (execute s b).2 := by
  intro i
  rw [execute_scoreboard h]
  split_ifs with hslip
  · rw [hslip.2]
    decide
  · simp only [competeAt]
    split
    · split
      · apply competition_range _
        exact h i
      · exact h i
    · exact h i

theorem afterTrace_inRange (s : VIP δ π n snapInterval ghrLen) (tr : List (Branch (ρ × Nat))) :
    ScoresInRange (afterTrace s.reset tr) := by
  have hzero : ScoresInRange s.reset := fun _ => show minScore ≤ 0 ∧ (0 : Int) ≤ maxScore by decide
  exact Mealy.run_invariant (fun _ b => execute_inRange b) hzero tr

theorem competitionScore_snoc (s : VIP δ π n snapInterval ghrLen) (i : Fin (n + 1))
    (tr : List (Branch (ρ × Nat))) (b : Branch (ρ × Nat)) :
    competitionScore s i (tr ++ [b]) =
      competeAt i (competitionScore s i tr) (contest (afterTrace s tr) b) := by
  simp only [competitionScore]
  rw [Mealy.observe_snoc, List.foldl_append]
  rfl

/-- A pair moves every score as the counter does, unless it slips. -/
theorem execute_competes_iff (hrange : ScoresInRange s) (b : Branch (ρ × Nat)) :
    (∀ i, (execute s b).2.scoreboard i = competeAt i (s.scoreboard i) (contest s b)) ↔
      ¬ Slip s b := by
  refine ⟨?_, ?_⟩
  · intro h ⟨i, hwon, hmax⟩
    have hi := h i
    rw [execute_scoreboard hrange, if_pos ⟨hwon, hmax⟩, hwon, hmax] at hi
    -- the counter stays at the top, the score does not
    simp [competeAt, competition, maxScore] at hi
  · intro hslip i
    rw [execute_scoreboard hrange, if_neg]
    intro hi
    exact hslip ⟨i, hi⟩

/-- After a faithful scoreboard, the next one is faithful when the step does not slip. -/
theorem faithful_snoc {s : VIP δ π n snapInterval ghrLen} {tr : List (Branch (ρ × Nat))}
    (hrange : ScoresInRange (afterTrace s tr)) (h : Faithful s tr) (b : Branch (ρ × Nat)) :
    Faithful s (tr ++ [b]) ↔ ¬ Slip (afterTrace s tr) b := by
  rw [← execute_competes_iff hrange b]
  apply forall_congr'
  intro i
  rw [competitionScore_snoc, ← h i, afterTrace, Mealy.run_snoc]

/-- **Where the scoreboard is the counter.** In every state of a run from reset, if and
only if in no step of the run the default prediction wins a contest at `MAX_SCORE`. -/
theorem scoreboard_faithful_iff (s : VIP δ π n snapInterval ghrLen)
    (tr : List (Branch (ρ × Nat))) :
    (∀ tr', tr' <+: tr → Faithful s.reset tr') ↔
      Mealy.Along execute (fun t b => ¬ Slip t b) s.reset tr := by
  induction tr using List.reverseRecOn with
  | nil =>
    refine ⟨fun _ => trivial, ?_⟩
    intro _ tr' htr'
    rw [List.prefix_nil.1 htr']
    exact fun _ => rfl
  | append_singleton tr b ih =>
    have hsnoc := fun h => faithful_snoc (afterTrace_inRange s tr) h b
    rw [Mealy.along_snoc, ← ih]
    refine ⟨?_, ?_⟩
    · intro h
      have hpre : ∀ tr', tr' <+: tr → Faithful s.reset tr' :=
        fun tr' htr' => h tr' (htr'.trans (List.prefix_append tr [b]))
      exact ⟨hpre, (hsnoc (hpre tr List.prefix_rfl)).1 (h _ List.prefix_rfl)⟩
    · intro ⟨hpre, hslip⟩ tr' htr'
      obtain rfl | htr' := List.prefix_concat_iff.1 htr'
      · exact (hsnoc (hpre tr List.prefix_rfl)).2 hslip
      · exact hpre tr' htr'

end

/-- A VIP of two slots over the static taken predictor, and a branch of five pairs with two
contests, the third pair and the fifth, both won by the default prediction: the score is 0,
where the counter is 1. -/
theorem default_win_costs_point :
    ¬ Faithful (VIP.new (n := 1) StaticTaken.mk (Perceptron.new 8 128 9)
        (.lru ⟨fun _ => ⟨false, 0, 0⟩, fun _ => 0, 0⟩) 1 8)
      [⟨5, false, ((), 0)⟩, ⟨5, false, ((), 0)⟩, ⟨5, true, ((), 0)⟩, ⟨5, false, ((), 0)⟩,
        ⟨5, true, ((), 0)⟩] := by
  intro h
  revert h
  simp only [Faithful]
  decide +kernel

end VIP
end SandboxPredictor
