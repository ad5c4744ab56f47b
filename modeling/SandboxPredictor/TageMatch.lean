import Mathlib.Order.Bounds.Basic
import SandboxPredictor.TageFrame

/- What TAGE predicts from: the longest match, unless it is not reliable yet.

   A table matches a branch when the entry at its index carries its tag. The two
   searches of `predict` overwrite the entries they remember with the misses on
   their way, and say by a useful counter of -1 that nothing was found; whatever
   was remembered of earlier branches, the providers are the last table that
   matches and the last one below it. -/
namespace SandboxPredictor
namespace TAGE

variable {β ρ : Type} [Predictor β ρ] {nTables idxLen : Nat}

/-- The entry of table `i` at the index of the branch carries its tag. -/
def Matches (t : TAGE β nTables idxLen) (pc : Word) (i : Nat) : Prop :=
  (t.entryAt pc i).tag = (t.tables i).getTag pc t.history

instance (t : TAGE β nTables idxLen) (pc : Word) (i : Nat) : Decidable (t.Matches pc i) :=
  inferInstanceAs (Decidable (_ = _))

section
variable {t : TAGE β nTables idxLen} {pc : Word} {i m : Nat}

theorem hit_iff_matches (ht : InRange t) (pc : Word) (i : Nat) :
    t.hit pc i = true ↔ t.Matches pc i :=
  (hit_iff ht pc i).trans eq_comm

theorem hit_eq_false_iff (ht : InRange t) (pc : Word) (i : Nat) :
    t.hit pc i = false ↔ ¬ t.Matches pc i := by
  rw [← hit_iff_matches ht, Bool.not_eq_true]

theorem lookup_of_matches (h : t.Matches pc i) :
    (t.tables i).lookup pc t.history = t.entryAt pc i := if_pos h.symm

/-- The highest of the tables below `n` that match. -/
theorem isGreatest_iff (ht : InRange t) {n : Nat} :
    IsGreatest {i | i < n ∧ t.Matches pc i} m ↔
      m < n ∧ t.hit pc m = true ∧ ∀ j, m < j → j < n → t.hit pc j = false := by
  simp only [hit_iff_matches ht, hit_eq_false_iff ht]
  refine ⟨?_, ?_⟩
  · intro ⟨⟨hm, hmatch⟩, hmax⟩
    refine ⟨hm, hmatch, ?_⟩
    intro j hmj hj hother
    exact absurd (hmax ⟨hj, hother⟩) (Nat.not_le_of_lt hmj)
  · intro ⟨hm, hmatch, hmiss⟩
    refine ⟨⟨hm, hmatch⟩, ?_⟩
    intro j ⟨hj, hother⟩
    by_contra hle
    exact hmiss j (Nat.lt_of_not_le hle) hj hother

theorem mainProvider_iff (ht : InRange t) :
    (t.predict pc).2.mainProvider = some m ↔ IsGreatest {i | i < nTables ∧ t.Matches pc i} m :=
  mainProvider_eq_some_iff.trans (isGreatest_iff ht).symm

theorem altProvider_iff (ht : InRange t) : (t.predict pc).2.altProvider = some i ↔
    ∃ m, (t.predict pc).2.mainProvider = some m ∧ IsGreatest {i | i < m ∧ t.Matches pc i} i := by
  simp only [isGreatest_iff ht]
  exact altProvider_eq_some_iff

/-- The entries remembered are those of the providers. -/
theorem mainPred_eq_entryAt (ht : InRange t) (h : (t.predict pc).2.mainProvider = some m) :
    (t.predict pc).2.mainPred = t.entryAt pc m :=
  (mainPred_eq h).trans (lookup_of_matches ((mainProvider_iff ht).1 h).1.2)

theorem altPred_eq_entryAt (ht : InRange t) (h : (t.predict pc).2.altProvider = some i) :
    (t.predict pc).2.altPred = t.entryAt pc i := by
  obtain ⟨_, _, hgreatest⟩ := (altProvider_iff ht).1 h
  exact (altPred_eq h).trans (lookup_of_matches hgreatest.1.2)

/-- The three-way choice at the end of `predict`. -/
theorem predict_fst (t : TAGE β nTables idxLen) (pc : Word) : (t.predict pc).1 =
    if (t.predict pc).2.mainPred.valid && !(t.predict pc).2.mainPred.weak
    then (t.predict pc).2.mainPred.toPrediction
    else if (t.predict pc).2.altPred.valid then (t.predict pc).2.altPred.toPrediction
    else (Predictor.predict t.baseBP pc).1 := rfl

/-- A main entry that is missing or weak leaves the choice to the others. -/
theorem mainPred_unreliable (ht : InRange t)
    (h : ∀ m, (t.predict pc).2.mainProvider = some m → (t.entryAt pc m).weak = true) :
    ((t.predict pc).2.mainPred.valid && !(t.predict pc).2.mainPred.weak) = false := by
  rw [mainPred_valid]
  cases hmain : (t.predict pc).2.mainProvider with
  | none => rfl
  | some m =>
    rw [mainPred_eq_entryAt ht hmain, h m hmain]
    rfl

theorem mainProvider_eq_none_iff (ht : InRange t) :
    (t.predict pc).2.mainProvider = none ↔ ∀ i < nTables, ¬ t.Matches pc i := by
  refine ⟨?_, ?_⟩
  · intro hnone i hi
    exact (hit_eq_false_iff ht pc i).1 (mainProvider_eq_none hnone i hi)
  · intro hmiss
    cases hmain : (t.predict pc).2.mainProvider with
    | none => rfl
    | some m =>
      obtain ⟨⟨hm, hmatch⟩, _⟩ := (mainProvider_iff ht).1 hmain
      exact absurd hmatch (hmiss m hm)

theorem altProvider_eq_none_iff (ht : InRange t) : (t.predict pc).2.altProvider = none ↔
    ∀ m, (t.predict pc).2.mainProvider = some m → ∀ i < m, ¬ t.Matches pc i := by
  refine ⟨?_, ?_⟩
  · intro hnone m hmain i hi
    rw [← hit_eq_false_iff ht]
    rw [predict_altProvider, hmain, Option.getD_some] at hnone
    exact findProvider_none hnone i hi
  · intro hmiss
    cases halt : (t.predict pc).2.altProvider with
    | none => rfl
    | some a =>
      obtain ⟨m, hmain, ⟨ha, hmatch⟩, _⟩ := (altProvider_iff ht).1 halt
      exact absurd hmatch (hmiss m hmain a ha)

/-- A main entry that is not weak predicts. -/
theorem predict_of_strong (ht : InRange t) (hmain : (t.predict pc).2.mainProvider = some m)
    (hstrong : (t.entryAt pc m).weak = false) :
    (t.predict pc).1 = (t.entryAt pc m).toPrediction := by
  have hentry := mainPred_eq_entryAt ht hmain
  have hvalid : (t.predict pc).2.mainPred.valid = true := by
    rw [mainPred_valid, hmain]
    rfl
  rw [predict_fst, hvalid, hentry, hstrong]
  rfl

/-- Otherwise the alternative entry does, or the base. -/
theorem predict_of_weak (ht : InRange t)
    (hweak : ∀ m, (t.predict pc).2.mainProvider = some m → (t.entryAt pc m).weak = true) :
    (t.predict pc).1 = if (t.predict pc).2.altProvider.isSome
      then (t.predict pc).2.altPred.toPrediction else (Predictor.predict t.baseBP pc).1 := by
  rw [predict_fst, mainPred_unreliable ht hweak, altPred_valid]
  rfl

theorem confidence_range (ht : InRange t) (pc : Word) (i : Nat) :
    1 ≤ (t.entryAt pc i).toPrediction.confidence ∧
      (t.entryAt pc i).toPrediction.confidence ≤ 5 := by
  have hentry : TagTable.EntryInRange (t.entryAt pc i) := ht i _
  obtain ⟨hcounter, huseful⟩ := hentry
  simp only [TagTable.counterMin, TagTable.counterMax, TagTable.usefulMax] at hcounter huseful
  simp only [TageEntry.toPrediction]
  by_cases hneg : (t.entryAt pc i).counter < 0
  · rw [if_pos hneg]
    omega
  · rw [if_neg hneg]
    omega

end

/-- **TAGE predicts from the longest reliable match.** For every branch, in every state that
any calls lead to: the main provider is the last table that matches and the alternative one
the last below it; their entries are remembered, as invalid ones where there are none; no
table changes; and the prediction is that of the main entry if it is not weak, else that of
the alternative one, else that of the base. The confidence of an entry is between 1 and 5. -/
theorem predicts_longest_match (s : TAGE β nTables idxLen) (calls : List (Call (ρ × Nat)))
    (pc : Word) :
    let t := afterCalls s.reset calls
    let pred := (t.predict pc).1
    let u := (t.predict pc).2
    (∀ m, u.mainProvider = some m ↔ IsGreatest {i | i < nTables ∧ t.Matches pc i} m) ∧
    (u.mainProvider = none ↔ ∀ i < nTables, ¬ t.Matches pc i) ∧
    (∀ a, u.altProvider = some a ↔
      ∃ m, u.mainProvider = some m ∧ IsGreatest {i | i < m ∧ t.Matches pc i} a) ∧
    (u.altProvider = none ↔
      ∀ m, u.mainProvider = some m → ∀ i < m, ¬ t.Matches pc i) ∧
    (∀ m, u.mainProvider = some m → u.mainPred = t.entryAt pc m) ∧
    (∀ a, u.altProvider = some a → u.altPred = t.entryAt pc a) ∧
    (u.mainPred.valid = u.mainProvider.isSome ∧ u.altPred.valid = u.altProvider.isSome) ∧
    u.tables = t.tables ∧
    (∀ m, u.mainProvider = some m → (t.entryAt pc m).weak = false →
      pred = (t.entryAt pc m).toPrediction) ∧
    ((∀ m, u.mainProvider = some m → (t.entryAt pc m).weak = true) →
      (∀ a, u.altProvider = some a → pred = (t.entryAt pc a).toPrediction) ∧
      (u.altProvider = none → pred = (Predictor.predict t.baseBP pc).1)) ∧
    ∀ i, 1 ≤ (t.entryAt pc i).toPrediction.confidence ∧
      (t.entryAt pc i).toPrediction.confidence ≤ 5 := by
  intro t pred u
  have ht : InRange t := afterCalls_inRange s calls
  refine ⟨fun _ => mainProvider_iff ht, mainProvider_eq_none_iff ht, fun _ => altProvider_iff ht,
    altProvider_eq_none_iff ht, fun _ => mainPred_eq_entryAt ht, fun _ => altPred_eq_entryAt ht,
    ⟨mainPred_valid t pc, altPred_valid t pc⟩, rfl, fun _ => predict_of_strong ht, ?_,
    confidence_range ht pc⟩
  intro hweak
  have hrest : pred = if u.altProvider.isSome then u.altPred.toPrediction
      else (Predictor.predict t.baseBP pc).1 := predict_of_weak ht hweak
  refine ⟨?_, ?_⟩
  · intro a halt
    rw [hrest, halt, altPred_eq_entryAt ht halt]
    rfl
  · intro halt
    rw [hrest, halt]
    rfl

end TAGE
end SandboxPredictor
