import SandboxPredictor.Tage

/- When `TAGE::update` allocates.

   The stated rule asks for an allocation, or else a decay, after a wrong overall
   prediction, except when the main provider is weak (new) and predicted the
   outcome. The test on a weak main provider is the other way round in the
   source: `requestNewEntry = (mainPred.taken() == taken)`. `attempts_iff` says
   what the code does, and `followsRule_iff` where that is the rule. -/
namespace SandboxPredictor
namespace TAGE

variable {β ρ : Type} [Predictor β ρ] {nTables idxLen : Nat}

/-! ## What a prediction has found -/

/-- A provider found is the last valid entry below `n`. -/
theorem findProvider_some {lookup : Nat → TageEntry} {n i : Nat} {e : TageEntry}
    (h : (findProvider lookup n e).2 = some i) :
    i < n ∧ (findProvider lookup n e).1 = lookup i ∧ (lookup i).valid = true ∧
      ∀ j, i < j → j < n → (lookup j).valid = false := by
  induction n generalizing e with
  | zero => cases h
  | succ n ih =>
    simp only [findProvider] at h ⊢
    cases hn : (lookup n).valid with
    | true =>
      rw [hn, if_pos rfl] at h
      obtain rfl := Option.some.inj h
      rw [if_pos rfl]
      exact ⟨Nat.lt_succ_self n, rfl, hn, fun j hj hj' => by omega⟩
    | false =>
      rw [hn, if_neg Bool.false_ne_true] at h
      rw [if_neg Bool.false_ne_true]
      obtain ⟨hi, heq, hvalid, hmiss⟩ := ih h
      refine ⟨Nat.lt_succ_of_lt hi, heq, hvalid, ?_⟩
      intro j hij hj
      obtain hj | rfl := Nat.lt_succ_iff_lt_or_eq.1 hj
      · exact hmiss j hij hj
      · exact hn

/-- When none is found, none is there. -/
theorem findProvider_none {lookup : Nat → TageEntry} {n : Nat} {e : TageEntry}
    (h : (findProvider lookup n e).2 = none) : ∀ j < n, (lookup j).valid = false := by
  induction n generalizing e with
  | zero => exact fun j hj => absurd hj (Nat.not_lt_zero j)
  | succ n ih =>
    simp only [findProvider] at h
    cases hn : (lookup n).valid with
    | true =>
      rw [hn, if_pos rfl] at h
      cases h
    | false =>
      rw [hn, if_neg Bool.false_ne_true] at h
      intro j hj
      obtain hj | rfl := Nat.lt_succ_iff_lt_or_eq.1 hj
      · exact ih h j hj
      · exact hn

/-- What holds between `predict(pc)` and the update: the main provider is a table, the
tables above it do not have the branch, and the alternative provider is below it. -/
structure Predicted (t : TAGE β nTables idxLen) (pc : Word) : Prop where
  mainProvider : ∀ i, t.mainProvider = some i → i < nTables
  above : ∀ i, t.firstAbove ≤ i → i < nTables → ((t.tables i).lookup pc t.history).valid = false
  altProvider : ∀ i, t.altProvider = some i → i < t.firstAbove

theorem predict_predicted (s : TAGE β nTables idxLen) (pc : Word) :
    Predicted (s.predict pc).2 pc := by
  generalize ht : (s.predict pc).2 = t
  have hmain : (findProvider (fun i => (s.tables i).lookup pc s.history) nTables
      { s.mainPred with useful := -1 }).2 = t.mainProvider := by rw [← ht]; rfl
  have halt : (findProvider (fun i => (s.tables i).lookup pc s.history) (t.mainProvider.getD 0)
      { s.altPred with useful := -1 }).2 = t.altProvider := by rw [← ht]; rfl
  have hlookup : ∀ i, (t.tables i).lookup pc t.history = (s.tables i).lookup pc s.history := by
    rw [← ht]; exact fun _ => rfl
  cases hprov : t.mainProvider with
  | none =>
    have hfirst : t.firstAbove = 0 := by unfold firstAbove; rw [hprov]
    rw [hprov] at hmain halt
    refine ⟨?_, ?_, ?_⟩
    · rw [hprov]; simp
    · intro i _ hi
      rw [hlookup]
      exact findProvider_none hmain i hi
    · intro i hi
      -- the second search looks nowhere
      rw [hi] at halt
      cases halt
  | some m =>
    have hfirst : t.firstAbove = m + 1 := by unfold firstAbove; rw [hprov]
    rw [hprov] at hmain halt
    obtain ⟨hm, _, _, hmiss⟩ := findProvider_some hmain
    refine ⟨?_, ?_, ?_⟩
    · intro i hi
      rw [hprov] at hi
      obtain rfl := Option.some.inj hi
      exact hm
    · intro i hi hi'
      rw [hlookup]
      exact hmiss i (by omega) hi'
    · intro i hi
      rw [hi, Option.getD_some] at halt
      have hlt := (findProvider_some halt).1
      omega

/-! ## What an allocation does -/

section
variable {t : TAGE β nTables idxLen} {pc : Word}

theorem trainTable_above {s : TAGE β nTables idxLen} {provider : Option Nat} {b j : Nat}
    (hprov : ∀ i, provider = some i → i < b) (hj : b ≤ j) (taken : Bool) (useful : Int) :
    (s.trainTable provider pc taken useful).tables j = s.tables j := by
  cases provider with
  | none => rfl
  | some i =>
    have hi := hprov i rfl
    exact setTable_of_ne s (by omega) _

/-- The tables above the main provider are not trained. -/
theorem train_above (h : Predicted t pc) (draw : ρ) (taken : Bool) {j : Nat}
    (hj : t.firstAbove ≤ j) : (t.train draw pc taken).tables j = t.tables j := by
  have hmain : ∀ i, t.mainProvider = some i → i < t.firstAbove := by
    intro i hi
    simp [firstAbove, hi]
  apply trainProviders_induction (P := fun s => s.tables j = t.tables j) rfl
  intro s provider useful hprov hs
  refine (trainTable_above ?_ hj taken useful).trans hs
  intro i hi
  obtain rfl | rfl := hprov
  · exact hmain i hi
  · exact h.altProvider i hi

theorem train_history (t : TAGE β nTables idxLen) (draw : ρ) (pc : Word) (taken : Bool) :
    (t.train draw pc taken).history = t.history :=
  (trainProviders_only t pc taken).congr history (fun _ => rfl)

theorem train_firstAbove (t : TAGE β nTables idxLen) (draw : ρ) (pc : Word) (taken : Bool) :
    (t.train draw pc taken).firstAbove = t.firstAbove :=
  (trainProviders_only t pc taken).congr firstAbove (fun _ => rfl)

theorem train_requestNewEntry (t : TAGE β nTables idxLen) (draw : ρ) (pc : Word) (taken : Bool) :
    (t.train draw pc taken).requestNewEntry taken = t.requestNewEntry taken :=
  (trainProviders_only t pc taken).congr (fun t => t.requestNewEntry taken) (fun _ => rfl)

/-- The tables the allocation goes through do not have the branch. -/
theorem train_miss (h : Predicted t pc) (draw : ρ) (taken : Bool) :
    ∀ i ∈ (t.train draw pc taken).above,
      (((t.train draw pc taken).tables i).lookup pc (t.train draw pc taken).history).valid =
        false := by
  intro i hi
  rw [mem_above, train_firstAbove] at hi
  rw [train_above h draw taken hi.1, train_history]
  exact h.above i hi.1 hi.2

/-- An allocation changes a table when it is requested and there is a table above the main
provider: one gets a new entry, or all decay. -/
theorem allocate_changes_iff {u : TAGE β nTables idxLen} (hu : InRange u)
    (hmiss : ∀ i ∈ u.above, ((u.tables i).lookup pc u.history).valid = false) (randNum : Nat)
    (taken : Bool) :
    (∃ i, (u.allocate randNum pc taken).tables i ≠ u.tables i) ↔
      u.requestNewEntry taken = true ∧ u.firstAbove < nTables := by
  obtain ⟨hno, heq⟩ | ⟨hreq, ⟨i, hi, t', ht', heq⟩ | ⟨hfull, heq⟩⟩ :=
    allocate_cases u randNum pc taken
  · rw [heq]
    simpa using hno
  · refine iff_of_true ⟨i, ?_⟩ hreq
    rw [heq, setTable_self]
    exact TagTable.add_ne (hu i) (hmiss i hi) t' ht'
  · have hfirst : u.firstAbove ∈ u.above := mem_above.2 ⟨le_refl _, hreq.2⟩
    refine iff_of_true ⟨u.firstAbove, ?_⟩ hreq
    rw [heq, decayAll_tables u.above_nodup, if_pos hfirst]
    exact TagTable.decay_ne (hu _) (hfull _ hfirst)

end

/-! ## The rule -/

/-- The update of a predicted branch allocates an entry in a tagged table or decays useful
counters: its allocation stage changes a table. -/
def Attempts (t : TAGE β nTables idxLen) (draw : ρ × Nat) (pc : Word) (taken : Bool) : Prop :=
  ∃ i, ((t.train draw.1 pc taken).allocate draw.2 pc taken).tables i ≠
    (t.train draw.1 pc taken).tables i

/-- The main provider is valid and weak. -/
def WeakMain (t : TAGE β nTables idxLen) : Prop :=
  t.mainPred.valid = true ∧ t.mainPred.weak = true

/-- The stated rule, both ways. -/
def FollowsRule (t : TAGE β nTables idxLen) (draw : ρ × Nat) (pc : Word) (taken : Bool) : Prop :=
  (Attempts t draw pc taken →
    t.overallPred ≠ taken ∧ ¬ (WeakMain t ∧ t.mainPred.taken = taken)) ∧
  (t.overallPred ≠ taken → ¬ (WeakMain t ∧ t.mainPred.taken = taken) → t.firstAbove < nTables →
    Attempts t draw pc taken)

/-- What the code does: the request of the source, and a table to allocate in. -/
theorem attempts_iff {t : TAGE β nTables idxLen} (hrange : InRange t) {pc : Word}
    (h : Predicted t pc) (draw : ρ × Nat) (taken : Bool) :
    Attempts t draw pc taken ↔ t.requestNewEntry taken = true ∧ t.firstAbove < nTables := by
  rw [← train_requestNewEntry t draw.1 pc taken, ← train_firstAbove t draw.1 pc taken]
  exact allocate_changes_iff (train_inRange hrange draw.1 pc taken) (train_miss h draw.1 taken)
    draw.2 taken

/-- On a weak main provider that could be followed by an allocation, the code does the
rule's opposite when the provider was right, and nothing when the overall prediction was
wrong; everywhere else it follows the rule. -/
theorem followsRule_iff_of_predicted {t : TAGE β nTables idxLen} (hrange : InRange t) {pc : Word}
    (h : Predicted t pc) (draw : ρ × Nat) (taken : Bool) :
    FollowsRule t draw pc taken ↔
      ¬ (WeakMain t ∧ t.firstAbove < nTables ∧
        (t.mainPred.taken = taken ∨ t.overallPred ≠ taken)) := by
  have hrule := attempts_iff hrange h draw taken
  simp only [FollowsRule]
  by_cases hweak : WeakMain t
  · have hreq : t.requestNewEntry taken = true ↔ t.mainPred.taken = taken := by
      simp only [requestNewEntry]
      rw [hweak.1, hweak.2]
      simp
    rw [hrule, hreq]
    tauto
  · have hreq : t.requestNewEntry taken = true ↔ t.overallPred ≠ taken := by
      simp only [requestNewEntry]
      rw [if_neg (by simpa [WeakMain] using hweak)]
      simp
    rw [hrule, hreq]
    tauto

/-- **Where allocation follows its rule.** In every state that any calls lead to, for the
update of the branch just predicted. -/
theorem followsRule_iff (s : TAGE β nTables idxLen) (calls : List (Call (ρ × Nat))) (pc : Word)
    (taken : Bool) (draw : ρ × Nat) :
    let t := (predict (afterCalls s.reset calls) pc).2
    FollowsRule t draw pc taken ↔
      ¬ (WeakMain t ∧ t.firstAbove < nTables ∧
        (t.mainPred.taken = taken ∨ t.overallPred ≠ taken)) :=
  followsRule_iff_of_predicted (predict_inRange (afterCalls_inRange s calls) pc)
    (predict_predicted _ pc) draw taken

/-- A correct prediction from reset, with the weak entry the cleared table 0 offers for the
address, allocates in table 1. -/
theorem allocates_when_right :
    let t := (predict (new StaticTaken.mk 2 1) 4).2
    ¬ FollowsRule t ((), 1) 4 true := by
  intro t hrule
  have hrange : InRange t := predict_inRange (reset_inRange _) 4
  have hweak : WeakMain t ∧ t.firstAbove < 2 ∧ t.mainPred.taken = true := by
    simp only [WeakMain]
    decide
  exact (followsRule_iff_of_predicted hrange (predict_predicted _ 4) ((), 1) true).1 hrule
    ⟨hweak.1, hweak.2.1, Or.inl hweak.2.2⟩

end TAGE
end SandboxPredictor
